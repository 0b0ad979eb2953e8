-- What an edit that succeeds can do, told once: it rearranges the nodes, makes
-- a new one, gives one of them another content, or merges texts. What every
-- step of a session keeps is read off from these four. They ask only that the
-- numbers are in order, and not that each node stands where it fits.
import MarkupTree.Proofs.Document.Sessions

namespace MarkupTree

namespace Document

/-- What an edit that succeeds makes of a document. -/
inductive Effect (d : Document) : Edit → Document → Prop
  | move {e : Edit} {d' : Document} (edit : Row → Row) (moved : Rearranged edit d d') :
    Effect d e d'
  | create {k : Kind} {id : NodeId} {d' : Document} (made : d.create k = .ok (id, d')) :
    Effect d (.create k) d'
  | normalize : Effect d .normalize d.normalize
  | set {id : NodeId} {change : Change} {d' : Document} (done : d.set id change = .ok d') :
    Effect d (.set id change) d'

variable {d d' : Document}

theorem rearranged_self (d : Document) : Rearranged id d d :=
  ⟨List.Perm.of_eq (List.map_id _).symm, fun _ => rfl, rfl⟩

theorem effect_insertInto (h : Grounded d) {e : Edit} (side : Side) {p c : NodeId}
    (hok : d.insertInto side p c = .ok d') : Effect d e d' := by
  obtain ⟨_, _, -, hr⟩ := insertInto_ok h side hok
  exact .move _ hr

theorem effect_insertBeside (h : Grounded d) {e : Edit} (side : Side) {a c : NodeId}
    (hok : d.insertBeside side a c = .ok d') : Effect d e d' := by
  by_cases hne : a = c
  · subst hne
    rw [insertBeside_self side hok]
    exact .move id (rearranged_self d)
  · obtain ⟨_, _, _, -, -, hr⟩ := insertBeside_ok h side hne hok
    exact .move _ hr

theorem effect_of_perform (h : Grounded d) {e : Edit} (hok : d.perform e = .ok d') :
    Effect d e d' := by
  cases e with
  | create k =>
    rcases hc : d.create k with err | ⟨id, c⟩
    · rw [perform, hc] at hok
      cases hok
    · rw [perform, hc] at hok
      cases hok
      exact .create hc
  | appendChild parent child => exact effect_insertInto h .after hok
  | prependChild parent child => exact effect_insertInto h .before hok
  | insertBefore anchor node => exact effect_insertBeside h .before hok
  | insertAfter anchor node => exact effect_insertBeside h .after hok
  | detach id => exact .move _ (detach_ok h hok).2
  | normalize =>
    cases hok
    exact .normalize
  | set id change => exact .set hok

/-- An edit that is refused moves nothing, so every step has an effect. -/
theorem effect_after (h : Grounded d) (e : Edit) : Effect d e (d.after e) := by
  unfold after
  rcases he : d.perform e with err | d'
  · exact .move id (rearranged_self d)
  · exact effect_of_perform h he

/-! ## The ground stays -/

theorem grounded_set (h : Grounded d) {id : NodeId} {change : Change}
    (hok : d.set id change = .ok d') : Grounded d' := by
  obtain ⟨n, content, -, -, ht⟩ := set_ok hok
  refine h.of_relabelled (ht ▸ Forest.rows_modify _ _ _) (ht ▸ Forest.roots_modify _ _ _) ?_
  intro m
  split <;> rfl

theorem Effect.grounded {e : Edit} (he : Effect d e d') (h : Grounded d) : Grounded d' := by
  cases he with
  | move edit hr => exact h.of_rearranged hr
  | create hc => exact grounded_create h hc
  | normalize => exact grounded_normalize h
  | set hs => exact grounded_set h hs

theorem grounded_after (h : Grounded d) (e : Edit) : Grounded (d.after e) :=
  (effect_after h e).grounded h

theorem grounded_edits (h : Grounded d) (es : List Edit) : Grounded (es.foldl after d) := by
  induction es generalizing d with
  | nil => exact h
  | cons e es ih => exact ih (grounded_after h e)

end Document

end MarkupTree
