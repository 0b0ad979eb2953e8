-- When an edit of an arena is refused, and for which reason. The reasons are
-- looked at in a fixed order, and the first that holds is the one given. The
-- last of them, that a node would come to stand below itself, is found on the
-- way upward, which always ends. A run that is refused has written nothing.
import MarkupTree.Proofs.Arena.Linked

namespace MarkupTree

open Document (Sound Session Edit rootId)

namespace Arena

/-! ## Outcomes -/

/-- What comes of making `c` a child of `p`. -/
structure InsertionOutcome (a : Arena) (p c : NodeId) (m : Editing Unit) : Prop where
  unknown_parent : a.count ≤ p → a.Refuses m (.unknownNode p)
  unknown_child : p < a.count → a.count ≤ c → a.Refuses m (.unknownNode c)
  root : p < a.count → c = rootId → a.Refuses m .rootFixed
  unfit : ∀ x y, a.node? p = some x → a.node? c = some y → c ≠ rootId →
    x.kind.canContain y.kind = false → a.Refuses m (.cannotContain x.kind y.kind)
  below_itself : ∀ x y, a.node? p = some x → a.node? c = some y → c ≠ rootId →
    x.kind.canContain y.kind = true → a.Below c p → a.Refuses m (.ownSubtree c)
  allowed : ∀ x y, a.node? p = some x → a.node? c = some y → c ≠ rootId →
    x.kind.canContain y.kind = true → ¬ a.Below c p → a.Succeeds m

/-- What comes of making `n` a sibling of `r`. -/
structure SiblingOutcome (a : Arena) (r n : NodeId) (m : Editing Unit) : Prop where
  unknown_anchor : a.count ≤ r → a.Refuses m (.unknownNode r)
  unknown_node : r < a.count → a.count ≤ n → a.Refuses m (.unknownNode n)
  root : r < a.count → n < a.count → r = rootId ∨ n = rootId → a.Refuses m .rootFixed
  detached : r < a.count → n < a.count → r ≠ rootId → n ≠ rootId → a.parent? r = none →
    a.Refuses m (.detachedAnchor r)
  itself : r ≠ rootId → r = n → ∀ p, a.parent? r = some p → m.on a = some (.ok (), a)
  insertion : n < a.count → r ≠ rootId → n ≠ rootId → r ≠ n → ∀ p, a.parent? r = some p →
    InsertionOutcome a p n m

/-- What comes of detaching `c`. -/
structure DetachOutcome (a : Arena) (c : NodeId) (m : Editing Unit) : Prop where
  unknown : a.count ≤ c → a.Refuses m (.unknownNode c)
  root : c = rootId → a.Refuses m .rootFixed
  allowed : c < a.count → c ≠ rootId → a.Succeeds m

/-- Every edit that moves a node comes out as its outcome says. -/
structure Decided (a : Arena) : Prop where
  append : ∀ p c, InsertionOutcome a p c (.appendChild p c)
  prepend : ∀ p c, InsertionOutcome a p c (.prependChild p c)
  before : ∀ r n, SiblingOutcome a r n (.insertBeside .before r n)
  after : ∀ r n, SiblingOutcome a r n (.insertBeside .after r n)
  detach : ∀ c, DetachOutcome a c (.detach c)
  /-- Every run of an edit ends, and one that is refused leaves the arena as it
  was. -/
  ends : ∀ e, ∃ r b, (Editing.perform e).on a = some (r, b) ∧ ∀ err, r = .error err → b = a
  /-- The way upward from a node ends, and it is refused exactly if it meets
  the node that must not be met. -/
  climb : ∀ c p, p < a.count →
    (a.Below c p → a.Refuses (.climb c (some p)) (.ownSubtree c)) ∧
      (¬ a.Below c p → (Editing.climb c (some p)).on a = some (.ok (), a))

variable {a b : Arena} {d : Document}

section

variable (h : a.Shows d.chart) (hd : Sound d)

include h hd

/-! ## Insertions -/

/-- A run that begins with the check of an insertion and then always succeeds
has the outcome of the check. -/
theorem insertionOutcome_of_check {p c : NodeId} {m : Editing Unit}
    (herr : ∀ e, d.checkInsert p c = .error e → a.Refuses m e)
    (hok : d.checkInsert p c = .ok () → a.Succeeds m) : InsertionOutcome a p c m := by
  have hmem : ∀ {id}, id < a.count → id ∈ d.trees.ids := (h.mem_ids_iff hd.grounded).mpr
  have hnot : ∀ {id}, a.count ≤ id → id ∉ d.trees.ids := fun hid hm =>
    Nat.not_lt.mpr hid ((h.mem_ids_iff hd.grounded).mp hm)
  have hnode : ∀ {id n}, a.node? id = some n → d.node? id = some n := fun hn =>
    (h.node _).symm.trans hn
  have hlineage : ∀ {x}, d.node? p = some x → (c ∈ d.lineage p ↔ a.Below c p) := fun hx =>
    (Document.mem_lineage_iff hd.distinct (Document.mem_ids_of_node? hx)).trans h.below_iff.symm
  refine ⟨fun hp => herr _ ?_, fun hp hc => herr _ ?_, fun hp hc => herr _ ?_,
    fun x y hx hy hr hk => herr _ ?_, fun x y hx hy hr hk hb => herr _ ?_,
    fun x y hx hy hr hk hb => hok ?_⟩
  · rw [Document.checkInsert_unknown (Or.inl (hnot hp)), if_neg (hnot hp)]
  · rw [Document.checkInsert_unknown (Or.inr (hnot hc)), if_pos (hmem hp)]
  · obtain ⟨x, hx⟩ := Document.exists_node? (hmem hp)
    obtain ⟨y, hy⟩ := Document.exists_node? (hc ▸ hd.root_mem)
    rw [Document.checkInsert_eq hx hy, if_pos hc]
  · rw [Document.checkInsert_eq (hnode hx) (hnode hy), if_neg hr, if_pos (by simp [hk])]
  · rw [Document.checkInsert_eq (hnode hx) (hnode hy), if_neg hr, if_neg (by simp [hk]),
      if_pos ((hlineage (hnode hx)).mpr hb)]
  · rw [Document.checkInsert_eq (hnode hx) (hnode hy), if_neg hr, if_neg (by simp [hk]),
      if_neg fun hl => hb ((hlineage (hnode hx)).mp hl)]

omit h hd in
theorem Follows.refuses {m : Editing Unit} {r : Except EditError Document} (hf : Follows a m r)
    {e : EditError} (hr : r = .error e) : a.Refuses m e := by
  subst hr
  exact hf

omit h hd in
theorem Follows.succeeds {m : Editing Unit} {r : Except EditError Document} (hf : Follows a m r)
    (hr : ∃ d', r = .ok d') : a.Succeeds m := by
  obtain ⟨d', rfl⟩ := hr
  obtain ⟨b, hb, -⟩ := hf
  exact ⟨b, hb⟩

theorem insertInto_outcome (side : Side) {p c : NodeId} {m : Editing Unit}
    (hf : Follows a m (d.insertInto side p c)) : InsertionOutcome a p c m := by
  rw [Document.insertInto_eq] at hf
  refine insertionOutcome_of_check h hd (fun e he => hf.refuses ?_) fun hok => hf.succeeds ?_
  · rw [he]
    rfl
  · rw [hok]
    exact ⟨_, rfl⟩

/-! ## Siblings -/

theorem insertBeside_outcome (side : Side) (r n : NodeId) :
    SiblingOutcome a r n (.insertBeside side r n) := by
  have hf := follows_insertBeside h hd.grounded side r n
  rw [Document.insertBeside_eq] at hf
  have hmem : ∀ {id}, id < a.count → id ∈ d.trees.ids := (h.mem_ids_iff hd.grounded).mpr
  have hnot : ∀ {id}, a.count ≤ id → id ∉ d.trees.ids := fun hid hm =>
    Nat.not_lt.mpr hid ((h.mem_ids_iff hd.grounded).mp hm)
  have hup : ∀ id, a.parent? id = d.parent? id := h.parent?_eq hd.grounded
  have hrefused : ∀ {e}, d.siblingParent r n = .error e →
      a.Refuses (.insertBeside side r n) e := fun he => hf.refuses (by rw [he]; rfl)
  have hfound : ∀ p, n ∈ d.trees.ids → r ≠ rootId → n ≠ rootId → a.parent? r = some p →
      d.siblingParent r n = .ok p := by
    intro p hn hrr hnr hp
    rw [hup] at hp
    have hr := (Document.mem_ids_of_parent? hd.distinct hp).2
    rw [Document.siblingParent_eq, if_neg (not_not_intro hr), if_neg (not_not_intro hn),
      if_neg (by simp [hrr, hnr]), hp]
  refine ⟨fun hr => hrefused ?_, fun hr hn => hrefused ?_, fun hr hn hroot => hrefused ?_,
    fun hr hn hrr hnr hp => hrefused ?_, fun hrr heq p hp => ?_, fun hn hrr hnr hne p hp => ?_⟩
  · rw [Document.siblingParent_eq, if_pos (hnot hr)]
  · rw [Document.siblingParent_eq, if_neg (not_not_intro (hmem hr)), if_pos (hnot hn)]
  · rw [Document.siblingParent_eq, if_neg (not_not_intro (hmem hr)),
      if_neg (not_not_intro (hmem hn)), if_pos hroot]
  · rw [hup] at hp
    rw [Document.siblingParent_eq, if_neg (not_not_intro (hmem hr)),
      if_neg (not_not_intro (hmem hn)), if_neg (by simp [hrr, hnr]), hp]
  · subst heq
    have hpar := hfound p (hmem (lt_of_parent hp)) hrr hrr hp
    have hrun := on_siblingParent h hd.grounded r r
    rw [hpar] at hrun
    rw [Editing.insertBeside, Editing.on_bind hrun, if_neg (not_not_intro rfl)]
    rfl
  · rw [hfound p (hmem hn) hrr hnr hp] at hf
    simp only [bind, Except.bind, hne, if_false] at hf
    refine insertionOutcome_of_check h hd (fun e he => hf.refuses ?_) fun hok => hf.succeeds ?_
    · rw [he]
    · rw [hok]
      exact ⟨_, rfl⟩

/-! ## All edits -/

theorem detach_outcome (c : NodeId) : DetachOutcome a c (.detach c) := by
  have hf := follows_detach h hd.grounded c
  rw [Document.detach_eq] at hf
  have hmem : c ∈ d.trees.ids ↔ c < a.count := h.mem_ids_iff hd.grounded
  refine ⟨fun hc => hf.refuses ?_, fun hr => hf.refuses ?_, fun hc hr => hf.succeeds ?_⟩
  · rw [if_pos fun hm => Nat.not_lt.mpr hc (hmem.mp hm)]
  · rw [if_neg (not_not_intro (hr ▸ hd.root_mem)), if_pos hr]
  · rw [if_neg (not_not_intro (hmem.mpr hc)), if_neg hr]
    exact ⟨_, rfl⟩

theorem ends_of_shows (e : Edit) :
    ∃ r b, (Editing.perform e).on a = some (r, b) ∧ ∀ err, r = .error err → b = a := by
  have hf := follows_perform h hd.grounded e
  rcases hr : d.perform e with err | d'
  · rw [hr] at hf
    exact ⟨_, a, hf, fun _ _ => rfl⟩
  · rw [hr] at hf
    obtain ⟨b, hb, -⟩ := hf
    exact ⟨_, b, hb, fun _ hok => nomatch hok⟩

theorem decided_of_shows : Decided a where
  append p c := insertInto_outcome h hd .after (follows_appendChild h hd.grounded p c)
  prepend p c := insertInto_outcome h hd .before (follows_prependChild h hd.grounded p c)
  before r n := insertBeside_outcome h hd .before r n
  after r n := insertBeside_outcome h hd .after r n
  detach c := detach_outcome h hd c
  ends e := ends_of_shows h hd e
  climb c p hp := by
    have hlineage := (Document.mem_lineage_iff hd.distinct (a := c)
      ((h.mem_ids_iff hd.grounded).mpr hp)).trans h.below_iff.symm
    obtain ⟨hup, hlt⟩ := leads_lineage h hd.grounded hp
    have hrun := on_climb c hup hlt
    refine ⟨fun hb => ?_, fun hb => ?_⟩
    · rw [Refuses, hrun, if_pos (hlineage.mpr hb)]
    · rw [hrun, if_neg fun hl => hb (hlineage.mp hl)]

end

end Arena

/-- In every session, the edits that move nodes are accepted or refused as
their outcomes say. -/
theorem Document.Session.edits_are_decided (x : Session) : ∃ a, x.arena = some a ∧ a.Decided := by
  obtain ⟨a, ha, hshows⟩ := x.exists_arena
  exact ⟨a, ha, Arena.decided_of_shows hshows x.sound⟩

end MarkupTree
