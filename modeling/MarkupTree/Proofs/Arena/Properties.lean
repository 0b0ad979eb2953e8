-- Changes of properties in an arena. A change that is accepted shows in the
-- one slot that it names: every other slot stays, and so do all links of the
-- slot. A change that is refused leaves the whole arena as it is.
import MarkupTree.Proofs.Arena.Sessions
import MarkupTree.Proofs.Node.Properties

namespace MarkupTree

open Document (Session)

namespace Arena

/-! ## Outcomes -/

/-- The arena after a change of the node `id` that is accepted. -/
structure Changed (a : Arena) (id : NodeId) (change : Change) (b : Arena) : Prop where
  slot : ∃ s content, a.slot? id = some s ∧ b.slot? id = some { s with content } ∧
    s.content.Shows content change
  others : ∀ other, other ≠ id → b.slot? other = a.slot? other

/-- What comes of changing a property of the node `n`. -/
structure SetOutcome (a : Arena) (n : Node) (change : Change) : Prop where
  foreign : ∀ k p, a.Refuses (.set n.id change) (.notApplicable k p) ↔
    k = n.kind ∧ p = change.property ∧ n.kind.carries change.property = false
  level : ∀ level, a.Refuses (.set n.id change) (.levelOutOfRange level) ↔
    n.kind = .heading ∧ change = .headingLevel level ∧ ¬ (1 ≤ level ∧ level ≤ 6)
  bullets : a.Refuses (.set n.id change) .delimiterOfBullets ↔
    n.content.listKind? = some .bullet ∧ ∃ delimiter, change = .listDelim delimiter
  /-- Nothing else stands in the way of a change. -/
  accepted : n.kind.carries change.property = true →
    (∀ level, change = .headingLevel level → 1 ≤ level ∧ level ≤ 6) →
    (∀ delimiter, change = .listDelim delimiter → n.content.listKind? ≠ some .bullet) →
    a.Succeeds (.set n.id change)
  changed : ∀ b, (Editing.set n.id change).on a = some (.ok (), b) → Changed a n.id change b
  refused : ∀ e b, (Editing.set n.id change).on a = some (.error e, b) → b = a

variable {a : Arena} {id : NodeId} {s : Slot} {change : Change}

/-! ## One change -/

/-- A change in an arena is refused as it is for the content of the slot. -/
theorem refuses_set_iff (hs : a.slot? id = some s) {e : EditError} :
    a.Refuses (.set id change) e ↔ s.content.refusal? change = some e := by
  rw [Refuses, on_set hs, outcome, ← Content.apply_eq_error_iff]
  rcases s.content.apply change with e' | content <;> simp

theorem succeeds_set (hs : a.slot? id = some s) (hr : s.content.refusal? change = none) :
    a.Succeeds (.set id change) := by
  rw [Succeeds, on_set hs, outcome]
  rcases hc : s.content.apply change with e | content
  · rw [Content.apply_eq_error_iff.mp hc] at hr
    cases hr
  · exact ⟨_, rfl⟩

theorem changed_of_on_set (hs : a.slot? id = some s) {b : Arena}
    (hb : (Editing.set id change).on a = some (.ok (), b)) : Changed a id change b := by
  rw [on_set hs, outcome] at hb
  rcases hc : s.content.apply change with e | content
  · rw [hc] at hb
    cases hb
  · rw [hc] at hb
    cases hb
    refine ⟨⟨s, content, hs, slot_withContent hs content, Content.shows_apply hc⟩, fun other ho => ?_⟩
    rw [slot?_change, if_neg (Ne.symm ho)]

theorem set_outcome (hs : a.slot? id = some s) (change : Change) :
    SetOutcome a (s.label id) change where
  foreign k p := (refuses_set_iff hs).trans Content.refused_for_kind_iff
  level l := (refuses_set_iff hs).trans Content.refused_for_level_iff
  bullets := (refuses_set_iff hs).trans Content.refused_for_bullets_iff
  accepted hk hl hb := by
    refine succeeds_set hs ((if_pos hk).trans (Option.eq_none_iff_forall_ne_some.mpr fun e he => ?_))
    rcases Content.rejects?_eq_some_iff.mp he with ⟨level, rfl, hnot, -⟩ | ⟨delimiter, rfl, hnot, -⟩
    · exact hnot (hl level rfl)
    · exact hb delimiter rfl hnot
  changed b hb := changed_of_on_set hs hb
  refused e b he := by
    have hrun : (Editing.set id change).on a = some (.error e, b) := he
    rw [on_set hs, outcome] at hrun
    split at hrun <;> cases hrun
    rfl

end Arena

/-- In every session, a change of a property is refused exactly for the reasons
given, and one that is accepted does what it says and no more. -/
theorem Document.Session.changes_are_exact (x : Session) :
    ∃ a, x.arena = some a ∧
      ∀ id < a.count, ∃ n, a.node? id = some n ∧ n.id = id ∧ ∀ change, a.SetOutcome n change := by
  obtain ⟨a, ha, -⟩ := x.exists_arena
  refine ⟨a, ha, fun id hid => ?_⟩
  obtain ⟨s, hs⟩ := Arena.exists_slot hid
  exact ⟨s.label id, by rw [Arena.node?, hs]; rfl, rfl, Arena.set_outcome hs⟩

/-- The changes of a list that was just made. -/
theorem Document.Session.new_list_changes_exactly :
    ∃ a, (Session.mk .new [.create .list]).arena = some a ∧ 1 < a.count ∧
      ∃ n, a.node? 1 = some n ∧ n.id = 1 ∧ ∀ change, a.SetOutcome n change := by
  obtain ⟨a, ha, hall⟩ := Session.changes_are_exact (Session.mk .new [.create .list])
  have hcount : (Session.mk .new [.create .list]).arena.map Arena.count = some 2 := rfl
  rw [ha] at hcount
  have hlt : 1 < a.count := (Option.some.inj hcount).symm ▸ Nat.lt_succ_self 1
  exact ⟨a, ha, hlt, hall 1 hlt⟩

end MarkupTree
