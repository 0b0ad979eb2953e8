-- Ranges in source order. Where the events start one after the other in the
-- source, so do the passages of each row, and none starts before the passage
-- around it. The paragraphs that no event started take their places from the
-- inlines in them.
import MarkupTree.Proofs.Event.Passages
import Mathlib.Data.List.Pairwise

namespace MarkupTree

namespace Marked

/-- The starts of the events but for those of finishes. -/
def starts (events : List Marked) : List Nat :=
  (events.filter fun m => m.event ≠ .finish).map (·.start)

/-- The events start in source order, and no range ends before it starts. -/
structure InOrder (events : List Marked) : Prop where
  sorted : (starts events).Pairwise (· ≤ ·)
  forward : ∀ m ∈ events, m.start ≤ m.stop

end Marked

namespace Outline

/-! ## The starts of an outline -/

theorem starts_leaf {event : Event} (he : event ≠ .finish) (start stop : Nat) (next : Outline) :
    Marked.starts (Outline.leaf start stop event next).events =
      start :: Marked.starts next.events := by
  simp [Marked.starts, events, he]

theorem starts_enclose (tag : Tag) (start stop finishStart finishStop : Nat)
    (inside next : Outline) :
    Marked.starts (Outline.enclose tag start stop finishStart finishStop inside next).events =
      start :: (Marked.starts inside.events ++ Marked.starts next.events) := by
  simp [Marked.starts, events]

/-- The passages of a row start where some of the events do, in their order. -/
theorem starts_passages (s : Source) (o : Outline) :
    ((o.passages s).map (·.label.start)).Sublist (Marked.starts o.events) := by
  induction o with
  | nil => exact List.Sublist.refl _
  | leaf start stop event next ih =>
    by_cases he : event = .finish
    · subst he
      exact ih
    · rw [starts_leaf he]
      cases event <;> first | exact ih.cons_cons start | exact ih.cons start
  | enclose tag start stop finishStart finishStop inside next _ ih =>
    rw [starts_enclose]
    exact (ih.trans (List.sublist_append_right _ _)).cons_cons start

end Outline

namespace Rose

variable {row run : List (Rose Passage)} {r : Rose Passage}

/-! ## Rows in source order -/

/-- The row starts at `lo` or later, and each of it at the start of the one
before or later. -/
def Ascends (lo : Nat) (row : List (Rose Passage)) : Prop :=
  (lo :: row.map (·.label.start)).Pairwise (· ≤ ·)

/-- Each run gives the paragraph around it the start of its first inline. -/
theorem starts_gather (run row : List (Rose Passage)) :
    ((gather run row).map (·.label.start)).Sublist ((run ++ row).map (·.label.start)) := by
  have hpar : ∀ qs : List (Rose Passage),
      ((paragraphOf qs).map (·.label.start)).Sublist (qs.map (·.label.start)) := by
    intro qs
    cases qs with
    | nil => exact List.Sublist.refl _
    | cons q qs => simp [paragraphOf, Passage.ofInlines, label]
  induction row generalizing run with
  | nil =>
    rw [List.append_nil]
    exact hpar run
  | cons q row ih =>
    unfold gather
    split
    · simpa using ih (run ++ [q])
    · rw [List.map_append, List.map_append, List.map_cons, List.map_cons]
      exact (hpar run).append ((ih []).cons_cons _)

theorem starts_lay (p : Place) (row : List (Rose Passage)) :
    ((p.lay [] row).map (·.label.start)).Sublist (row.map (·.label.start)) := by
  cases p with
  | mixed => exact starts_gather [] row
  | codeText | htmlText => exact List.nil_sublist _
  | blocks | items | inlines => exact List.Sublist.refl _

theorem Ascends.lay {lo : Nat} (h : Ascends lo row) (p : Place) : Ascends lo (p.lay [] row) :=
  h.sublist ((starts_lay p row).cons_cons lo)

/-- A run starts with its first inline. -/
theorem Ascends.ofRun {lo : Nat} {q : Rose Passage} {qs : List (Rose Passage)} (h : Ascends lo row)
    (hrun : IsRun row (q :: qs)) : Ascends q.label.start (q :: qs) := by
  have hsub : ((q :: qs).map (·.label.start)).Pairwise (· ≤ ·) :=
    (List.pairwise_cons.mp h).2.sublist (hrun.sublist.map _)
  refine List.pairwise_cons.mpr ⟨fun n hn => ?_, hsub⟩
  rw [List.map_cons] at hn hsub
  rcases List.mem_cons.mp hn with rfl | hn
  · exact Nat.le_refl _
  · exact (List.pairwise_cons.mp hsub).1 n hn

/-- A row in source order reaches as far as it starts. -/
theorem Ascends.le_reachOf {lo reach : Nat} (h : Ascends lo row)
    (hrow : ∀ r ∈ row, r.label.start ≤ r.label.reach) (hreach : lo ≤ reach) :
    lo ≤ reachOf reach row := by
  rcases hlast : row.getLast? with _ | r
  · rwa [reachOf, hlast]
  · have hr := List.mem_of_getLast? hlast
    have hlo := (List.pairwise_cons.mp h).1 _ (List.mem_map_of_mem hr)
    rw [reachOf, hlast]
    exact hlo.trans (hrow r hr)

/-- A passage whose children are in source order. -/
structure InOrder (r : Rose Passage) : Prop where
  children : Ascends r.label.start r.children
  forward : r.label.start ≤ r.label.reach
  /-- A paragraph that no event started ends where its last inline does. -/
  ends : r.label.implied = true → r.label.stop = r.label.reach

end Rose

namespace Outline

variable {s : Source} {o : Outline}

theorem starts_next_leaf (start stop : Nat) (event : Event) (next : Outline) :
    (Marked.starts next.events).Sublist
      (Marked.starts (Outline.leaf start stop event next).events) :=
  ((List.sublist_cons_self _ _).filter _).map _

/-- Each passage starts where some event does. -/
theorem start_mem_passages (s : Source) (o : Outline) :
    ∀ r ∈ Rose.subrosesRow (o.passages s), r.label.start ∈ Marked.starts o.events := by
  induction o with
  | nil => simp [passages, Rose.subrosesRow]
  | leaf start stop event next ih =>
    rw [passages, Rose.subrosesRow_append]
    refine List.forall_mem_append.mpr
      ⟨fun r hr => ?_, fun r hr => (starts_next_leaf _ _ _ _).subset (ih r hr)⟩
    obtain ⟨c, hc, rfl⟩ := mem_subrosesRow_plan hr
    rw [starts_leaf (by rintro rfl; cases hc)]
    exact List.mem_cons_self
  | enclose tag start stop finishStart finishStop inside next ihinside ihnext =>
    have hin : ∀ n ∈ Marked.starts inside.events,
        n ∈ Marked.starts (Outline.enclose tag start stop finishStart finishStop inside next).events := by
      intro n hn
      rw [starts_enclose]
      exact List.mem_cons_of_mem _ (List.mem_append_left _ hn)
    rw [passages, Rose.subrosesRow, Rose.subroses]
    refine List.forall_mem_append.mpr ⟨List.forall_mem_cons.mpr ⟨?_, ?_⟩, fun r hr => ?_⟩
    · rw [starts_enclose]
      exact List.mem_cons_self
    · refine Rose.forall_lay _ (fun r hr => hin _ (ihinside r hr)) fun _ q qs hrun => ?_
      exact hin _ (ihinside q (Rose.subset_subrosesRow _ (hrun.sublist.subset List.mem_cons_self)))
    · rw [starts_enclose]
      exact List.mem_cons_of_mem _ (List.mem_append_right _ (ihnext r hr))

theorem inOrder_leaf {start stop : Nat} {event : Event} {next : Outline}
    (h : Marked.InOrder (Outline.leaf start stop event next).events) :
    start ≤ stop ∧ Marked.InOrder next.events :=
  ⟨h.forward ⟨start, stop, event⟩ List.mem_cons_self, h.sorted.sublist (starts_next_leaf _ _ _ _),
    fun m hm => h.forward m (List.mem_cons_of_mem _ hm)⟩

theorem inOrder_enclose {tag : Tag} {start stop finishStart finishStop : Nat} {inside next : Outline}
    (h : Marked.InOrder (Outline.enclose tag start stop finishStart finishStop inside next).events)
    (s : Source) :
    start ≤ stop ∧ Rose.Ascends start (inside.passages s) ∧ Marked.InOrder inside.events ∧
      Marked.InOrder next.events := by
  have hsorted := h.sorted
  have hforward := h.forward
  rw [starts_enclose] at hsorted
  obtain ⟨hin, hnext, -⟩ := List.pairwise_append.mp (List.pairwise_cons.mp hsorted).2
  rw [events, List.forall_mem_cons, List.forall_mem_append, List.forall_mem_cons] at hforward
  exact ⟨hforward.1,
    hsorted.sublist (((starts_passages s inside).trans (List.sublist_append_left _ _)).cons_cons start),
    ⟨hin, hforward.2.1⟩, ⟨hnext, hforward.2.2.2⟩⟩

/-- Below each passage the passages are in source order. -/
theorem inOrder_passages (h : Marked.InOrder o.events) :
    ∀ r ∈ Rose.subrosesRow (o.passages s), r.InOrder := by
  induction o with
  | nil => simp [passages, Rose.subrosesRow]
  | leaf start stop event next ih =>
    obtain ⟨hforward, hnext⟩ := inOrder_leaf h
    rw [passages, Rose.subrosesRow_append]
    refine List.forall_mem_append.mpr ⟨fun r hr => ?_, ih hnext⟩
    obtain ⟨c, -, rfl⟩ := mem_subrosesRow_plan hr
    exact ⟨List.pairwise_singleton _ _, hforward, nofun⟩
  | enclose tag start stop finishStart finishStop inside next ihinside ihnext =>
    obtain ⟨hforward, hascends, hin, hnext⟩ := inOrder_enclose h s
    have hlaid : ∀ r ∈ Rose.subrosesRow (tag.place.lay [] (inside.passages s)), r.InOrder := by
      refine Rose.forall_lay _ (ihinside hin) fun _ q qs hrun => ?_
      have hrow := hascends.ofRun hrun
      have hreach : ∀ r ∈ q :: qs, r.label.start ≤ r.label.reach := fun r hr =>
        (ihinside hin r (Rose.subset_subrosesRow _ (hrun.sublist.subset hr))).forward
      have hle := hrow.le_reachOf hreach (hreach q List.mem_cons_self)
      exact ⟨hrow, hle, fun _ => Nat.max_eq_left hle⟩
    rw [passages, Rose.subrosesRow, Rose.subroses]
    refine List.forall_mem_append.mpr ⟨List.forall_mem_cons.mpr ⟨⟨hascends.lay _, ?_, nofun⟩, hlaid⟩,
      ihnext hnext⟩
    exact (hascends.lay tag.place).le_reachOf
      (fun r hr => (hlaid r (Rose.subset_subrosesRow _ hr)).forward) hforward

theorem inOrder_document (h : Marked.InOrder o.events) : ∀ r ∈ (o.document s).subroses, r.InOrder := by
  refine List.forall_mem_cons.mpr ⟨⟨?_, Nat.zero_le _, nofun⟩, inOrder_passages h⟩
  exact List.pairwise_cons.mpr ⟨fun n _ => Nat.zero_le n, h.sorted.sublist (starts_passages s o)⟩

end Outline

end MarkupTree
