-- What nested events say of a source, node by node: the bytes that each node
-- stands for, the paragraphs that no event started, and the lists that are
-- loose. It is read off the nesting by recursion, without a stack.
import MarkupTree.Proofs.Event.Plan

namespace MarkupTree

/-! ## Passages -/

/-- A node as the events tell it: its content, and the bytes from `start` to
`stop` that it stands for. -/
structure Passage where
  content : Content
  start : Nat
  stop : Nat
  /-- The end of the last inline in it, be it one that starts there or one
  that stands alone. -/
  reach : Nat
  /-- Whether it is a paragraph that no event started. -/
  implied : Bool
  deriving DecidableEq, Repr

namespace Passage

/-- The paragraph around inlines that no event started. -/
def ofInlines (start reach : Nat) : Passage :=
  { content := .paragraph, start, stop := max reach start, reach, implied := true }

def isInline (p : Passage) : Bool := p.content.kind.isInline

/-- Whether it is a paragraph that an event started. -/
def isParagraph (p : Passage) : Bool := p.content.kind = .paragraph && !p.implied

/-- Where the passage ends as blank lines are looked for: without the blanks
at its end. -/
def bottom (s : Source) (p : Passage) : Nat :=
  if p.implied then p.stop else s.trimmedEnd p.start p.stop

end Passage

/-- A list is tight as long as nothing loosens it. -/
theorem tight_listStyle (s : Source) (start : Option Nat) (offset : Nat) :
    (listStyle s start offset).tight = true := by
  unfold listStyle
  cases start
  · dsimp only
    split <;> rfl
  · rfl

namespace Content

/-- A list that is no longer tight. Other contents stay as they are. -/
def loosened : Content → Content
  | .list style => .list { style with tight := false }
  | c => c

def loosenIf (loose : Bool) (c : Content) : Content := if loose then c.loosened else c

theorem loosenIf_false (c : Content) : c.loosenIf false = c := rfl

theorem loosenIf_or (a b : Bool) (c : Content) :
    c.loosenIf (a || b) = (c.loosenIf a).loosenIf b := by
  cases a <;> cases b <;> cases c <;> rfl

theorem kind_loosenIf (loose : Bool) (c : Content) : (c.loosenIf loose).kind = c.kind := by
  cases loose <;> cases c <;> rfl

/-- Only lists can be loose. -/
theorem loosenIf_of_kind {c : Content} (h : c.kind ≠ .list) (loose : Bool) : c.loosenIf loose = c := by
  cases loose <;> cases c <;> first | rfl | exact absurd rfl h

end Content

/-! ## Rows -/

namespace Rose

/-- The reach of the last inline of the row, or `reach` if there is none. -/
def reachOf (reach : Nat) (row : List (Rose Passage)) : Nat :=
  (row.getLast?.map (·.label.reach)).getD reach

/-- The paragraph around a run of inlines, if there are any. -/
def paragraphOf : List (Rose Passage) → List (Rose Passage)
  | [] => []
  | r :: rs => [.node (.ofInlines r.label.start (reachOf r.label.reach (r :: rs))) (r :: rs)]

/-- What an item holds after the inlines `run` when the row follows them: each
longest run of inlines is one paragraph. -/
def gather (run : List (Rose Passage)) : List (Rose Passage) → List (Rose Passage)
  | [] => paragraphOf run
  | r :: rs =>
    if r.label.isInline then gather (run ++ [r]) rs else paragraphOf run ++ r :: gather [] rs

/-! ## Loose lists -/

/-- Whether a blank line stands between the row and what starts after it. -/
def blankAfter (s : Source) (row : List (Rose Passage)) (start : Nat) : Bool :=
  row.getLast?.any fun r => s.blankBetween (r.label.bottom s) start

/-- Whether a blank line stands between two neighbours. -/
def hasBlank (s : Source) : List (Rose Passage) → Bool
  | q :: r :: rs => s.blankBetween (q.label.bottom s) r.label.start || hasBlank s (r :: rs)
  | _ => false

/-- Whether what stands in an item makes the list loose. -/
def isLooseItem (s : Source) (row : List (Rose Passage)) : Bool :=
  hasBlank s row || row.any (·.label.isParagraph)

/-- Whether a list with the items is loose. -/
def isLooseList (s : Source) (items : List (Rose Passage)) : Bool :=
  hasBlank s items || items.any fun r => isLooseItem s r.children

end Rose

namespace Place

/-- What a construct holds after the inlines `run` when the row stands in it. -/
def lay (run row : List (Rose Passage)) : Place → List (Rose Passage)
  | .mixed => Rose.gather run row
  | .codeText | .htmlText => []
  | _ => row

/-- Whether what stands at the place makes a list loose: the list itself
among its items, the list around it in an item. -/
def isLoose (s : Source) (row : List (Rose Passage)) : Place → Bool
  | .items => Rose.isLooseList s row
  | .mixed => Rose.isLooseItem s row
  | _ => false

end Place

/-! ## What an outline tells -/

namespace Outline

/-- The row of nodes that the outline tells of. -/
def passages (s : Source) : Outline → List (Rose Passage)
  | .nil => []
  | .leaf start stop event next =>
    event.plan.map (fun r => .node ⟨r.label, start, stop, stop, false⟩ []) ++ next.passages s
  | .enclose tag start stop _ finishStop inside next =>
    let row := tag.place.lay [] (inside.passages s)
    let content := ((tag.content s start).taking inside.literal).loosenIf (tag.place.isLoose s row)
    .node ⟨content, start, finishStop, Rose.reachOf stop row, false⟩ row :: next.passages s

/-- The whole document that the outline tells of. -/
def document (s : Source) (o : Outline) : Rose Passage :=
  .node ⟨.document, 0, s.bytes.length, s.bytes.length, false⟩ (o.passages s)

/-- The text of a tight item is in a paragraph that ends with it. -/
example : (Outline.enclose .item 0 4 0 4 (.leaf 2 3 (.text ['a']) .nil) .nil).passages
      (.ofText "- a\n".toList) =
    [.node ⟨.item, 0, 4, 3, false⟩
      [.node ⟨.paragraph, 2, 3, 3, true⟩ [.node ⟨.text ['a'], 2, 3, 3, false⟩ []]]] := rfl

end Outline

/-! ## Runs of inlines -/

namespace Rose

variable {row run : List (Rose Passage)} {r : Rose Passage}

/-- Inlines of the row, up to the next block of the row or to its end. -/
structure IsRun (row run : List (Rose Passage)) : Prop where
  ne_nil : run ≠ []
  inlines : ∀ r ∈ run, r.label.isInline = true
  within : ∃ before after, row = before ++ run ++ after ∧
    ∀ q ∈ after.head?, q.label.isInline = false

theorem IsRun.sublist (h : IsRun row run) : run.Sublist row := by
  obtain ⟨before, after, rfl, -⟩ := h.within
  exact (List.sublist_append_right before run).trans (List.sublist_append_left _ after)

/-- What an item holds is a block of its row, or the paragraph around a run. -/
theorem mem_gather (hrun : ∀ q ∈ run, q.label.isInline = true) (h : r ∈ gather run row) :
    (r ∈ row ∧ r.label.isInline = false) ∨ ∃ qs, IsRun (run ++ row) qs ∧ r ∈ paragraphOf qs := by
  induction row generalizing run with
  | nil =>
    cases run with
    | nil => cases h
    | cons q qs => exact Or.inr ⟨q :: qs, ⟨by simp, hrun, [], [], by simp, by simp⟩, h⟩
  | cons q row ih =>
    unfold gather at h
    split at h
    · rename_i hq
      rcases ih (List.forall_mem_append.mpr ⟨hrun, by simpa using hq⟩) h with ⟨h, hr⟩ | ⟨qs, hqs, h⟩
      · exact Or.inl ⟨List.mem_cons_of_mem _ h, hr⟩
      · exact Or.inr ⟨qs, by simpa using hqs, h⟩
    · rename_i hq
      rcases List.mem_append.mp h with h | h
      · cases run with
        | nil => cases h
        | cons p ps =>
          exact Or.inr ⟨p :: ps, ⟨by simp, hrun, [], q :: row, by simp, by simpa using hq⟩, h⟩
      · rcases List.mem_cons.mp h with rfl | h
        · exact Or.inl ⟨List.mem_cons_self, Bool.eq_false_iff.mpr hq⟩
        · rcases ih (by simp) h with ⟨h, hr⟩ | ⟨qs, ⟨hne, hin, before, after, heq, hafter⟩, h⟩
          · exact Or.inl ⟨List.mem_cons_of_mem _ h, hr⟩
          · refine Or.inr ⟨qs, ⟨hne, hin, run ++ q :: before, after, ?_, hafter⟩, h⟩
            simpa using heq

/-- What holds of the roses of a row, and of the paragraphs around its runs,
holds wherever the row is laid. -/
theorem forall_lay {motive : Rose Passage → Prop} (p : Place)
    (hrow : ∀ r ∈ subrosesRow row, motive r)
    (hrun : p = .mixed → ∀ q qs, IsRun row (q :: qs) →
      motive (.node (.ofInlines q.label.start (reachOf q.label.reach (q :: qs))) (q :: qs))) :
    ∀ r ∈ subrosesRow (p.lay [] row), motive r := by
  cases p with
  | mixed =>
    intro r hr
    obtain ⟨t, ht, hr⟩ := mem_subrosesRow.mp hr
    rcases mem_gather (by simp) ht with ⟨ht, -⟩ | ⟨qs, hqs, ht⟩
    · exact hrow r (mem_subrosesRow.mpr ⟨t, ht, hr⟩)
    · cases qs with
      | nil => cases ht
      | cons q qs =>
        rw [paragraphOf, List.mem_singleton] at ht
        rw [ht, subroses] at hr
        rcases List.mem_cons.mp hr with rfl | hr
        · exact hrun rfl q qs hqs
        · obtain ⟨u, hu, hr⟩ := mem_subrosesRow.mp hr
          exact hrow r (mem_subrosesRow.mpr ⟨u, hqs.sublist.subset hu, hr⟩)
  | codeText | htmlText => exact fun r hr => absurd hr (List.not_mem_nil)
  | blocks | items | inlines => exact hrow

end Rose

/-- A leaf holds nothing, and it is the only passage of its event. -/
theorem Outline.mem_subrosesRow_plan {event : Event} {start stop : Nat} {r : Rose Passage}
    (h : r ∈ Rose.subrosesRow
      (event.plan.map fun r => Rose.node ⟨r.label, start, stop, stop, false⟩ [])) :
    ∃ c, event.plan = [.node c []] ∧ r = .node ⟨c, start, stop, stop, false⟩ [] := by
  cases event <;> simp_all [Event.plan, Rose.subrosesRow, Rose.subroses, Rose.label]

/-! ## Rows that grow -/

namespace Rose

variable {s : Source} {row : List (Rose Passage)} {r : Rose Passage}

theorem hasBlank_append_singleton (s : Source) (row : List (Rose Passage)) (r : Rose Passage) :
    hasBlank s (row ++ [r]) = (hasBlank s row || blankAfter s row r.label.start) := by
  induction row with
  | nil => rfl
  | cons q row ih =>
    cases row with
    | nil => simp [hasBlank, blankAfter]
    | cons p row =>
      rw [List.cons_append, List.cons_append, hasBlank, ← List.cons_append, ih, hasBlank,
        Bool.or_assoc]
      simp [blankAfter]

theorem reachOf_append_singleton (reach : Nat) (row : List (Rose Passage)) (r : Rose Passage) :
    reachOf reach (row ++ [r]) = r.label.reach := by
  simp [reachOf]

end Rose

namespace Place

/-- Whether a node makes the list at its place loose by what it is. -/
def loosenedBy (s : Source) (r : Rose Passage) : Place → Bool
  | .items => Rose.isLooseItem s r.children
  | .mixed => r.label.isParagraph
  | _ => false

/-- Whether a node that starts after the row makes the list at its place
loose by the blank line before it. -/
def blankBefore (s : Source) (row : List (Rose Passage)) (start : Nat) (p : Place) : Bool :=
  (p = .items || p = .mixed) && Rose.blankAfter s row start

theorem isLoose_append_singleton (s : Source) (p : Place) (row : List (Rose Passage))
    (r : Rose Passage) :
    p.isLoose s (row ++ [r]) =
      (p.isLoose s row || p.blankBefore s row r.label.start || p.loosenedBy s r) := by
  cases p with
  | items =>
    simp only [isLoose, Rose.isLooseList, Rose.hasBlank_append_singleton, List.any_append,
      List.any_cons, List.any_nil, Bool.or_false, blankBefore, loosenedBy]
    cases Rose.hasBlank s row <;> cases Rose.blankAfter s row r.label.start <;> simp
  | mixed =>
    simp only [isLoose, Rose.isLooseItem, Rose.hasBlank_append_singleton, List.any_append,
      List.any_cons, List.any_nil, Bool.or_false, blankBefore, loosenedBy]
    cases Rose.hasBlank s row <;> cases Rose.blankAfter s row r.label.start <;> simp
  | blocks | inlines | codeText | htmlText => rfl

theorem isLoose_nil (s : Source) (p : Place) : p.isLoose s [] = false := by
  cases p <;> rfl

end Place

end MarkupTree
