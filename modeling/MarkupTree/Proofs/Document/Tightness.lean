-- Tight and loose lists. A list from nested events is loose if a paragraph
-- stands in one of its items by itself, or if a blank line parts two of its
-- items or two blocks of one item, and for no other reason.
import MarkupTree.Proofs.Document.Told
import MarkupTree.Proofs.Event.Ranges
import MarkupTree.Proofs.Source.BlankLines

namespace MarkupTree

/-! ## The rule -/

/-- Where the passage ends: without the blanks at its end, or with its last
inline if it is a paragraph that no event started. -/
def Passage.edge (s : Source) (p : Passage) : Nat :=
  if p.implied then p.reach else s.trimmedEnd p.start p.stop

/-- A blank line stands in the source between the passages. -/
def Source.Parts (s : Source) (p q : Passage) : Prop :=
  ∃ gap, Text.slice? s.text (p.edge s) q.start = some gap ∧ SpansBlankLine gap

namespace Rose

/-- A blank line parts two neighbours of the row. -/
def Parted (s : Source) (row : List (Rose Passage)) : Prop :=
  ∃ q r, [q, r] <:+: row ∧ s.Parts q.label r.label

/-- What makes a list with the items loose. -/
def Loose (s : Source) (items : List (Rose Passage)) : Prop :=
  (∃ item ∈ items, ∃ r ∈ item.children, r.label.isParagraph = true) ∨
    Parted s items ∨ ∃ item ∈ items, Parted s item.children

variable {s : Source} {row : List (Rose Passage)}

theorem blankBetween_iff {r : Rose Passage} (hr : r.InOrder) (q : Passage) :
    s.blankBetween (r.label.bottom s) q.start = true ↔ s.Parts r.label q := by
  have hedge : r.label.bottom s = r.label.edge s := by
    unfold Passage.bottom Passage.edge
    split
    · rename_i himplied
      exact hr.ends himplied
    · rfl
  unfold Source.blankBetween Source.Parts
  rw [hedge]
  cases Text.slice? s.text (r.label.edge s) q.start <;> simp [Source.hasBlankLine_iff]

theorem hasBlank_iff (hrow : ∀ r ∈ row, r.InOrder) : hasBlank s row = true ↔ Parted s row := by
  unfold Parted
  induction row with
  | nil => simp [hasBlank]
  | cons q row ih =>
    obtain ⟨hq, hrow⟩ := List.forall_mem_cons.mp hrow
    cases row with
    | nil => simp [hasBlank, List.infix_cons_iff]
    | cons r rs =>
      rw [hasBlank, Bool.or_eq_true, ih hrow, blankBetween_iff hq]
      constructor
      · rintro (h | ⟨a, b, hab, h⟩)
        · exact ⟨q, r, ⟨[], rs, rfl⟩, h⟩
        · exact ⟨a, b, hab.trans (List.suffix_cons q _).isInfix, h⟩
      · rintro ⟨a, b, hab, h⟩
        rcases List.infix_cons_iff.mp hab with hab | hab
        · simp only [List.cons_prefix_cons, List.nil_prefix, and_true] at hab
          obtain ⟨rfl, rfl⟩ := hab
          exact Or.inl h
        · exact Or.inr ⟨a, b, hab, h⟩

/-- The lists that the events loosen are those of the rule. -/
theorem isLooseList_iff (hitems : ∀ r ∈ subrosesRow row, r.InOrder) :
    isLooseList s row = true ↔ Loose s row := by
  have hchildren : ∀ item ∈ row, ∀ r ∈ item.children, r.InOrder := by
    intro item hitem r hr
    refine hitems r (mem_subrosesRow.mpr ⟨item, hitem, ?_⟩)
    cases item
    exact List.mem_cons_of_mem _ (subset_subrosesRow _ hr)
  rw [isLooseList, Bool.or_eq_true, hasBlank_iff fun r hr => hitems r (subset_subrosesRow _ hr),
    List.any_eq_true, Loose]
  constructor
  · rintro (h | ⟨item, hitem, h⟩)
    · exact Or.inr (Or.inl h)
    · rcases Bool.or_eq_true _ _ ▸ h with h | h
      · exact Or.inr (Or.inr ⟨item, hitem, (hasBlank_iff (hchildren item hitem)).mp h⟩)
      · exact Or.inl ⟨item, hitem, List.any_eq_true.mp h⟩
  · rintro (⟨item, hitem, h⟩ | h | ⟨item, hitem, h⟩)
    · exact Or.inr ⟨item, hitem, by rw [isLooseItem, List.any_eq_true.mpr h, Bool.or_true]⟩
    · exact Or.inl h
    · refine Or.inr ⟨item, hitem, ?_⟩
      rw [isLooseItem, (hasBlank_iff (hchildren item hitem)).mpr h, Bool.true_or]

end Rose

/-! ## Lists -/

namespace Outline

variable {s : Source} {o : Outline}

/-- A list is loose only by what stands in it. -/
theorem tight_enclose {tag : Tag} {start : Nat} {t : Text} {row : List (Rose Passage)}
    {style : ListStyle}
    (h : ((tag.content s start).taking t).loosenIf (tag.place.isLoose s row) = .list style) :
    style.tight = !Rose.isLooseList s row := by
  have hkind := congrArg Content.kind h
  rw [Content.kind_loosenIf, Content.kind_taking, tag.kind_content] at hkind
  cases tag with
  | list number =>
    have htight := tight_listStyle s number start
    change (Content.list (listStyle s number start)).loosenIf (Rose.isLooseList s row) = _ at h
    cases hloose : Rose.isLooseList s row <;>
      simp only [hloose, Content.loosenIf, Content.loosened, if_true, Bool.false_eq_true, if_false,
        Content.list.injEq] at h <;> subst h
    · exact htight
    · rfl
  | paragraph | heading | blockQuote | codeBlock | htmlBlock | item | emphasis | strong | link | image =>
    cases hkind
  | extension e => cases e <;> cases hkind

theorem tight_passages (o : Outline) :
    ∀ r ∈ Rose.subrosesRow (o.passages s), ∀ style, r.label.content = .list style →
      style.tight = !Rose.isLooseList s r.children := by
  induction o with
  | nil => simp [passages, Rose.subrosesRow]
  | leaf start stop event next ih =>
    rw [passages, Rose.subrosesRow_append]
    refine List.forall_mem_append.mpr ⟨fun r hr style hstyle => ?_, ih⟩
    obtain ⟨c, hc, rfl⟩ := mem_subrosesRow_plan hr
    cases event <;> simp_all [Event.plan, Rose.label]
  | enclose tag start stop finishStart finishStop inside next ihinside ihnext =>
    rw [passages, Rose.subrosesRow, Rose.subroses]
    refine List.forall_mem_append.mpr ⟨List.forall_mem_cons.mpr ⟨fun style hstyle => ?_, ?_⟩, ihnext⟩
    · exact tight_enclose hstyle
    · exact Rose.forall_lay _ ihinside fun _ q qs _ style hstyle => by cases hstyle

theorem tight_document (h : Marked.InOrder o.events) :
    ∀ r ∈ (o.document s).subroses, ∀ style, r.label.content = .list style →
      (style.tight = false ↔ Rose.Loose s r.children) := by
  intro r hr style hstyle
  rcases List.mem_cons.mp hr with rfl | hrow
  · cases hstyle
  · have hchildren : ∀ c ∈ Rose.subrosesRow r.children, c.InOrder := fun c hc =>
      inOrder_passages h c (Rose.subrosesRow_children hrow hc)
    rw [tight_passages o r hrow style hstyle, Bool.not_eq_false', Rose.isLooseList_iff hchildren]

end Outline

namespace Document

/-- In a document from nested events in source order, each list is loose by the
rule and only by the rule. -/
theorem lists_loosen_by_rule {s : Source} {o : Outline} (ho : o.fits .blocks = true)
    (h : Marked.InOrder o.events) :
    List.Forall₂
      (fun t r => t.Tells s r ∧ ∀ style, t.node.content = .list style →
        (style.tight = false ↔ Rose.Loose s r.children))
      (ofEvents s o.events).trees.subtrees (o.document s).subroses := by
  refine (tells_ofEvents_with ho (Outline.tight_document h)).imp fun t r htold => ?_
  exact ⟨htold.1, fun style hstyle => htold.2 style (htold.1.content.symm.trans hstyle)⟩

/-- A blank line between two items makes the list around them loose. -/
theorem lists_loosen_by_rule_two_items :
    let s := Source.ofText "- a\n\n- b\n".toList
    let item := fun start stop c next => Outline.enclose .item start stop start stop
      (.leaf (start + 2) (start + 3) (.text [c]) .nil) next
    let o := Outline.enclose (.list none) 0 9 0 9 (item 0 5 'a' (item 5 9 'b' .nil)) .nil
    o.fits .blocks = true ∧ Marked.InOrder o.events ∧
      List.Forall₂
        (fun t r => t.Tells s r ∧ ∀ style, t.node.content = .list style →
          (style.tight = false ↔ Rose.Loose s r.children))
        (ofEvents s o.events).trees.subtrees (o.document s).subroses ∧
      ∃ t ∈ (ofEvents s o.events).trees.subtrees, t.node.content = .list { tight := false } := by
  intro s item o
  have ho : o.fits .blocks = true := by decide
  have h : Marked.InOrder o.events := ⟨by decide, by decide⟩
  exact ⟨ho, h, lists_loosen_by_rule ho h, by decide⟩

end Document

end MarkupTree
