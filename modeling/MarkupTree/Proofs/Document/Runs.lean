-- Runs of edits that may begin with the nodes of any events, nested or not. So
-- nothing is said of what stands in what, but of what the nodes carry: the
-- levels, delimiters and bullets at the beginning are in range.
import MarkupTree.Proofs.Document.Contents

namespace MarkupTree

/-! ## Delimiters -/

/-- A list has a delimiter if it is ordered, and only then. -/
def Content.IsDelimited (c : Content) : Prop :=
  ∀ style, c = .list style → (style.delimiter.isSome = true ↔ style.kind = .ordered)

theorem delimiter_listStyle (s : Source) (start : Option Nat) (offset : Nat) :
    (listStyle s start offset).delimiter.isSome = true ↔
      (listStyle s start offset).kind = .ordered := by
  unfold listStyle
  cases start with
  | some number => simp
  | none =>
    dsimp only
    split <;> simp

theorem ListStyle.delimiter_ofKind (style : ListStyle) (kind : ListKind) :
    (style.ofKind kind).delimiter.isSome = true ↔ (style.ofKind kind).kind = .ordered := by
  cases kind <;> simp [ofKind]

theorem Content.lasting_isDelimited : Lasting Content.IsDelimited where
  made k style h := by
    cases k <;> cases h
    simp
  listed s start offset style h := by
    cases h
    exact delimiter_listStyle s start offset
  changed {c c'} change hc hok style h := by
    subst h
    have hkind := kind_apply hok
    cases c with
    | list old =>
      cases change with
      | listType kind =>
        cases hok
        exact old.delimiter_ofKind kind
      | listStart | listTight =>
        cases hok
        exact hc old rfl
      | listDelim =>
        simp only [apply] at hok
        split at hok
        · cases hok
        · rename_i hnot
          cases hok
          cases hold : old.kind
          · exact absurd hold hnot
          · simp
      | literal | headingLevel | fenceInfo | url | title | onEnter | onExit => cases hok
    | document | blockQuote | item | codeBlock | htmlBlock | customBlock | paragraph | heading
    | thematicBreak | text | softBreak | lineBreak | code | htmlInline | customInline | emphasis
    | strong | link | image => cases hkind

namespace Document

/-! ## Runs -/

/-- Where a run begins. The events come in any order, but the levels that they
name are in range. -/
inductive Beginning
  | new
  | events (source : Source) (marks : List Marked)
      (levelled : ∀ m ∈ marks, m.event.isLevelled = true)

def Beginning.document : Beginning → Document
  | .new => Document.new
  | .events source marks _ => ofEvents source marks

structure Run where
  beginning : Beginning
  edits : List Edit

theorem grounded_beginning (b : Beginning) : Grounded b.document := by
  cases b with
  | new => exact sound_new.grounded
  | events source marks hm =>
    obtain ⟨t, ht, hid⟩ := trees_ofEvents source marks
    refine ⟨List.Perm.of_eq (ids_ofEvents source marks), t.node, ?_, hid⟩
    rw [Beginning.document, ht]
    rfl

theorem holds_beginning {P : Content → Prop} (hP : Lasting P) (b : Beginning) :
    b.document.trees.Holds P := by
  cases b with
  | new => exact holds_origin hP .new
  | events source marks hm => exact holds_ofEvents hP source hm

end Document

end MarkupTree
