-- Wrapping a line of CommonMark only turns spaces into line breaks: what its width does
-- to a page can be undone without knowing what was written.
import MarkupTree.Proofs.CommonMark.Escapes
import MarkupTree.Proofs.Layout.Unwrapping

namespace MarkupTree

namespace CommonMark

open Layout

theorem unbroken_escapeChar : Unbroken escapeChar := by
  intro mode last c next begins hmode hc
  cases mode with
  | literal => exact absurd rfl hmode
  | normal => exact newline_notMem_normal last c next begins
  | title =>
    rw [escapeChar_title]
    split <;> simp [Ne.symm hc]
  | address => exact newline_notMem_address last c next begins

/-- The escape looks back only for the digits with which the content of a line begins. -/
theorem steady_escapeChar : Steady escapeChar where
  last mode last last' c next := by
    have hneeds : needsEscape mode last c next false = needsEscape mode last' c next false := by
      cases mode with
      | normal => simp [needsEscape, marksText]
      | _ => rfl
    simp only [escapeChar, hneeds]
  unbroken := unbroken_escapeChar

/-- Wrapping only turns spaces into line breaks: for every margin of one line, every row
of chunks of one line and every width, the page with a space for each line feed and the
margin after it is the page that is not wrapped. -/
theorem wrapping_breaks_at_spaces {margin : Text} (hmargin : '\n' ∉ margin) (width : Nat)
    {is : List Instruction} (his : ∀ i ∈ is, i.writesLine) :
    unfolded margin (Page.run ⟨width, escapeChar⟩ (.indent margin :: is) {}).text =
      (Page.run ⟨0, escapeChar⟩ (.indent margin :: is) {}).text :=
  unfolded_run steady_escapeChar hmargin width his

/-- Two texts with spaces side by side and a marker between them, and an address. -/
theorem wrapping_breaks_at_spaces_dash :
    let margin := "> ".toList
    let is : List Instruction :=
      [.put "1. aaa ".toList true .normal, .put " - b".toList true .normal,
        .put " (c)".toList true .address]
    ('\n' ∉ margin ∧ ∀ i ∈ is, i.writesLine) ∧
      (Page.run ⟨4, escapeChar⟩ (.indent margin :: is) {}).text =
        "> 1\\.\n> aaa\n>  -\n> b\n> \\(c\\)".toList ∧
      unfolded margin (Page.run ⟨4, escapeChar⟩ (.indent margin :: is) {}).text =
        (Page.run ⟨0, escapeChar⟩ (.indent margin :: is) {}).text := by
  intro margin is
  have hmargin : '\n' ∉ margin := by decide
  have his : ∀ i ∈ is, i.writesLine := by
    simp [is, Instruction.writesLine]
  refine ⟨⟨hmargin, his⟩, ?_, ?_⟩
  · decide +kernel
  · exact wrapping_breaks_at_spaces hmargin 4 his

end CommonMark

end MarkupTree
