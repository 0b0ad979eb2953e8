-- The ways to escape a character in CommonMark: not at all, by a backslash, by a
-- percent sign in an address, and by a reference where it is a control character.
import MarkupTree.CommonMark.Escape

namespace MarkupTree

namespace CommonMark

open Layout

variable {mode : Mode} {last next : Option Char} {c : Char} {begin : Bool}

/-- A reference to a character by its number. -/
def numbered (c : Char) : Text := "&#".toList ++ Text.ofNat c.toNat ++ [';']

/-- How a character is written: as it is, as a percent sign with two digits, with a
backslash or as a reference. -/
theorem escapeChar_cases (mode : Mode) (last : Option Char) (c : Char) (next : Option Char)
    (begin : Bool) :
    needsEscape mode last c next begin = false ∧ escapeChar mode last c next begin = [c] ∨
      needsEscape mode last c next begin = true ∧
        (mode = .address ∧ Text.isAsciiBlank c = true ∧
            escapeChar mode last c next begin = Text.percent c.toNat ∨
          Text.isAsciiPunctuation c = true ∧ escapeChar mode last c next begin = ['\\', c] ∨
          Text.isAsciiPunctuation c = false ∧ escapeChar mode last c next begin = numbered c) := by
  unfold escapeChar
  rcases needsEscape mode last c next begin with _ | _
  · exact Or.inl ⟨rfl, rfl⟩
  · refine Or.inr ⟨rfl, ?_⟩
    rw [Bool.not_true, if_neg Bool.false_ne_true]
    by_cases haddress : mode = .address ∧ Text.isAsciiBlank c = true
    · rw [if_pos haddress]
      exact Or.inl ⟨haddress.1, haddress.2, rfl⟩
    · rw [if_neg haddress]
      rcases hpunct : Text.isAsciiPunctuation c with _ | _
      · exact Or.inr (Or.inr ⟨rfl, rfl⟩)
      · exact Or.inr (Or.inl ⟨rfl, rfl⟩)

/-! ## Text of a paragraph -/

/-- What is not escaped is none of the marks, and no ampersand in front of a name. -/
theorem of_marksText_eq_false (h : marksText last c next begin = false) :
    c ∉ inlineMarks ∧ (c = '&' → (next.any fun n => n.isAlpha || n == '#') = false) := by
  unfold marksText at h
  simp only [Bool.or_eq_false_iff] at h
  obtain ⟨⟨⟨⟨⟨hinline, -⟩, -⟩, hampersand⟩, -⟩, -⟩ := h
  refine ⟨fun hmem => ?_, ?_⟩
  · cases (List.contains_iff_mem.mpr hmem).symm.trans hinline
  · rintro rfl
    exact hampersand

/-- What is not escaped where the content of a line begins opens no block. -/
theorem of_marksText_begin (h : marksText last c next true = false) :
    (c = '-' ∨ c = '+' ∨ c = '=' → last.any Char.isDigit = true) ∧
      (c = '.' ∨ c = ')' → last.any Char.isDigit = true → next.all Text.isAsciiBlank = false) := by
  unfold marksText at h
  simp only [Bool.or_eq_false_iff] at h
  obtain ⟨⟨-, hsigns⟩, hdelimiters⟩ := h
  constructor
  · rintro (rfl | rfl | rfl) <;> simpa using hsigns
  · rintro (rfl | rfl) hlast <;> simpa [hlast] using hdelimiters

/-- In the text of a paragraph, what is escaped is punctuation or a control
character. -/
theorem control_of_marksText (h : marksText last c next begin = true)
    (hc : Text.isAsciiPunctuation c = false) : c.toNat < 0x20 := by
  have hne : ∀ d : Char, Text.isAsciiPunctuation d = true → c ≠ d := by
    rintro d hd rfl
    cases hd.symm.trans hc
  have hmarks : c ∉ inlineMarks := by
    have hpunct : ∀ d ∈ inlineMarks, Text.isAsciiPunctuation d = true := List.all_eq_true.mp rfl
    exact fun hmem => hne c (hpunct c hmem) rfl
  have hbang := hne '!' rfl
  have hamp := hne '&' rfl
  have hminus := hne '-' rfl
  have hplus := hne '+' rfl
  have hequal := hne '=' rfl
  have hdot := hne '.' rfl
  have hparen := hne ')' rfl
  simpa [marksText, hmarks, hbang, hamp, hminus, hplus, hequal, hdot, hparen] using h

/-- The text of a paragraph has a character as it is, with a backslash or, if it is a
control character, as a reference. -/
theorem escapeChar_normal (last : Option Char) (c : Char) (next : Option Char) (begin : Bool) :
    marksText last c next begin = false ∧ escapeChar .normal last c next begin = [c] ∨
      (marksText last c next begin = true ∧ Text.isAsciiPunctuation c = true) ∧
        escapeChar .normal last c next begin = ['\\', c] ∨
      (marksText last c next begin = true ∧ c.toNat < 0x20) ∧
        escapeChar .normal last c next begin = numbered c := by
  rcases escapeChar_cases .normal last c next begin with h | ⟨hneeds, h | h | h⟩
  · exact Or.inl h
  · cases h.1
  · exact Or.inr (Or.inl ⟨⟨hneeds, h.1⟩, h.2⟩)
  · exact Or.inr (Or.inr ⟨⟨hneeds, control_of_marksText hneeds h.1⟩, h.2⟩)

/-! ## Letters and digits -/

theorem toNat_of_alphanum (h : c.isAlphanum = true) :
    0x30 ≤ c.toNat ∧ c.toNat ≤ 0x39 ∨ 0x41 ≤ c.toNat ∧ c.toNat ≤ 0x5A ∨
      0x61 ≤ c.toNat ∧ c.toNat ≤ 0x7A := by
  change ((decide (c.val ≥ 65 ∧ c.val ≤ 90) || (decide (c.val ≥ 97) && decide (c.val ≤ 122))) ||
    (decide (c.val ≥ 48) && decide (c.val ≤ 57))) = true at h
  simp only [Bool.or_eq_true, Bool.and_eq_true, decide_eq_true_eq, UInt32.le_iff_toNat_le, ge_iff_le] at h
  change ((0x41 ≤ c.toNat ∧ c.toNat ≤ 0x5A) ∨ (0x61 ≤ c.toNat ∧ c.toNat ≤ 0x7A)) ∨
    (0x30 ≤ c.toNat ∧ c.toNat ≤ 0x39) at h
  omega

theorem punctuation_of_alphanum (h : c.isAlphanum = true) : Text.isAsciiPunctuation c = false := by
  have hrange := toNat_of_alphanum h
  simp only [Text.isAsciiPunctuation, Bool.or_eq_false_iff, Bool.and_eq_false_iff,
    decide_eq_false_iff_not]
  omega

theorem marksText_of_alphanum (h : c.isAlphanum = true) : marksText last c next begin = false := by
  rcases hmarks : marksText last c next begin with _ | _
  · rfl
  · have hcontrol := control_of_marksText hmarks (punctuation_of_alphanum h)
    have hrange := toNat_of_alphanum h
    omega

theorem marksText_of_digit (h : c.isDigit = true) : marksText last c next begin = false :=
  marksText_of_alphanum (by simp [Char.isAlphanum, h])

/-- Letters, digits and the semicolon are written as they are, and no other character
is written so that it begins like them. -/
theorem escapeChar_nameChar (last : Option Char) (c : Char) (next : Option Char) (begin : Bool) :
    escapeChar .normal last c next begin = [c] ∨
      (c.isAlphanum = false ∧ c ≠ ';') ∧
        ∃ d ds, escapeChar .normal last c next begin = d :: ds ∧ d.isAlphanum = false ∧ d ≠ ';' := by
  have hother : marksText last c next begin = true → c.isAlphanum = false ∧ c ≠ ';' := by
    intro hmarks
    constructor
    · refine Bool.eq_false_iff.mpr fun hc => ?_
      cases hmarks.symm.trans (marksText_of_alphanum hc)
    · rintro rfl
      simp [marksText, inlineMarks] at hmarks
  rcases escapeChar_normal last c next begin with ⟨-, h⟩ | ⟨⟨hmarks, -⟩, h⟩ | ⟨⟨hmarks, -⟩, h⟩
  · exact Or.inl h
  · exact Or.inr ⟨hother hmarks, '\\', [c], h, by decide, by decide⟩
  · exact Or.inr ⟨hother hmarks, '&', _, h, by decide, by decide⟩

/-! ## Line breaks in escapes -/

theorem newline_notMem_numbered (c : Char) : '\n' ∉ numbered c := by
  have hdigits : '\n' ∉ Text.ofNat c.toNat := fun hmem =>
    absurd (Nat.isDigit_of_mem_toDigits (by decide) (by decide) hmem) (by decide)
  simp [numbered, hdigits]

theorem newline_notMem_normal (last : Option Char) (c : Char) (next : Option Char) (begin : Bool) :
    '\n' ∉ escapeChar .normal last c next begin := by
  rcases escapeChar_normal last c next begin with ⟨hneeds, h⟩ | ⟨⟨-, hpunct⟩, h⟩ | ⟨-, h⟩
  · rw [h]
    intro hmem
    rw [← List.mem_singleton.mp hmem] at hneeds
    cases (show marksText last '\n' next begin = true by rfl).symm.trans hneeds
  · rw [h]
    intro hmem
    have hc : '\n' = c := by simpa using hmem
    rw [← hc] at hpunct
    cases hpunct
  · rw [h]
    exact newline_notMem_numbered c

theorem newline_notMem_address (last : Option Char) (c : Char) (next : Option Char) (begin : Bool) :
    '\n' ∉ escapeChar .address last c next begin := by
  rcases escapeChar_cases .address last c next begin with ⟨hneeds, h⟩ | ⟨-, ⟨-, hblank, h⟩ | ⟨hpunct, h⟩ | ⟨-, h⟩⟩
  · rw [h]
    intro hmem
    rw [← List.mem_singleton.mp hmem] at hneeds
    cases hneeds
  · rw [h]
    have hc : (((c = ' ' ∨ c = '\t') ∨ c = '\n') ∨ c = '\x0c') ∨ c = '\r' := by
      simpa [Text.isAsciiBlank] using hblank
    rcases hc with (((rfl | rfl) | rfl) | rfl) | rfl <;> decide
  · rw [h]
    intro hmem
    have hc : '\n' = c := by simpa using hmem
    rw [← hc] at hpunct
    cases hpunct
  · rw [h]
    exact newline_notMem_numbered c

/-- A title has a character as it is or with a backslash. -/
theorem escapeChar_title (last : Option Char) (c : Char) (next : Option Char) (begin : Bool) :
    escapeChar .title last c next begin =
      if ['\x60', '<', '>', '\x22', '\\'].contains c then ['\\', c] else [c] := by
  have hpunct : ∀ d ∈ ['\x60', '<', '>', '\x22', '\\'], Text.isAsciiPunctuation d = true :=
    List.all_eq_true.mp rfl
  unfold escapeChar needsEscape
  dsimp only
  rcases hneeds : ['\x60', '<', '>', '\x22', '\\'].contains c with _ | _
  · rfl
  · rw [hpunct c (List.contains_iff_mem.mp hneeds)]
    rfl

end CommonMark

end MarkupTree
