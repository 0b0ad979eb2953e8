-- How a line of a paragraph may begin. A line of spaces would end the paragraph,
-- and a line that begins like an item or an underline would be read as a block of
-- its own. Both show in one scan over the line, and a break in front of a rest of
-- the paragraph is harmless if the scan over all of that rest shows neither.
import MarkupTree.Layout.Glyph
import MarkupTree.Proofs.CommonMark.Escapes

namespace MarkupTree

namespace CommonMark

open Layout

/-! ## Lines that break a paragraph -/

/-- The line begins, after any spaces, with a dash, a plus or an equals sign, or with
digits and a delimiter that a space or the end of the line follows. -/
def opensBlock (line : Text) : Bool :=
  match line.dropWhile (· == ' ') with
  | [] => false
  | c :: cs =>
    if c.isDigit then
      match cs.dropWhile Char.isDigit with
      | [] => false
      | d :: rest => (d == '.' || d == ')') && rest.head?.all (· == ' ')
    else c == '-' || c == '+' || c == '='

/-- The line holds only spaces or opens a block. -/
def isBroken (line : Text) : Bool := line.all (· == ' ') || opensBlock line

example : isBroken "  12. a".toList = true := rfl

example : isBroken "1.5 a".toList = false := rfl

/-! ## The scan over a line -/

/-- What a line shows so far. -/
inductive LineStart
  /-- Spaces, if anything. -/
  | blank
  | number
  /-- A number and a delimiter. -/
  | marker
  | block
  | text
  deriving DecidableEq, Repr

namespace LineStart

def next : LineStart → Char → LineStart
  | blank, c =>
    if c = ' ' then blank
    else if c.isDigit then number
    else if c = '-' ∨ c = '+' ∨ c = '=' then block
    else text
  | number, c => if c.isDigit then number else if c = '.' ∨ c = ')' then marker else text
  | marker, c => if c = ' ' then block else text
  | block, _ => block
  | text, _ => text

/-- The line opens a block if it ends so. -/
def opens : LineStart → Bool
  | marker | block => true
  | _ => false

/-- The line neither opens a block nor holds only spaces. -/
def holds : LineStart → Bool
  | number | text => true
  | _ => false

def scan (s : LineStart) (t : Text) : LineStart := t.foldl next s

variable {s : LineStart} {c : Char} {t u : Text}

theorem scan_append : s.scan (t ++ u) = (s.scan t).scan u := List.foldl_append

theorem scan_text : text.scan t = text := by
  induction t with
  | nil => rfl
  | cons c t ih => exact ih

theorem scan_block : block.scan t = block := by
  induction t with
  | nil => rfl
  | cons c t ih => exact ih

theorem scan_marker : (marker.scan t).opens = t.head?.all (· == ' ') := by
  cases t with
  | nil => rfl
  | cons c t =>
    show ((marker.next c).scan t).opens = (c == ' ')
    by_cases hc : c = ' '
    · rw [next, if_pos hc, scan_block, hc]
      rfl
    · rw [next, if_neg hc, scan_text, beq_eq_false_iff_ne.mpr hc]
      rfl

theorem scan_number : (number.scan t).opens =
    match t.dropWhile Char.isDigit with
    | [] => false
    | d :: rest => (d == '.' || d == ')') && rest.head?.all (· == ' ') := by
  induction t with
  | nil => rfl
  | cons c t ih =>
    show ((number.next c).scan t).opens = _
    by_cases hc : c.isDigit = true
    · rw [next, if_pos hc, ih, List.dropWhile_cons_of_pos hc]
    · rw [next, if_neg hc, List.dropWhile_cons_of_neg hc]
      dsimp only
      by_cases hdelimiter : c = '.' ∨ c = ')'
      · rw [if_pos hdelimiter, scan_marker]
        rcases hdelimiter with rfl | rfl <;> rfl
      · rw [if_neg hdelimiter, scan_text]
        rw [not_or] at hdelimiter
        rw [beq_eq_false_iff_ne.mpr hdelimiter.1, beq_eq_false_iff_ne.mpr hdelimiter.2]
        rfl

/-- The scan shows whether a line opens a block. -/
theorem opens_scan (line : Text) : (blank.scan line).opens = opensBlock line := by
  induction line with
  | nil => rfl
  | cons c line ih =>
    show ((blank.next c).scan line).opens = _
    by_cases hspace : c = ' '
    · rw [next, if_pos hspace, ih, opensBlock, opensBlock, hspace]
      rfl
    · rw [opensBlock, List.dropWhile_cons_of_neg (by simpa using hspace)]
      dsimp only
      rw [next, if_neg hspace]
      split
      · exact scan_number
      · by_cases hmark : c = '-' ∨ c = '+' ∨ c = '='
        · rw [if_pos hmark, scan_block]
          rcases hmark with rfl | rfl | rfl <;> rfl
        · rw [if_neg hmark, scan_text]
          simp only [not_or] at hmark
          rw [beq_eq_false_iff_ne.mpr hmark.1, beq_eq_false_iff_ne.mpr hmark.2.1,
            beq_eq_false_iff_ne.mpr hmark.2.2]
          rfl

/-- Only spaces leave a line blank. -/
theorem next_eq_blank_iff : s.next c = blank ↔ s = blank ∧ c = ' ' := by
  cases s with
  | blank =>
    unfold next
    dsimp only
    split
    · simp [*]
    · split
      · simp [*]
      · split <;> simp [*]
  | number =>
    unfold next
    dsimp only
    split
    · simp
    · split <;> simp
  | marker =>
    unfold next
    dsimp only
    split <;> simp
  | block | text => simp [next]

theorem scan_eq_blank_iff : s.scan t = blank ↔ s = blank ∧ t.all (· == ' ') = true := by
  induction t generalizing s with
  | nil => simp [scan]
  | cons c t ih =>
    show (s.next c).scan t = blank ↔ _
    rw [ih, next_eq_blank_iff]
    simp [and_assoc]

/-- The scan shows whether a line breaks its paragraph. -/
theorem holds_scan (line : Text) : (blank.scan line).holds = !isBroken line := by
  have hholds : ∀ s : LineStart, s.holds = !(decide (s = blank) || s.opens) := by
    intro s
    cases s <;> rfl
  rw [hholds, opens_scan, isBroken]
  have hblank : decide (blank.scan line = blank) = line.all (· == ' ') := by
    rw [Bool.eq_iff_iff, decide_eq_true_iff, scan_eq_blank_iff]
    exact and_iff_right rfl
  rw [hblank]

/-- A space after a line that holds makes it text. -/
theorem next_space_of_holds (h : s.holds = true) : s.next ' ' = text := by
  cases s with
  | number | text => rfl
  | blank | marker | block => cases h

theorem next_digit (hs : s = blank ∨ s = number) (hc : c.isDigit = true) : s.next c = number := by
  rcases hs with rfl | rfl
  · have hspace : c ≠ ' ' := by
      rintro rfl
      cases hc
    simp [next, hspace, hc]
  · simp [next, hc]

theorem scan_digits (hs : s = blank ∨ s = number) (ht : t.all Char.isDigit = true) (hne : t ≠ []) :
    s.scan t = number := by
  induction t generalizing s with
  | nil => exact absurd rfl hne
  | cons c t ih =>
    obtain ⟨hc, ht⟩ := Bool.and_eq_true_iff.mp ht
    show (s.next c).scan t = number
    rw [next_digit hs hc]
    cases t with
    | nil => rfl
    | cons d t => exact ih (Or.inr rfl) ht (List.cons_ne_nil d t)

/-- A space on a line that holds makes it text, whatever follows. -/
theorem scan_space (h : (s.scan t).holds = true) (u : Text) : s.scan (t ++ ' ' :: u) = text := by
  rw [scan_append]
  show ((s.scan t).next ' ').scan u = text
  rw [next_space_of_holds h, scan_text]

theorem isBroken_of_holds (h : (blank.scan t).holds = true) : isBroken t = false := by
  rw [holds_scan] at h
  simpa using h

theorem ne_nil_of_holds (h : (blank.scan t).holds = true) : t ≠ [] := by
  rintro rfl
  cases h

end LineStart

/-! ## Escapes on a line -/

section

variable {s : LineStart} {last next : Option Char} {c : Char} {begin : Bool}

/-- A backslash or a reference makes a line text. -/
theorem scan_of_marksText (hs : s ≠ .block) (h : marksText last c next begin = true) :
    s.scan (escapeChar .normal last c next begin) = .text := by
  have hneutral : s.next '\\' = .text ∧ s.next '&' = .text := by
    cases s with
    | block => exact absurd rfl hs
    | _ => exact ⟨rfl, rfl⟩
  rcases escapeChar_normal last c next begin with ⟨hmarks, -⟩ | ⟨-, hunit⟩ | ⟨-, hunit⟩
  · cases hmarks.symm.trans h
  · rw [hunit]
    show (s.next '\\').scan [c] = .text
    rw [hneutral.1, LineStart.scan_text]
  · rw [hunit]
    show (s.next '&').scan ('#' :: (Text.ofNat c.toNat ++ [';'])) = .text
    rw [hneutral.2, LineStart.scan_text]

theorem scan_of_not_marksText (h : marksText last c next begin = false) :
    s.scan (escapeChar .normal last c next begin) = s.next c := by
  rcases escapeChar_normal last c next begin with ⟨-, hunit⟩ | ⟨⟨hmarks, -⟩, -⟩ | ⟨⟨hmarks, -⟩, -⟩
  · rw [hunit]
    rfl
  · cases h.symm.trans hmarks
  · cases h.symm.trans hmarks

/-- Where the content of the line does not begin, what is escaped makes it text anyway. -/
theorem next_of_marksText (hs : s ≠ .block) (h : marksText last c next false = true) :
    s.next c = .text := by
  have hspace : c ≠ ' ' := by
    rintro rfl
    simp [marksText, inlineMarks] at h
  have hdigit : c.isDigit = false := by
    refine Bool.eq_false_iff.mpr fun hdigit => ?_
    cases h.symm.trans (marksText_of_digit hdigit)
  have hsigns : ¬(c = '-' ∨ c = '+' ∨ c = '=') := by
    rintro (rfl | rfl | rfl) <;> simp [marksText, inlineMarks] at h
  have hdelimiters : ¬(c = '.' ∨ c = ')') := by
    rintro (rfl | rfl) <;> simp [marksText, inlineMarks] at h
  cases s with
  | blank => simp only [LineStart.next, if_neg hspace, hdigit, Bool.false_eq_true, if_false, if_neg hsigns]
  | number => simp only [LineStart.next, hdigit, Bool.false_eq_true, if_false, if_neg hdelimiters]
  | marker => simp only [LineStart.next, if_neg hspace]
  | block => exact absurd rfl hs
  | text => rfl

/-- Where the content of the line does not begin, the escape changes nothing. -/
theorem scan_escapeChar : s.scan (escapeChar .normal last c next false) = s.next c := by
  rcases hmarks : marksText last c next false with _ | _
  · exact scan_of_not_marksText hmarks
  · by_cases hs : s = .block
    · rw [hs]
      exact LineStart.scan_block
    · rw [scan_of_marksText hs hmarks, next_of_marksText hs hmarks]

end

/-! ## What is still to come -/

def glyphChar : Glyph → Char
  | .space _ => ' '
  | .char c _ => c

/-- No character comes in front of the next space at which the line may break. -/
def runsOut : List Glyph → Bool
  | [] => true
  | .space true :: _ => true
  | .space false :: gs => runsOut gs
  | .char c _ :: gs => c == ' ' && runsOut gs

theorem runsOut_char {c : Char} {next : Option Char} {gs : List Glyph} (hspace : c ≠ ' ') :
    runsOut (.char c next :: gs) = false := by
  rw [runsOut, beq_eq_false_iff_ne.mpr hspace]
  rfl

/-- A line that shows `s` may go on with the glyphs, and break at any of their spaces
and at their end: it opens no block and does not stay blank. -/
structure Free (s : LineStart) (gs : List Glyph) : Prop where
  calm : (s.scan (gs.map glyphChar)).opens = false
  goesOn : s = .blank → runsOut gs = false

namespace Free

variable {s : LineStart} {c : Char} {gs : List Glyph}

theorem of_text : Free .text gs where
  calm := by rw [LineStart.scan_text]; rfl
  goesOn h := by cases h

/-- Where a line may break, all that counts is that it holds. -/
theorem iff_holds (hgs : gs = [] ∨ gs.head? = some (.space true)) : Free s gs ↔ s.holds = true := by
  rcases hgs with rfl | hgs
  · refine ⟨fun h => ?_, fun h => ?_⟩
    · cases s with
      | number | text => rfl
      | blank => cases h.goesOn rfl
      | marker | block => cases h.calm
    · cases s with
      | number | text => exact ⟨rfl, nofun⟩
      | blank | marker | block => cases h
  · obtain ⟨rest, rfl⟩ := List.head?_eq_some_iff.mp hgs
    have hspace : s.scan ((Glyph.space true :: rest).map glyphChar) =
        (s.next ' ').scan (rest.map glyphChar) := rfl
    refine ⟨fun h => ?_, fun h => ⟨?_, ?_⟩⟩
    · have hcalm := h.calm
      rw [hspace] at hcalm
      cases s with
      | number | text => rfl
      | blank => cases h.goesOn rfl
      | marker | block =>
        have hblock := LineStart.scan_block (t := rest.map glyphChar)
        cases (congrArg LineStart.opens hblock).symm.trans hcalm
    · rw [hspace, LineStart.next_space_of_holds h, LineStart.scan_text]
      rfl
    · rintro rfl
      cases h

theorem holds (h : Free s gs) (hgs : gs = [] ∨ gs.head? = some (.space true)) : s.holds = true :=
  (iff_holds hgs).mp h

/-- A glyph at which the line does not break. -/
theorem cons_iff {g : Glyph} (hg : g ≠ .space true) : Free s (g :: gs) ↔ Free (s.next (glyphChar g)) gs := by
  have hout (hspace : glyphChar g = ' ') : runsOut (g :: gs) = runsOut gs := by
    cases g with
    | space breaks =>
      cases breaks with
      | true => exact absurd rfl hg
      | false => rfl
    | char c next =>
      change c = ' ' at hspace
      rw [runsOut, hspace]
      rfl
  refine ⟨fun h => ⟨h.calm, fun hblank => ?_⟩, fun h => ⟨h.calm, ?_⟩⟩
  · obtain ⟨rfl, hspace⟩ := LineStart.next_eq_blank_iff.mp hblank
    rw [← hout hspace]
    exact h.goesOn rfl
  · rintro rfl
    by_cases hspace : glyphChar g = ' '
    · rw [hout hspace]
      exact h.goesOn (LineStart.next_eq_blank_iff.mpr ⟨rfl, hspace⟩)
    · cases g with
      | space breaks => exact absurd rfl hspace
      | char c next => exact runsOut_char hspace

theorem glyph {g : Glyph} (h : Free s (g :: gs)) (hg : g ≠ .space true) :
    Free (s.next (glyphChar g)) gs := (cons_iff hg).mp h

theorem ne_block (h : Free s gs) : s ≠ .block := by
  rintro rfl
  have hcalm := h.calm
  rw [LineStart.scan_block] at hcalm
  cases hcalm

/-- A character, however it is escaped. -/
theorem escape {next : Option Char} (h : Free s (.char c next :: gs)) (last : Option Char) (begin : Bool) :
    Free (s.scan (escapeChar .normal last c next begin)) gs := by
  rcases hmarks : marksText last c next begin with _ | _
  · rw [scan_of_not_marksText hmarks]
    exact h.glyph nofun
  · rw [scan_of_marksText h.ne_block hmarks]
    exact .of_text

end Free

theorem isBroken_of_not_free {line : Text} {gs : List Glyph} (hgs : gs = [] ∨ gs.head? = some (.space true))
    (h : ¬Free (LineStart.blank.scan line) gs) : isBroken line = true := by
  rw [Free.iff_holds hgs, LineStart.holds_scan] at h
  simpa using h

end CommonMark

end MarkupTree
