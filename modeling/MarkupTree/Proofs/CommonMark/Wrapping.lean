-- The lines of a paragraph while its glyphs are written. Whatever the width, a line
-- that is ended holds, as long as no line may break in front of glyphs that would
-- open a block or leave a line blank.
import MarkupTree.Proofs.CommonMark.Glyphs
import MarkupTree.Proofs.CommonMark.Paragraphs
import MarkupTree.Proofs.Layout.Lines
import MarkupTree.Proofs.Layout.Writing

namespace MarkupTree

namespace CommonMark

open Layout

variable {f : Format} {p : Page} {g : Glyph} {gs : List Glyph}

/-! ## The page between two glyphs -/

/-- The content of the line only begins: there are digits at most, and the escape keeps
the line from opening a block. -/
structure Guarded (p : Page) (line : Text) (gs : List Glyph) : Prop where
  beginContent : p.beginContent = true
  digits : line.all Char.isDigit = true
  begun : p.beginLine = line.isEmpty
  fresh : line = [] → Free .blank gs ∨ ∃ c next rest, gs = .char c next :: rest ∧ c ≠ ' '

/-- The page holds whole lines that break nothing, and a line that may go on with the
glyphs. -/
inductive Flowing (p : Page) (gs : List Glyph) : Prop
  /-- The line only begins. -/
  | begins {ls : List Text} {line : Text} (lined : Text.Lined ls line p.past)
      (hls : ∀ l ∈ ls, isBroken l = false) (htail : p.tail = none) (guarded : Guarded p line gs)
  /-- The line has no space at which it may break. -/
  | goesOn {ls : List Text} {line : Text} (lined : Text.Lined ls line p.past)
      (hls : ∀ l ∈ ls, isBroken l = false) (htail : p.tail = none) (begun : p.beginLine = false)
      (free : Free (LineStart.blank.scan line) gs)
  /-- What follows the last such space may come to stand on a line of its own. -/
  | mayBreak {ls : List Text} {line : Text} {t : List Char} (lined : Text.Lined ls line p.past)
      (hls : ∀ l ∈ ls, isBroken l = false) (htail : p.tail = some t) (begun : p.beginLine = false)
      (holds : (LineStart.blank.scan line).holds = true) (ht : '\n' ∉ t)
      (free : Free (LineStart.blank.scan t.reverse) gs)

/-- The line so far and all lines before it break nothing. -/
def Holding (p : Page) : Prop :=
  ∃ ls line, Text.Lined ls line p.reversed ∧ (∀ l ∈ ls, isBroken l = false) ∧
    (LineStart.blank.scan line).holds = true

/-- A line that only begins does not break in front of its first character. -/
theorem Guarded.ne_nil {line : Text} (h : Guarded p line gs)
    (hgs : gs = [] ∨ gs.head? = some (.space true)) : line ≠ [] := by
  intro hnil
  rcases h.fresh hnil with hfree | ⟨c, next, rest, rfl, -⟩
  · cases hfree.holds hgs
  · simp at hgs

theorem Guarded.begun_of_ne_nil {line : Text} (h : Guarded p line gs) (hne : line ≠ []) :
    p.beginLine = false := by
  rw [h.begun]
  simpa using hne

theorem forall_concat {ls : List Text} {line : Text} (hls : ∀ l ∈ ls, isBroken l = false)
    (h : (LineStart.blank.scan line).holds = true) : ∀ l ∈ ls ++ [line], isBroken l = false := by
  rw [List.forall_mem_append]
  exact ⟨hls, List.forall_mem_singleton.mpr (LineStart.isBroken_of_holds h)⟩

/-- After a number, a delimiter that is not escaped has a character right after it. -/
theorem free_of_number {c : Char} {last next : Option Char} (hlast : last.any Char.isDigit = true)
    (hmarks : marksText last c next true = false) (hdigit : c.isDigit = false) (hsees : Sees next gs) :
    Free (LineStart.number.next c) gs := by
  by_cases hdelimiter : c = '.' ∨ c = ')'
  · have hnext := (of_marksText_begin hmarks).2 hdelimiter hlast
    rcases hsees with hblank | ⟨d, next', rest, rfl, hd⟩
    · cases hnext.symm.trans hblank
    · have hmarker : LineStart.number.next c = .marker := by
        simp only [LineStart.next, hdigit, Bool.false_eq_true, if_false, if_pos hdelimiter]
      rw [hmarker]
      refine ⟨?_, by simp⟩
      rw [LineStart.scan_marker]
      simpa [glyphChar] using hd
  · have htext : LineStart.number.next c = .text := by
      simp only [LineStart.next, hdigit, Bool.false_eq_true, if_false, if_neg hdelimiter]
    rw [htext]
    exact .of_text

/-- The escape keeps a line that only begins from opening a block. -/
theorem Guarded.escape {ls : List Text} {line : Text} {c : Char} {next : Option Char}
    (h : Guarded p line (.char c next :: gs)) (lined : Text.Lined ls line p.reversed)
    (hdigit : c.isDigit = false) (hsees : Sees next gs) :
    Free ((LineStart.blank.scan line).scan (escapeChar .normal p.reversed.head? c next p.beginContent))
      gs := by
  rw [h.beginContent]
  have hscan : line = [] ∨ LineStart.blank.scan line = .number :=
    (Classical.em (line = [])).imp id (LineStart.scan_digits (Or.inl rfl) h.digits)
  rcases hmarks : marksText p.reversed.head? c next true with _ | _
  · -- what is not escaped could begin no block here
    rw [scan_of_not_marksText hmarks]
    rcases hscan with rfl | hnumber
    · rcases h.fresh rfl with hfree | ⟨d, next', rest, heq, hspace⟩
      · exact hfree.glyph (by simp)
      · cases heq
        have hlast : p.reversed.head?.any Char.isDigit = false := by
          rcases lined.head?_of_nil with hnone | hnewline
          · rw [hnone]
            rfl
          · rw [hnewline]
            rfl
        have hsigns : ¬(c = '-' ∨ c = '+' ∨ c = '=') := fun hsigns => by
          cases hlast.symm.trans ((of_marksText_begin hmarks).1 hsigns)
        have htext : LineStart.blank.next c = .text := by
          simp only [LineStart.next, if_neg hspace, hdigit, Bool.false_eq_true, if_false, if_neg hsigns]
        show Free (LineStart.blank.next c) gs
        rw [htext]
        exact .of_text
    · have hne : line ≠ [] := by
        rintro rfl
        cases hnumber
      have hlast : p.reversed.head?.any Char.isDigit = true := by
        rw [lined.head?_of_ne_nil hne, List.getLast?_eq_some_getLast hne]
        exact List.all_eq_true.mp h.digits _ (List.getLast_mem hne)
      rw [hnumber]
      exact free_of_number hlast hmarks hdigit hsees
  · rw [scan_of_marksText ?_ hmarks]
    · exact .of_text
    · rcases hscan with rfl | hnumber
      · simp [LineStart.scan]
      · simp [hnumber]

namespace Flowing

/-- Wrapping may happen at any time. -/
theorem wrap (hmargin : p.margin = []) (h : Flowing p gs) : Flowing (p.wrap f) gs := by
  cases h with
  | begins lined hls htail guarded =>
    rw [Page.wrap_of_tail htail]
    exact .begins lined hls htail guarded
  | goesOn lined hls htail begun free =>
    rw [Page.wrap_of_tail htail]
    exact .goesOn lined hls htail begun free
  | @mayBreak ls line t lined hls htail begun holds ht free =>
    unfold Page.wrap
    split
    · exact .mayBreak lined hls htail begun holds ht free
    · have hlined : Text.Lined (ls ++ [line]) t.reverse (t ++ [] ++ '\n' :: p.past) := by
        rw [List.append_nil]
        exact lined.newline.append_reversed ht
      rw [htail, hmargin]
      exact .goesOn hlined (forall_concat hls holds) rfl rfl free

/-- Where the line may break, all lines so far break nothing. -/
theorem ended (h : Flowing p gs) (hgs : gs = [] ∨ gs.head? = some (.space true)) :
    Holding p := by
  cases h with
  | @begins ls line lined hls htail guarded =>
    have hpast := Page.reversed_of_none htail
    refine ⟨ls, line, hpast ▸ lined, hls, ?_⟩
    rw [LineStart.scan_digits (Or.inl rfl) guarded.digits (guarded.ne_nil hgs)]
    rfl
  | @goesOn ls line lined hls htail begun free =>
    have hpast := Page.reversed_of_none htail
    exact ⟨ls, line, hpast ▸ lined, hls, free.holds hgs⟩
  | @mayBreak ls line t lined hls htail begun holds ht free =>
    have hreversed : p.reversed = (t ++ [' ']) ++ p.past := by
      rw [Page.reversed_of_some htail, List.append_assoc]
      rfl
    refine ⟨ls, line ++ ' ' :: t.reverse, ?_, hls, ?_⟩
    · rw [hreversed]
      have h := lined.append_reversed (t := t ++ [' ']) (by simp [ht])
      simpa using h
    · rw [LineStart.scan_space holds]
      rfl

/-! ## One glyph -/

theorem putSpace_true (h : Flowing p (.space true :: gs)) (hfree : Free .blank gs) :
    Flowing (p.putSpace true) gs := by
  obtain ⟨ls, line, hlined, hls, hholds⟩ := h.ended (Or.inr rfl)
  have hbegun : p.beginLine = false := by
    cases h with
    | begins _ _ _ guarded => exact guarded.begun_of_ne_nil (guarded.ne_nil (Or.inr rfl))
    | goesOn _ _ _ begun _ => exact begun
    | mayBreak _ _ _ begun _ _ _ => exact begun
  unfold Page.putSpace
  rw [if_neg (by simp [hbegun])]
  exact .mayBreak (t := []) hlined hls rfl hbegun hholds List.not_mem_nil hfree

theorem putSpace_false (h : Flowing p (.space false :: gs)) : Flowing (p.putSpace false) gs := by
  have hpast (hbegun : p.beginLine = false) (htail : p.tail = none) : p.putSpace false =
      { p with column := p.column + 1, beginContent := false, past := ' ' :: p.past } := by
    rw [Page.putSpace, if_neg (by simp [hbegun]), if_neg Bool.false_ne_true]
    dsimp only
    rw [htail]
  have htailed {t : List Char} (hbegun : p.beginLine = false) (htail : p.tail = some t) :
      p.putSpace false =
        { p with column := p.column + 1, beginContent := false, tail := some (' ' :: t) } := by
    rw [Page.putSpace, if_neg (by simp [hbegun]), if_neg Bool.false_ne_true]
    dsimp only
    rw [htail]
  cases h with
  | @begins ls line lined hls htail guarded =>
    by_cases hnil : line = []
    · -- the space is dropped
      have hbegun : p.beginLine = true := by rw [guarded.begun, hnil]; rfl
      rw [Page.putSpace, if_pos hbegun]
      refine .begins lined hls htail { guarded with fresh := fun _ => ?_ }
      rcases guarded.fresh hnil with hfree | ⟨c, next, rest, heq, -⟩
      · exact Or.inl (hfree.glyph (by simp))
      · cases heq
    · have hbegun := guarded.begun_of_ne_nil hnil
      rw [hpast hbegun htail]
      refine .goesOn (lined.append (t := [' ']) (by decide)) hls htail hbegun ?_
      rw [LineStart.scan_append, LineStart.scan_digits (Or.inl rfl) guarded.digits hnil]
      exact .of_text
  | goesOn lined hls htail begun free =>
    rw [hpast begun htail]
    refine .goesOn (lined.append (t := [' ']) (by decide)) hls htail begun ?_
    rw [LineStart.scan_append]
    exact free.glyph (by simp)
  | mayBreak lined hls htail begun holds ht free =>
    rw [htailed begun htail]
    refine .mayBreak lined hls rfl begun holds (by simp [ht]) ?_
    rw [List.reverse_cons, LineStart.scan_append]
    exact free.glyph (by simp)

theorem putChar (hescape : f.escape = escapeChar) (hmargin : p.margin = []) {c : Char}
    {next : Option Char} (hsees : Sees next gs) (h : Flowing p (.char c next :: gs)) :
    Flowing (p.putChar f .normal c next) gs := by
  have hnewline := newline_notMem_normal p.reversed.head? c next p.beginContent
  cases h with
  | @begins ls line lined hls htail guarded =>
    rw [Page.putChar_of_none hmargin (by decide) htail, hescape]
    have hpast := Page.reversed_of_none htail
    by_cases hdigit : c.isDigit = true
    · have hplain : escapeChar .normal p.reversed.head? c next p.beginContent = [c] := by
        have hmarks : marksText p.reversed.head? c next p.beginContent = false := marksText_of_digit hdigit
        simp [escapeChar, needsEscape, hmarks]
      rw [hplain] at hnewline ⊢
      refine .begins (lined.append hnewline) hls htail ⟨?_, ?_, ?_, ?_⟩
      · simp [guarded.beginContent, hdigit]
      · simp [guarded.digits, hdigit]
      · simp
      · simp
    · refine .goesOn (lined.append hnewline) hls htail rfl ?_
      rw [LineStart.scan_append]
      exact guarded.escape (hpast ▸ lined) (by simpa using hdigit) hsees
  | goesOn lined hls htail begun free =>
    rw [Page.putChar_of_none hmargin (by decide) htail, hescape]
    refine .goesOn (lined.append hnewline) hls htail rfl ?_
    rw [LineStart.scan_append]
    exact free.escape _ _
  | mayBreak lined hls htail begun holds ht free =>
    rw [Page.putChar_of_some hmargin (by decide) htail, hescape]
    refine .mayBreak lined hls rfl rfl holds ?_ ?_
    · rw [List.mem_append, not_or]
      exact ⟨mt List.mem_reverse.mp hnewline, ht⟩
    · rw [List.reverse_append, List.reverse_reverse, LineStart.scan_append]
      exact free.escape _ _

theorem putGlyph (hescape : f.escape = escapeChar) (hmargin : p.margin = []) (htidy : Tidy (g :: gs))
    (h : Flowing p (g :: gs)) : Flowing (p.putGlyph f .normal g) gs := by
  cases g with
  | space breaks =>
    refine Flowing.wrap ((Page.margin_eq_of_setting (Page.setting_putSpace breaks)).trans hmargin) ?_
    cases breaks with
    | true => exact h.putSpace_true htidy.1
    | false => exact h.putSpace_false
  | char c next =>
    refine Flowing.wrap ((Page.margin_eq_of_setting (Page.setting_putChar .normal c next)).trans hmargin) ?_
    exact h.putChar hescape hmargin htidy.1

/-- Any glyphs, one after the other. -/
theorem foldl (hescape : f.escape = escapeChar) (hmargin : p.margin = []) {rest : List Glyph}
    (htidy : Tidy (gs ++ rest)) (h : Flowing p (gs ++ rest)) :
    Flowing (gs.foldl (Page.putGlyph f .normal) p) rest := by
  have hkeeps := Page.foldl_keeps (f := f) .normal (fun p gs => Tidy gs ∧ Flowing p gs)
    (fun p g gs hmargin ⟨htidy, h⟩ => ⟨htidy.tail, h.putGlyph hescape hmargin htidy⟩) hmargin ⟨htidy, h⟩
  exact hkeeps.2

end Flowing

/-- Where empty lines collapse is told elsewhere. -/
theorem Flowing.tight (on : Bool) (h : Flowing p gs) : Flowing { p with tightItem := on } gs := by
  cases h with
  | begins lined hls htail guarded =>
    exact .begins lined hls htail
      ⟨guarded.beginContent, guarded.digits, guarded.begun, guarded.fresh⟩
  | goesOn lined hls htail begun free => exact .goesOn lined hls htail begun free
  | mayBreak lined hls htail begun holds ht free =>
    exact .mayBreak lined hls htail begun holds ht free

/-! ## A row of texts and soft breaks -/

/-- The glyph that a soft break stands for: where no line may break, a mere space. -/
def softGlyph (o : Options) : Glyph := if o.noBreaks then .char ' ' none else .space true

/-- A space is written alike in every mode. -/
theorem putGlyph_space (hescape : f.escape = escapeChar) (next : Option Char) :
    p.putGlyph f .literal (.char ' ' next) = p.putGlyph f .normal (.char ' ' next) := by
  have hspace : ∀ last begin, escapeChar .normal last ' ' next begin = [' '] := by
    intro last begin
    have hmarks : marksText last ' ' next begin = false := by simp [marksText, inlineMarks]
    simp [escapeChar, needsEscape, hmarks]
  simp [Page.putGlyph, Page.putChar, hescape, hspace]

/-- A text, or a soft break that does not end its line, is written glyph by glyph. -/
theorem run_chunk {o : Options} {width : Nat} {c : Content} (ho : o.hardBreaks = false)
    (hc : isRunning c = true) (hwidth : c = .softBreak → o.noBreaks = true ∨ effectiveWidth o width ≠ 0)
    (hone : p.oneLine = false) :
    p.run (format o width) (chunk o (effectiveWidth o width) c) =
      (contentGlyphs (o.wraps (effectiveWidth o width)) (softGlyph o) c).foldl
        (Page.putGlyph (format o width) .normal) p.settle := by
  have hput (t : Text) (wrap : Bool) (mode : Mode) : p.put (format o width) t wrap mode =
      (glyphs wrap t).foldl (Page.putGlyph (format o width) mode) p.settle := by
    rw [Page.put, hone]
    cases wrap <;> rfl
  cases c with
  | text t => exact hput t _ .normal
  | softBreak =>
    have hspace : chunk o (effectiveWidth o width) .softBreak =
        [.put [' '] (o.wraps (effectiveWidth o width)) .literal] := by
      rw [chunk, softBreak, ho, if_neg Bool.false_ne_true]
      rcases hwidth rfl with h | h
      · rw [if_neg (by simp [h])]
      · rw [if_neg (by simp [h])]
    have hglyphs : contentGlyphs (o.wraps (effectiveWidth o width)) (softGlyph o) .softBreak = [softGlyph o] := rfl
    rw [hspace, hglyphs, softGlyph]
    show p.put _ _ _ _ = _
    rw [hput]
    cases hno : o.noBreaks with
    | true =>
      have hwraps : o.wraps (effectiveWidth o width) = false := by simp [Options.wraps, hno]
      rw [hwraps]
      exact putGlyph_space rfl none
    | false =>
      have hwraps : o.wraps (effectiveWidth o width) = true := by
        simpa [Options.wraps, hno, ho, Nat.pos_iff_ne_zero] using hwidth rfl
      rw [hwraps]
      rfl
  | _ => cases hc

/-- The page, where the rest of the row is still to come. A soft break may owe the end of
the line. -/
structure RowFlowing (wrap : Bool) (soft : Glyph) (p : Page) (row : List Content) : Prop where
  margin : p.margin = []
  oneLine : p.oneLine = false
  tidy : Tidy (rowGlyphs wrap soft row)
  flowing : p.owed = 0 ∧ Flowing p (rowGlyphs wrap soft row) ∨
    p.owed = 1 ∧ Holding p ∧ Free .blank (rowGlyphs wrap soft row)

variable {wrap : Bool} {soft : Glyph} {row : List Content}

namespace RowFlowing

/-- Ending the line, if that is owed, begins a new one. -/
theorem settle (h : RowFlowing wrap soft p row) : Flowing p.settle (rowGlyphs wrap soft row) := by
  rcases h.flowing with ⟨howed, hflowing⟩ | ⟨howed, ⟨ls, line, hlined, hls, hholds⟩, hfree⟩
  · rwa [Page.settle_of_due (Page.due_of_owed howed)]
  · have hdue : p.due = 1 := by
      rw [Page.due, howed]
      exact ite_self 1
    have hbreaks : Page.breaks p.emptyMargin 1 p.reversed = ['\n'] := by
      have hhead := hlined.head?_of_ne_nil (LineStart.ne_nil_of_holds hholds)
      rcases hreversed : p.reversed with _ | ⟨c, cs⟩
      · rw [hreversed, List.getLast?_eq_some_getLast (LineStart.ne_nil_of_holds hholds)] at hhead
        cases hhead
      · have hc : c ≠ '\n' := by
          rintro rfl
          rw [hreversed] at hhead
          exact hlined.goesOn (List.mem_of_getLast? hhead.symm)
        rw [Page.breaks, if_neg hc]
        rfl
    rw [Page.settle_eq (by omega), hdue, hbreaks]
    exact .begins hlined.newline (forall_concat hls hholds) rfl ⟨rfl, rfl, rfl, fun _ => Or.inl hfree⟩

theorem tight (on : Bool) (h : RowFlowing wrap soft p row) :
    RowFlowing wrap soft { p with tightItem := on } row :=
  ⟨h.margin, h.oneLine, h.tidy, h.flowing.imp_left fun ⟨howed, hflowing⟩ => ⟨howed, hflowing.tight on⟩⟩

/-- Writing the glyphs of what comes next. -/
theorem foldl {c : Content} (hescape : f.escape = escapeChar) (h : RowFlowing wrap soft p (c :: row)) :
    RowFlowing wrap soft ((contentGlyphs wrap soft c).foldl (Page.putGlyph f .normal) p.settle) row := by
  have hsetting : ((contentGlyphs wrap soft c).foldl (Page.putGlyph f .normal) p.settle).setting =
      (p.margin, 0, p.oneLine, p.tightItem) := (Page.setting_foldl _ _).trans Page.setting_settle
  have hmargin : p.settle.margin = [] := Page.margin_settle.trans h.margin
  exact {
    margin := (congrArg Prod.fst hsetting).trans h.margin
    oneLine := (congrArg (·.2.2.1) hsetting).trans h.oneLine
    tidy := Tidy.of_append h.tidy
    flowing := Or.inl ⟨congrArg (·.2.1) hsetting, h.settle.foldl hescape hmargin h.tidy⟩ }

/-- A soft break that ends the line. -/
theorem softLine (h : RowFlowing wrap (.space true) p (.softBreak :: row)) :
    RowFlowing wrap (.space true) (p.follow f .softLine) row := by
  have hfollow : p.follow f .softLine = p.owe 1 := by
    rw [Page.follow, h.oneLine]
    rfl
  rw [hfollow]
  refine ⟨h.margin, h.oneLine, h.tidy.2, Or.inr ?_⟩
  rcases h.flowing with ⟨howed, hflowing⟩ | ⟨-, -, hfree⟩
  · refine ⟨?_, hflowing.ended (Or.inr rfl), h.tidy.1⟩
    show max p.owed 1 = 1
    rw [howed]
    rfl
  · -- no two soft breaks follow each other
    cases hfree.goesOn rfl

/-- At the end of the row, no line breaks the paragraph. -/
theorem finish (h : RowFlowing wrap soft p []) : ∀ l ∈ Text.lines p.finish, isBroken l = false := by
  have hholding : Holding p := by
    rcases h.flowing with ⟨-, hflowing⟩ | ⟨-, -, hfree⟩
    · exact hflowing.ended (Or.inl rfl)
    · cases hfree.goesOn rfl
  obtain ⟨ls, line, hlined, hls, hholds⟩ := hholding
  rw [Page.lines_finish hlined (LineStart.ne_nil_of_holds hholds)]
  exact forall_concat hls hholds

end RowFlowing

/-! ## A whole paragraph -/

theorem rowFlowing_start {d : Char} {t : Text} (htidy : Tidy (rowGlyphs wrap soft row))
    (hreading : reading row = d :: t) (hspace : d ≠ ' ') : RowFlowing wrap soft {} row where
  margin := rfl
  oneLine := rfl
  tidy := htidy
  flowing := by
    obtain ⟨next, rest, hglyphs⟩ := rowGlyphs_of_head wrap soft hreading hspace
    exact Or.inl ⟨rfl, .begins .nil nofun rfl ⟨rfl, rfl, rfl, fun _ => Or.inr ⟨d, next, rest, hglyphs, hspace⟩⟩⟩

theorem rowFlowing_chunk {o : Options} (ho : o.hardBreaks = false) {width : Nat} {c : Content}
    (hc : isRunning c = true)
    (h : RowFlowing (o.wraps (effectiveWidth o width)) (softGlyph o) p (c :: row)) :
    RowFlowing (o.wraps (effectiveWidth o width)) (softGlyph o)
      (p.run (format o width) (chunk o (effectiveWidth o width) c)) row := by
  by_cases hline : c = .softBreak ∧ o.noBreaks = false ∧ effectiveWidth o width = 0
  · obtain ⟨rfl, hno, hwidth⟩ := hline
    have hsoft : softGlyph o = .space true := by rw [softGlyph, hno, if_neg Bool.false_ne_true]
    have hchunk : chunk o (effectiveWidth o width) .softBreak = [.softLine] := by
      rw [chunk, softBreak, ho, if_neg Bool.false_ne_true, if_pos (by simp [hno, hwidth])]
    rw [hchunk]
    rw [hsoft] at h ⊢
    exact h.softLine
  · rw [run_chunk ho hc ?_ h.oneLine]
    · exact h.foldl rfl
    · rintro rfl
      simp only [true_and, not_and] at hline
      cases hno : o.noBreaks with
      | true => exact Or.inl rfl
      | false => exact Or.inr (hline hno)

/-- No line of a smooth paragraph breaks it, whatever the options and the width. -/
theorem isBroken_of_smooth {o : Options} (ho : o.hardBreaks = false) (width : Nat) {s : Site}
    (hparagraph : s.content = .paragraph)
    (hrunning : ∀ n ∈ s.children.roots, isRunning n.content = true)
    (hleaf : s.children.AreLeaves fun n => isRunning n.content)
    (hsmooth : Smooth (s.children.roots.map Node.content)) {d : Char} {t : Text}
    (hreading : reading (s.children.roots.map Node.content) = d :: t) (hspace : d ≠ ' ') :
    ∀ l ∈ Text.lines (render o width s), isBroken l = false := by
  have htidy : Tidy (rowGlyphs (o.wraps (effectiveWidth o width)) (softGlyph o)
      (s.children.roots.map Node.content)) := by
    unfold softGlyph
    split
    · rename_i hno
      have hwraps : o.wraps (effectiveWidth o width) = false := by simp [Options.wraps, hno]
      rw [hwraps]
      exact tidy_rowGlyphs_line _
    · exact tidy_rowGlyphs (hsmooth.free _)
  obtain ⟨p, h, hrender⟩ := render_running o width hparagraph
    (fun p row on h => h.tight on)
    (fun p c row hc h => rowFlowing_chunk ho hc h) hrunning hleaf
    (rowFlowing_start htidy hreading hspace)
  rw [hrender]
  exact h.finish

end CommonMark

end MarkupTree
