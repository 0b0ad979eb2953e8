-- What settling and a chunk add to the output. Settling ends the last line, and leaves
-- an empty one where more than one break is due. A line that is ended stays as it is. A
-- chunk whose spaces cannot break goes behind the output as it is written, if the page has
-- no margin.
import MarkupTree.Proofs.Layout.Bookkeeping

namespace MarkupTree

namespace Text

variable {ls : List Text} {line t : Text} {output : List Char}

/-! ## The lines of any text -/

theorem exists_lined (output : List Char) : ∃ ls line, Lined ls line output := by
  induction output with
  | nil => exact ⟨[], [], .nil⟩
  | cons c cs ih =>
    obtain ⟨ls, line, h⟩ := ih
    by_cases hc : c = '\n'
    · subst hc
      exact ⟨ls ++ [line], [], h.newline⟩
    · have hchar : '\n' ∉ [c] := by simpa using Ne.symm hc
      exact ⟨ls, line ++ [c], h.append hchar⟩

theorem lines_of_notMem (h : '\n' ∉ line) (hne : line ≠ []) : lines line = [line] := by
  induction line with
  | nil => exact absurd rfl hne
  | cons c cs ih =>
    obtain ⟨hc, hcs⟩ : '\n' ≠ c ∧ '\n' ∉ cs := by simpa using h
    unfold lines
    rw [if_neg (Ne.symm hc)]
    by_cases hnil : cs = []
    · subst hnil
      simp [lines]
    · rw [ih hcs hnil]

/-- The lines of the output are the whole ones and the one that goes on, if it is begun. -/
theorem Lined.lines_reverse (h : Lined ls line output) :
    lines output.reverse = ls ++ if line = [] then [] else [line] := by
  rw [h.eq, lines_ended_append h.whole]
  split
  · rename_i hline
    subst hline
    simp [lines]
  · rename_i hline
    rw [lines_of_notMem h.goesOn hline]

theorem newline_notMem_of_mem_lines {l : Text} (h : l ∈ lines t) : '\n' ∉ l := by
  obtain ⟨ls, line, hlined⟩ := exists_lined t.reverse
  have hlines := hlined.lines_reverse
  rw [List.reverse_reverse] at hlines
  rw [hlines, List.mem_append] at h
  rcases h with h | h
  · exact hlined.whole l h
  · split at h
    · simp at h
    · rw [List.mem_singleton.mp h]
      exact hlined.goesOn

theorem ended_eq_of_mem {l : Text} (h : l ∈ ls) : ∃ front back, ended ls = front ++ l ++ back := by
  obtain ⟨before, after, rfl⟩ := List.append_of_mem h
  exact ⟨ended before, ['\n'] ++ ended after, by simp [ended]⟩

/-- A line is a stretch of its text. -/
theorem infix_of_mem_lines {l : Text} (h : l ∈ lines t) : l <:+: t := by
  obtain ⟨ls, line, hlined⟩ := exists_lined t.reverse
  have hlines := hlined.lines_reverse
  have heq := hlined.eq
  rw [List.reverse_reverse] at hlines heq
  rw [hlines, List.mem_append] at h
  rw [heq]
  rcases h with h | h
  · obtain ⟨front, back, hended⟩ := ended_eq_of_mem h
    exact ⟨front, back ++ line, by simp [hended]⟩
  · split at h
    · simp at h
    · rw [List.mem_singleton.mp h]
      exact (List.suffix_append _ _).isInfix

/-- A text of which the last line is ended is its lines. -/
theorem Lined.ended_lines (h : Lined ls [] output) : ended (lines output.reverse) = output.reverse := by
  rw [h.lines_reverse, h.eq]
  simp

/-- Ending the lines of a text ends the last one, if it is begun. -/
theorem ended_lines_reverse (output : List Char) :
    ended (lines output.reverse) = output.reverse ++ if atStart output then [] else ['\n'] := by
  obtain ⟨ls, line, hlined⟩ := exists_lined output
  by_cases hline : line = []
  · subst hline
    have hstart : atStart output = true := by
      unfold atStart
      rw [List.headD_eq_head?_getD]
      rcases hlined.head?_of_nil with hhead | hhead <;> rw [hhead] <;> rfl
    rw [hlined.ended_lines, if_pos hstart, List.append_nil]
  · obtain ⟨c, cs, hc, hcs⟩ := hlined.exists_cons hline
    have hstart : atStart output ≠ true := by simp [atStart, hcs, hc]
    rw [hlined.lines_reverse, if_neg hline, ended_concat, if_neg hstart, hlined.eq]

theorem ended_lines_ne_nil (h : t ≠ []) : ended (lines t) ≠ [] := by
  have hended := ended_lines_reverse t.reverse
  rw [List.reverse_reverse] at hended
  rw [hended]
  simp [h]

theorem ended_lines_of_getLast? {c : Char} (h : t.getLast? = some c) (hc : c ≠ '\n') :
    ended (lines t) = t ++ ['\n'] := by
  obtain ⟨front, rfl⟩ := List.getLast?_eq_some_iff.mp h
  have hended := ended_lines_reverse (front ++ [c]).reverse
  rw [List.reverse_reverse] at hended
  rw [hended]
  simp [atStart, hc]

/-- Ending the last line of a text leaves its lines as they are. -/
theorem lines_ended_lines (t : Text) : lines (ended (lines t)) = lines t := by
  have hwhole : ∀ l ∈ lines t, '\n' ∉ l := fun l hl => newline_notMem_of_mem_lines hl
  have hlines := lines_ended_append hwhole []
  rw [List.append_nil] at hlines
  rw [hlines, lines, List.append_nil]

end Text

namespace Layout

namespace Page

open Text (Lined)

variable {f : Format} {p : Page} {mode : Mode} {t : Text}

/-! ## Settling -/

theorem breaks_nil (margin : Text) (n : Nat) : breaks margin n [] = [] := by
  induction n with
  | zero => rfl
  | succ n ih => exact ih

/-- Where one break is due, settling ends the last line and does no more. -/
theorem text_settle (h : p.due = 1) : p.settle.text = Text.ended (Text.lines p.text) := by
  obtain ⟨ls, line, hlined⟩ := Text.exists_lined p.reversed
  have hlines : Text.lines p.text = ls ++ if line = [] then [] else [line] := hlined.lines_reverse
  have hpos : p.due ≠ 0 := by omega
  rw [text, reversed_settle hpos, h, hlines, List.reverse_append, hlined.eq]
  by_cases hline : line = []
  · subst hline
    have hnone : breaks p.emptyMargin 1 p.reversed = [] := by
      rcases hlined.head?_of_nil with hhead | hhead
      · rw [List.head?_eq_none_iff.mp hhead]
        exact breaks_nil _ _
      · obtain ⟨cs, hcs⟩ := List.head?_eq_some_iff.mp hhead
        simp [hcs, breaks]
    simp [hnone]
  · obtain ⟨c, cs, hc, hcs⟩ := hlined.exists_cons hline
    simp [hcs, breaks, hc, hline, Text.ended]

/-- A line that is empty, or that has nothing but what an empty line has of the margin. -/
def Bare (margin line : Text) : Prop := line = [] ∨ line = Text.trimEnd margin

/-- Empty lines after a line are the last of the lines. -/
theorem getLast?_replicate {ls : List Text} {line empty l : Text} {k : Nat}
    (h : (ls ++ line :: List.replicate k empty).getLast? = some l) : k = 0 ∧ l = line ∨ l = empty := by
  rw [List.getLast?_append, List.getLast?_cons, List.getLast?_replicate] at h
  split at h
  · rename_i hk
    exact Or.inl ⟨hk, by simpa using h.symm⟩
  · exact Or.inr (by simpa using h.symm)

/-- Where more than one break is due, the last line is bare after settling. -/
theorem bare_settle (hmargin : '\n' ∉ p.margin) (h : 1 < p.due) :
    ∃ ls, Lined ls [] p.settle.reversed ∧ ∀ l, ls.getLast? = some l → Bare p.margin l := by
  obtain ⟨ls, line, hlined⟩ := Text.exists_lined p.reversed
  have hempty : '\n' ∉ p.emptyMargin := fun hmem => hmargin (p.emptyMargin_prefix.subset hmem)
  have hpos : p.due ≠ 0 := by omega
  obtain ⟨n, hn⟩ : ∃ n, p.due = n + 2 := ⟨p.due - 2, by omega⟩
  rw [reversed_settle hpos, hn]
  by_cases hline : line = []
  · subst hline
    cases hreversed : p.reversed with
    | nil =>
      rw [breaks_nil]
      exact ⟨[], .nil, nofun⟩
    | cons c cs =>
      -- the line break that the output ends with counts, and one more is due at least
      have hc : c = '\n' := by
        have hhead := hlined.head?_of_nil
        rw [hreversed] at hhead
        simpa using hhead
      subst hc
      obtain ⟨ms, m, hms⟩ := Text.exists_lined cs
      have hended : Lined (ms ++ [m]) [] ('\n' :: cs) := hms.newline
      rw [breaks, if_pos rfl]
      rcases Books.breaks_cases p.emptyMargin (n + 1) cs with hnone | ⟨k, d, ds, hd, hbreaks⟩
      · have hm : m = [] := Books.eq_nil_of_breaks (by omega) hnone hms
        rw [hnone]
        refine ⟨ms ++ [m], hended, ?_⟩
        intro l hl
        rw [List.getLast?_concat, Option.some.injEq, hm] at hl
        exact Or.inl hl.symm
      · rw [hbreaks]
        refine ⟨_, Books.lined_breaks hempty hd ds k hended, ?_⟩
        intro l hl
        exact (getLast?_replicate hl).imp And.right id
  · obtain ⟨c, cs, hc, hcs⟩ := hlined.exists_cons hline
    rw [hcs] at hlined ⊢
    refine ⟨_, Books.lined_breaks hempty hc cs (n + 1) hlined, ?_⟩
    intro l hl
    rcases getLast?_replicate hl with ⟨hzero, -⟩ | hl
    · omega
    · exact Or.inr hl

/-- The file of a page is its text with the last line ended. -/
theorem finish_eq (p : Page) : p.finish = Text.ended (Text.lines p.text) := by
  have hended := Text.ended_lines_reverse p.reversed
  unfold finish
  rw [text, hended]
  cases hreversed : p.reversed with
  | nil => rfl
  | cons c cs =>
    by_cases hc : c = '\n'
    · subst hc
      simp [Text.atStart]
    · simp [Text.atStart, hc]

/-! ## A chunk on a line of its own -/

/-- What is written first on the line: the margin, if the page begins one. -/
def front (p : Page) : Text := if p.beginLine then p.margin else []

theorem putGlyph_of_none (htail : p.tail = none) {c : Char} (hc : c ≠ '\n') (next : Option Char) :
    (p.putGlyph f .literal (.char c next)).tail = none ∧
      (p.putGlyph f .literal (.char c next)).past = c :: (p.front.reverse ++ p.past) ∧
        (p.putGlyph f .literal (.char c next)).beginLine = false := by
  have hput : p.putChar f .literal c next = { (p.startLine c).write [c] with
      beginLine := false, beginContent := (p.startLine c).beginContent && c.isDigit } := putChar_of_ne hc _ _
  have hstart : (p.startLine c).tail = none ∧ (p.startLine c).past = p.front.reverse ++ p.past := by
    unfold startLine front
    cases p.beginLine <;> simp [write, htail, hc]
  have hnone : (p.putChar f .literal c next).tail = none := by
    rw [hput]
    exact (tail_write _).trans (by rw [hstart.1]; rfl)
  rw [putGlyph, wrap_of_tail hnone]
  refine ⟨hnone, ?_, by rw [hput]⟩
  rw [hput]
  simp [write, hstart]

/-- Where the line cannot break, a chunk stands on it as it is. -/
theorem foldl_of_none (htail : p.tail = none) {t : Text} (ht : '\n' ∉ t) (hne : t ≠ []) :
    ((glyphs false t).foldl (Page.putGlyph f .literal) p).tail = none ∧
      ((glyphs false t).foldl (Page.putGlyph f .literal) p).past = t.reverse ++ (p.front.reverse ++ p.past) := by
  induction t generalizing p with
  | nil => exact absurd rfl hne
  | cons c cs ih =>
    obtain ⟨hc, hcs⟩ : '\n' ≠ c ∧ '\n' ∉ cs := by simpa using ht
    obtain ⟨htail', hpast, hbegins⟩ := putGlyph_of_none (f := f) htail (Ne.symm hc) cs.head?
    have hglyphs : glyphs false (c :: cs) = .char c cs.head? :: glyphs false cs := by simp [glyphs]
    rw [hglyphs, List.foldl_cons]
    by_cases hnil : cs = []
    · subst hnil
      exact ⟨htail', hpast⟩
    · obtain ⟨hnone, hmore⟩ := ih htail' hcs hnil
      have hfront : (p.putGlyph f .literal (.char c cs.head?)).front = [] := by
        rw [front, hbegins]
        rfl
      rw [hfront, hpast] at hmore
      refine ⟨hnone, ?_⟩
      rw [hmore]
      simp

/-- Where a break is due, a chunk stands on a line of its own, behind the margin. -/
theorem lit_of_due (hdue : p.due ≠ 0) (ht : '\n' ∉ t) (hne : t ≠ []) :
    (p.follow f (lit t)).tail = none ∧
      (p.follow f (lit t)).past = t.reverse ++ (p.margin.reverse ++ p.settle.reversed) := by
  have htail : p.settle.tail = none := by rw [settle_eq hdue]
  have hfront : p.settle.front = p.margin := by
    unfold front
    rw [settle_eq hdue]
    rfl
  have hput := foldl_of_none (f := f) htail ht hne
  rw [hfront, ← reversed_of_none htail] at hput
  exact hput

/-! ## Lines that stay -/

/-- The output is `past` with a line break owed behind it, or goes on after one. -/
def Stays (past : List Char) (p : Page) : Prop :=
  p.tail = none ∧ p.past = past ∧ p.owed ≠ 0 ∨ '\n' :: past <:+ p.past

theorem past_suffix_settle : p.past <:+ p.settle.past := by
  by_cases hdue : p.due = 0
  · have hsettle := settle_of_due hdue
    exact hsettle.symm ▸ List.suffix_rfl
  · rw [settle_eq hdue]
    exact past_suffix_reversed.trans (List.suffix_append _ _)

theorem past_suffix_put (t : Text) (wrap : Bool) (mode : Mode) : p.settle.past <:+ (p.put f t wrap mode).past := by
  unfold put
  apply List.foldlRecOn (motive := fun q : Page => p.settle.past <:+ q.past)
  · exact List.suffix_rfl
  · intro q hq g _
    exact hq.trans (past_suffix_putGlyph mode g)

namespace Stays

variable {past : List Char} {c : Char} {cs : List Char}

/-- More output begins with the break that is owed. -/
theorem put (h : Stays (c :: cs) p) (hc : c ≠ '\n') (t : Text) (wrap : Bool) (mode : Mode) :
    '\n' :: c :: cs <:+ (p.put f t wrap mode).past := by
  apply List.IsSuffix.trans ?_ (past_suffix_put t wrap mode)
  rcases h with ⟨htail, hpast, howed⟩ | hpast
  · have hdue : p.due ≠ 0 := fun hzero => howed (owed_of_due hzero)
    obtain ⟨n, hn⟩ := Nat.exists_eq_succ_of_ne_zero hdue
    have hbreak : '\n' :: c :: cs <:+ (breaks p.emptyMargin p.due (c :: cs)).reverse ++ c :: cs := by
      rw [hn, breaks, if_neg hc, List.reverse_append, List.reverse_cons, List.append_assoc, List.append_assoc]
      exact (List.suffix_append _ _).trans (List.suffix_append _ _)
    rw [settle_eq hdue, reversed_of_none htail, hpast]
    exact hbreak
  · exact hpast.trans past_suffix_settle

theorem follow (h : Stays (c :: cs) p) (hc : c ≠ '\n') (i : Instruction) : Stays (c :: cs) (p.follow f i) := by
  have howe : ∀ n, Stays (c :: cs) (p.owe n) := by
    intro n
    refine h.imp (fun ⟨htail, hpast, howed⟩ => ⟨htail, hpast, ?_⟩) id
    show max p.owed n ≠ 0
    omega
  cases i with
  | put t wrap mode => exact Or.inr (h.put hc t wrap mode)
  | lineBreak => exact howe 1
  | blankLine => exact howe 2
  | softLine =>
    unfold Page.follow
    dsimp only
    split
    · exact Or.inr (h.put hc [' '] false .literal)
    · exact howe 1
  | _ => exact h

theorem run (h : Stays (c :: cs) p) (hc : c ≠ '\n') (is : List Instruction) : Stays (c :: cs) (p.run f is) := by
  apply List.foldlRecOn (motive := Stays (c :: cs))
  · exact h
  · intro q hq i _
    exact hq.follow hc i

/-- The lines of the output are lines of the file. -/
theorem lines_finish {ls : List Text} {line : Text} (h : Stays past p) (hlined : Lined ls line past)
    (hne : line ≠ []) : ∃ below, Text.lines p.finish = ls ++ line :: below := by
  rcases h with ⟨htail, hpast, -⟩ | hpast
  · rw [← hpast, ← reversed_of_none htail] at hlined
    exact ⟨[], Page.lines_finish hlined hne⟩
  · obtain ⟨rest, hrest⟩ := hpast.trans past_suffix_reversed
    have htext : p.text = Text.ended (ls ++ [line]) ++ rest.reverse := by
      rw [text, ← hrest, List.reverse_append, List.reverse_cons, hlined.eq, Text.ended_concat]
    have hwhole := hlined.newline.whole
    refine ⟨Text.lines rest.reverse, ?_⟩
    rw [finish_eq, Text.lines_ended_lines, htext, Text.lines_ended_append hwhole]
    simp

end Stays

/-! ## Pages that only grow -/

/-- The page has no margin, and no space at which its last line may break. -/
structure Flat (p : Page) : Prop where
  margin : p.margin = []
  tail : p.tail = none

namespace Flat

theorem settle (h : p.Flat) : p.settle.Flat := by
  refine ⟨margin_settle.trans h.margin, ?_⟩
  by_cases hdue : p.due = 0
  · rw [settle_of_due hdue]
    exact h.tail
  · rw [settle_eq hdue]

theorem ink_startLine (h : p.Flat) (c : Char) (next : Option Char) :
    ink f mode c next (p.startLine c) = ink f mode c next p := by
  rw [startLine_of_margin h.margin]
  split <;> rfl

/-- A character goes behind the output as it is written. -/
theorem putGlyph (h : p.Flat) (mode : Mode) (c : Char) (next : Option Char) :
    (p.putGlyph f mode (.char c next)).Flat ∧
      (p.putGlyph f mode (.char c next)).reversed = (ink f mode c next p).reverse ++ p.reversed := by
  have htail : (p.putChar f mode c next).tail = none := by
    have hstart : (p.startLine c).tail = none := by
      rw [startLine_of_margin h.margin]
      split <;> exact h.tail
    unfold putChar
    dsimp only
    split
    · rfl
    · exact (tail_write _).trans (by rw [hstart]; rfl)
  have hmargin : (p.putChar f mode c next).margin = p.margin :=
    margin_eq_of_setting (setting_putChar mode c next)
  have hstart : (p.startLine c).reversed = p.reversed := by
    rw [startLine_of_margin h.margin]
    split <;> rfl
  obtain ⟨t, hreversed, ht⟩ := reversed_putChar (f := f) (p := p) mode c next
  have hink : t = ink f mode c next p := ht.trans (h.ink_startLine c next)
  rw [Page.putGlyph, wrap_of_tail htail]
  refine ⟨⟨hmargin.trans h.margin, htail⟩, ?_⟩
  rw [hreversed, hink, hstart]

theorem foldlLiteral (h : p.Flat) (t : Text) :
    ((glyphs false t).foldl (Page.putGlyph f .literal) p).Flat ∧
      ((glyphs false t).foldl (Page.putGlyph f .literal) p).reversed = t.reverse ++ p.reversed := by
  induction t generalizing p with
  | nil => exact ⟨h, rfl⟩
  | cons c cs ih =>
    obtain ⟨hflat, hreversed⟩ := h.putGlyph (f := f) .literal c cs.head?
    obtain ⟨hflat', hreversed'⟩ := ih hflat
    have hglyphs : glyphs false (c :: cs) = .char c cs.head? :: glyphs false cs := by simp [glyphs]
    rw [hglyphs, List.foldl_cons]
    refine ⟨hflat', ?_⟩
    rw [hreversed', hreversed]
    simp [ink]

/-- Text that is written as it is goes behind the output, once that is settled. -/
theorem lit (h : p.Flat) (t : Text) :
    (p.follow f (lit t)).Flat ∧ (p.follow f (lit t)).text = p.settle.text ++ t := by
  obtain ⟨hflat, hreversed⟩ := h.settle.foldlLiteral (f := f) t
  refine ⟨hflat, ?_⟩
  show (((glyphs false t).foldl (Page.putGlyph f .literal) p.settle).reversed).reverse = _
  rw [hreversed]
  simp [text]

end Flat

/-- The page is flat, its output is `t`, and nothing is owed. -/
structure Holds (t : Text) (p : Page) : Prop where
  flat : p.Flat
  owed : p.owed = 0
  text : p.text = t

/-- On an empty page nothing but the text is written, whatever is owed. -/
theorem Flat.holds (h : p.Flat) (hempty : p.text = []) (t : Text) : Holds t (p.follow f (Layout.lit t)) where
  flat := (h.lit t).1
  owed := owed_put t false .literal
  text := by
    have hsettle : p.settle.text = [] := by
      by_cases hdue : p.due = 0
      · rw [settle_of_due hdue, hempty]
      · rw [Page.text, reversed_settle hdue, List.reverse_eq_nil_iff.mp hempty, breaks_nil]
        rfl
    rw [(h.lit t).2, hsettle, List.nil_append]

namespace Holds

variable {u : Text}

theorem lit (h : Holds u p) (t : Text) : Holds (u ++ t) (p.follow f (lit t)) where
  flat := (h.flat.lit t).1
  owed := owed_put t false .literal
  text := by rw [(h.flat.lit t).2, settle_of_due (due_of_owed h.owed), h.text]

/-- What is written after a line break begins a line. -/
theorem line (h : Holds u p) (t : Text) :
    Holds (Text.ended (Text.lines u) ++ t) (p.run f [.lineBreak, Layout.lit t]) where
  flat := (Flat.lit (p := p.owe 1) ⟨h.flat.margin, h.flat.tail⟩ t).1
  owed := owed_put t false .literal
  text := by
    have hdue : (p.owe 1).due = 1 := by
      unfold due owe
      rw [h.owed]
      split <;> rfl
    have hline := (Flat.lit (p := p.owe 1) (f := f) ⟨h.flat.margin, h.flat.tail⟩ t).2
    rw [text_settle hdue] at hline
    rw [← h.text]
    exact hline

end Holds

end Page

end Layout

end MarkupTree
