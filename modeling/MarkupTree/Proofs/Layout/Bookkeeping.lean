-- The books that a page keeps of its output. A page that begins a line has written nothing
-- of it. On a line that is begun, the column counts what stands on the line, and the last
-- breakable space is one of its characters. Each function of the page is told by what it
-- does to the whole lines and to the line that goes on.
import MarkupTree.Proofs.Layout.Writers

namespace MarkupTree

namespace Text

/-- A line that is cut goes on from the lines before it. -/
theorem Lined.cut {ls : List Text} {front : Text} {t past : List Char} {c : Char}
    (h : Lined ls (front ++ c :: t.reverse) (t ++ c :: past)) : Lined ls front past where
  eq := by
    have heq := h.eq
    rw [List.reverse_append, List.reverse_cons, List.append_assoc, ← List.append_assoc (ended ls)] at heq
    exact List.append_cancel_right heq
  whole := h.whole
  goesOn := by
    have hgoes := h.goesOn
    rw [List.mem_append, not_or] at hgoes
    exact hgoes.1

end Text

namespace Layout

open Text (Lined)

namespace Page

variable {f : Format} {p : Page} {ls : List Text} {line t : Text} {mode : Mode} {c : Char}

/-! ## Lines and the line that goes on -/

/-- The page has the whole lines `ls` and stands on a line that is begun. -/
structure Begun (ls : List Text) (line : Text) (p : Page) : Prop where
  margin : '\n' ∉ p.margin
  lined : Lined ls line p.reversed
  column : p.column = line.length
  /-- The last breakable space stands on the line. -/
  tail : ∀ t, p.tail = some t → ∃ front, line = front ++ ' ' :: t.reverse

/-- The page has the whole lines `ls`, and `line` is what it has of the next one. -/
inductive Books (ls : List Text) (line : Text) (p : Page) : Prop
  | fresh (begins : p.beginLine = true) (line : line = []) (margin : '\n' ∉ p.margin)
    (lined : Lined ls [] p.reversed) (tail : p.tail = none)
  | begun (begins : p.beginLine = false) (begun : Begun ls line p)

theorem Books.start : Books [] [] {} := .fresh rfl rfl (by decide) .nil rfl

theorem Books.lined (h : Books ls line p) : Lined ls line p.reversed := by
  cases h with
  | fresh _ hline _ hlined _ => exact hline ▸ hlined
  | begun _ h => exact h.lined

theorem Books.margin (h : Books ls line p) : '\n' ∉ p.margin := by
  cases h with
  | fresh _ _ hmargin _ _ => exact hmargin
  | begun _ h => exact h.margin

/-- What an empty line has of the margin is a beginning of it. -/
theorem emptyMargin_prefix (p : Page) : p.emptyMargin <+: p.margin := by
  unfold emptyMargin Text.trimEnd Text.dropEndWhile
  rw [← List.reverse_suffix, List.reverse_reverse]
  exact List.dropWhile_suffix _

/-! ## On a begun line -/

namespace Begun

theorem write (h : Begun ls line p) (ht : '\n' ∉ t) : Begun ls (line ++ t) (p.write t) where
  margin := by
    rw [margin_eq_of_setting (setting_write t)]
    exact h.margin
  lined := by
    rw [reversed_write]
    exact h.lined.append ht
  column := by
    have hcolumn : (p.write t).column = p.column + t.length := by
      unfold Page.write
      split <;> rfl
    rw [hcolumn, h.column, List.length_append]
  tail := by
    intro u hu
    unfold Page.write at hu
    split at hu
    · rename_i s hs
      cases hu
      obtain ⟨front, rfl⟩ := h.tail s hs
      exact ⟨front, by simp⟩
    · rename_i hnone
      cases hnone.symm.trans hu

theorem putSpace (h : Begun ls line p) (hbegun : p.beginLine = false) (breaks : Bool) :
    Begun ls (line ++ [' ']) (p.putSpace breaks) := by
  have hspace : '\n' ∉ [' '] := by decide
  unfold Page.putSpace
  rw [if_neg (by simp [hbegun])]
  cases breaks with
  | true =>
    refine ⟨h.margin, h.lined.append hspace, ?_, ?_⟩
    · simp [h.column]
    · intro t ht
      cases ht
      exact ⟨line, rfl⟩
  | false =>
    have hwrite := h.write hspace
    unfold Page.write at hwrite
    cases htail : p.tail with
    | none =>
      rw [htail] at hwrite
      exact ⟨hwrite.margin, hwrite.lined, hwrite.column, hwrite.tail⟩
    | some t =>
      rw [htail] at hwrite
      exact ⟨hwrite.margin, hwrite.lined, hwrite.column, hwrite.tail⟩

/-- A line is left as it is where it is not too wide or has no breakable space. Else it
ends in front of that space. -/
theorem wrap (h : Begun ls line p) (hbegun : p.beginLine = false) (f : Format) :
    p.wrap f = p ∧ (f.width = 0 ∨ p.column ≤ f.width ∨ p.tail = none) ∨
      ∃ front t, p.tail = some t ∧ line = front ++ ' ' :: t.reverse ∧ (p.wrap f).tail = none ∧
        (p.wrap f).beginLine = false ∧ Begun (ls ++ [front]) (p.margin ++ t.reverse) (p.wrap f) := by
  by_cases hstay : f.width = 0 ∨ p.column ≤ f.width ∨ p.beginLine = true
  · refine Or.inl ⟨if_pos hstay, ?_⟩
    exact hstay.imp id (Or.imp id fun hline => by simp [hbegun] at hline)
  · cases htail : p.tail with
    | none => exact Or.inl ⟨wrap_of_tail htail, Or.inr (Or.inr rfl)⟩
    | some t =>
      obtain ⟨front, rfl⟩ := h.tail t htail
      have hwrap : p.wrap f = { p with
          past := t ++ p.margin.reverse ++ '\n' :: p.past
          tail := none
          column := p.margin.length + t.length
          beginLine := false
          beginContent := false } := by
        rw [Page.wrap, if_neg hstay, htail]
      have hlined := h.lined
      rw [reversed_of_some htail] at hlined
      have hline : '\n' ∉ p.margin ++ t.reverse := by
        have hgoes := hlined.goesOn
        simp only [List.mem_append, List.mem_cons, not_or] at hgoes ⊢
        exact ⟨h.margin, hgoes.2.2⟩
      refine Or.inr ⟨front, t, rfl, rfl, by rw [hwrap], by rw [hwrap], ?_⟩
      rw [hwrap]
      refine ⟨h.margin, ?_, by simp, by simp⟩
      show Lined _ _ (t ++ p.margin.reverse ++ '\n' :: p.past)
      simpa using hlined.cut.newline.append hline

end Begun

/-! ## Functions of the page -/

namespace Books

/-- The line that more output goes on with: a new line starts with the margin. -/
def startOf (p : Page) (line : Text) : Text := if p.beginLine then p.margin else line

theorem startLine (h : Books ls line p) (hc : c ≠ '\n') : Begun ls (startOf p line) (p.startLine c) := by
  cases h with
  | fresh hbegins hline hmargin hlined htail =>
    have hstart : p.startLine c =
        { p with past := p.margin.reverse ++ p.past, column := p.margin.length } := by
      simp [Page.startLine, hbegins, hc, Page.write, htail]
    have hmore := hlined.append hmargin
    rw [reversed_of_none htail] at hmore
    rw [hstart, startOf, if_pos hbegins]
    refine ⟨hmargin, ?_, rfl, ?_⟩
    · simpa [reversed, htail] using hmore
    · intro t ht
      cases htail.symm.trans ht
  | begun hbegins h =>
    rw [Page.startLine, startOf, hbegins]
    exact h

theorem putChar (h : Books ls line p) (hescape : Unbroken f.escape) (hc : c ≠ '\n')
    (next : Option Char) :
    Begun ls (startOf p line ++ ink f mode c next (p.startLine c)) (p.putChar f mode c next) := by
  have hwrite := (h.startLine hc).write (newline_notMem_ink (p := p.startLine c) hescape hc mode next)
  rw [putChar_of_ne hc]
  exact ⟨hwrite.margin, hwrite.lined, hwrite.column, hwrite.tail⟩

/-- A line feed of a literal ends the line, of which it writes the margin first if it is
empty. -/
theorem endLine (h : Books ls line p) (f : Format) (next : Option Char) :
    Books (ls ++ [if p.beginLine then p.emptyMargin else line]) [] (p.putChar f .literal '\n' next) := by
  have hbreak : p.putChar f .literal '\n' next = (p.startLine '\n').newline := by
    rw [Page.putChar, if_pos ⟨rfl, rfl⟩]
  have hlined : Lined ls (if p.beginLine then p.emptyMargin else line) (p.startLine '\n').reversed := by
    rw [reversed_startLine]
    cases h with
    | fresh hbegins hline hmargin hlined _ =>
      rw [if_pos hbegins, if_pos hbegins, if_pos rfl]
      exact hlined.append fun hmem => hmargin (p.emptyMargin_prefix.subset hmem)
    | begun hbegins h =>
      simpa [hbegins] using h.lined
  have hmargin : (p.startLine '\n').margin = p.margin :=
    margin_eq_of_setting (setting_startLine '\n')
  rw [hbreak]
  refine .fresh rfl rfl ?_ hlined.newline rfl
  show '\n' ∉ (p.startLine '\n').margin
  rw [hmargin]
  exact h.margin

/-- A space at the start of a line is left out. -/
theorem putSpace (h : Books ls line p) (breaks : Bool) :
    Books ls (if p.beginLine then line else line ++ [' ']) (p.putSpace breaks) := by
  cases hbegins : p.beginLine with
  | true =>
    rw [Page.putSpace, if_pos hbegins]
    exact h
  | false =>
    cases h with
    | fresh htrue => cases hbegins.symm.trans htrue
    | begun _ h =>
      refine .begun ?_ (h.putSpace hbegins breaks)
      rw [beginLine_putSpace]
      exact hbegins

/-! ## Breaks that are owed -/

/-- The breaks that are written are none or those behind a line that is begun. -/
theorem breaks_cases (margin : Text) (n : Nat) (output : List Char) :
    breaks margin n output = [] ∨
      ∃ k c cs, c ≠ '\n' ∧ breaks margin n output = breaks margin (k + 1) (c :: cs) := by
  induction n generalizing output with
  | zero => exact Or.inl rfl
  | succ n ih =>
    cases output with
    | nil => exact ih []
    | cons c cs =>
      by_cases hc : c = '\n'
      · rw [breaks, if_pos hc]
        exact ih cs
      · exact Or.inr ⟨n, c, cs, hc, rfl⟩

theorem lined_breaks {margin : Text} (hmargin : '\n' ∉ margin) {c : Char} (hc : c ≠ '\n')
    (cs : List Char) {output : List Char} (k : Nat) (h : Lined ls line output) :
    Lined (ls ++ line :: List.replicate k margin) []
      ((breaks margin (k + 1) (c :: cs)).reverse ++ output) := by
  induction k generalizing ls line output with
  | zero => simpa [breaks, hc] using h.newline
  | succ k ih =>
    have hempty := ih (h.newline.append hmargin)
    rw [breaks, if_neg hc, if_neg (Nat.succ_ne_zero k)]
    simpa [List.replicate_succ] using hempty

/-- Where no break is written though one is owed, no line goes on. -/
theorem eq_nil_of_breaks {margin : Text} {n : Nat} {output : List Char} (hn : n ≠ 0)
    (hnone : breaks margin n output = []) (h : Lined ls line output) : line = [] := by
  by_cases hne : line = []
  · exact hne
  · obtain ⟨c, cs, hc, rfl⟩ := h.exists_cons hne
    obtain ⟨k, rfl⟩ := Nat.exists_eq_succ_of_ne_zero hn
    rw [breaks, if_neg hc] at hnone
    cases hnone

/-- Settling ends the line that goes on, if there is one, and adds empty lines. -/
theorem settle (h : Books ls line p) (hdue : p.due ≠ 0) :
    ∃ more, Books (ls ++ more) [] p.settle ∧
      (more = [] ∧ line = [] ∨ ∃ k, more = line :: List.replicate k p.emptyMargin) := by
  have hmargin : '\n' ∉ p.emptyMargin := fun hmem => h.margin (p.emptyMargin_prefix.subset hmem)
  have hsettle : ∀ {ls'}, Lined ls' [] p.settle.reversed → Books ls' [] p.settle := by
    intro ls' hlined
    refine .fresh ?_ rfl ?_ hlined ?_
    · rw [settle_eq hdue]
    · rw [margin_settle]
      exact h.margin
    · rw [settle_eq hdue]
  rw [reversed_settle hdue] at hsettle
  rcases breaks_cases p.emptyMargin p.due p.reversed with hnone | ⟨k, c, cs, hc, hbreaks⟩
  · have hline : line = [] := eq_nil_of_breaks hdue hnone h.lined
    subst hline
    refine ⟨[], hsettle ?_, Or.inl ⟨rfl, rfl⟩⟩
    rw [hnone, List.append_nil]
    exact h.lined
  · refine ⟨line :: List.replicate k p.emptyMargin, hsettle ?_, Or.inr ⟨k, rfl⟩⟩
    rw [hbreaks]
    exact lined_breaks hmargin hc cs k h.lined

/-! ## Chunks and instructions -/

theorem wrap (h : Books ls line p) (f : Format) : ∃ ls' line', Books ls' line' (p.wrap f) := by
  cases hbegins : p.beginLine with
  | true =>
    rw [wrap_of_beginLine hbegins]
    exact ⟨ls, line, h⟩
  | false =>
    cases h with
    | fresh htrue => cases hbegins.symm.trans htrue
    | begun _ h =>
      rcases h.wrap hbegins f with ⟨hwrap, -⟩ | ⟨front, t, -, -, -, hbegun, hwrapped⟩
      · rw [hwrap]
        exact ⟨ls, line, .begun hbegins h⟩
      · exact ⟨_, _, .begun hbegun hwrapped⟩

theorem putGlyph (h : Books ls line p) (hescape : Unbroken f.escape) {g : Glyph}
    (hg : ∀ next, g = .char '\n' next → mode = .literal) :
    ∃ ls' line', Books ls' line' (p.putGlyph f mode g) := by
  cases g with
  | space breaks => exact (h.putSpace breaks).wrap f
  | char c next =>
    by_cases hc : c = '\n'
    · subst hc
      obtain rfl := hg next rfl
      exact (h.endLine f next).wrap f
    · have hbegins : (p.putChar f mode c next).beginLine = false := by rw [putChar_of_ne hc]
      exact (Books.begun hbegins (h.putChar hescape hc next)).wrap f

theorem foldl (h : Books ls line p) (hescape : Unbroken f.escape) {gs : List Glyph}
    (hgs : ∀ next, Glyph.char '\n' next ∈ gs → mode = .literal) :
    ∃ ls' line', Books ls' line' (gs.foldl (Page.putGlyph f mode) p) := by
  apply List.foldlRecOn (motive := fun q => ∃ ls' line', Books ls' line' q)
  · exact ⟨ls, line, h⟩
  · rintro q ⟨ls', line', hq⟩ g hg
    apply hq.putGlyph hescape
    rintro next rfl
    exact hgs next hg

theorem put (h : Books ls line p) (hescape : Unbroken f.escape) (ht : mode = .literal ∨ '\n' ∉ t)
    (wrap : Bool) : ∃ ls' line', Books ls' line' (p.put f t wrap mode) := by
  have hgs : ∀ next, Glyph.char '\n' next ∈ glyphs (wrap && !p.oneLine) t → mode = .literal := by
    intro next hmem
    exact ht.resolve_right fun hnot => hnot (char_mem_of_glyph hmem)
  by_cases hdue : p.due = 0
  · rw [Page.put, settle_of_due hdue]
    exact h.foldl hescape hgs
  · obtain ⟨more, hbooks, -⟩ := h.settle hdue
    exact hbooks.foldl hescape hgs

end Books

end Page

/-- The operation brings no line feed, unless it is one of a literal. -/
def Writer.Operation.keepsLines : Writer.Operation → Prop
  | .put t _ mode => mode = .literal ∨ '\n' ∉ t
  | .indent margin => '\n' ∉ margin
  | _ => True

namespace Page

variable {f : Format} {p : Page} {ls : List Text} {line : Text}

/-- The books depend on the margin, the output, the column and the start of the line. -/
theorem Books.of_same {q : Page} (h : Books ls line p) (hmargin : '\n' ∉ q.margin)
    (hpast : q.past = p.past) (htail : q.tail = p.tail) (hcolumn : q.column = p.column)
    (hbegins : q.beginLine = p.beginLine) : Books ls line q := by
  have hreversed : q.reversed = p.reversed := by
    unfold reversed
    rw [htail, hpast]
  cases h with
  | fresh hp hline _ hlined hnone =>
    exact .fresh (hbegins.trans hp) hline hmargin (hreversed ▸ hlined) (htail.trans hnone)
  | begun hp h =>
    exact .begun (hbegins.trans hp)
      ⟨hmargin, hreversed ▸ h.lined, hcolumn.trans h.column, htail ▸ h.tail⟩

theorem Books.operate (h : Books ls line p) (hescape : Unbroken f.escape) {o : Writer.Operation}
    (ho : o.keepsLines) : ∃ ls' line', Books ls' line' (p.operate f o) := by
  cases o with
  | put t wraps mode => exact h.put hescape ho wraps
  | indent margin =>
    have hmargin : '\n' ∉ p.margin ++ margin := by
      rw [List.mem_append, not_or]
      exact ⟨h.margin, ho⟩
    exact ⟨ls, line, h.of_same hmargin rfl rfl rfl rfl⟩
  | truncate length =>
    have hmargin : '\n' ∉ (Text.takeBytes length p.margin).getD p.margin := by
      cases htake : Text.takeBytes length p.margin with
      | none => exact h.margin
      | some front =>
        exact fun hmem => h.margin ((Text.takeBytes_eq_some_iff.mp htake).1.subset hmem)
    exact ⟨ls, line, h.of_same hmargin rfl rfl rfl rfl⟩
  | _ => exact ⟨ls, line, h.of_same h.margin rfl rfl rfl rfl⟩

end Page

namespace Writer

open Page (Books)

variable {f : Format} {w : Writer} {p : Page} {ls : List Text} {line : Text}

/-- A writer that has run is a page, the books of which are right. -/
theorem exists_page (hescape : Unbroken f.escape) (h : Books ls line p) {os : List Operation}
    (hos : ∀ o ∈ os, o.keepsLines) (hrun : p.writer.run f os = some w) :
    ∃ q ls' line', w = q.writer ∧ Books ls' line' q := by
  induction os generalizing p ls line with
  | nil =>
    cases hrun
    exact ⟨p, ls, line, rfl, h⟩
  | cons o os ih =>
    by_cases hsplits : o.Splits p.margin
    · rw [run, List.foldlM_cons, operate_of_splits hsplits] at hrun
      cases hrun
    · rw [run_writer hsplits] at hrun
      obtain ⟨ls', line', hbooks⟩ := h.operate hescape (hos o List.mem_cons_self)
      exact ih hbooks (fun o ho => hos o (List.mem_cons_of_mem _ ho)) hrun

/-! ## What the books say -/

/-- What the buffer has after its last line feed. -/
def lastLine (w : Writer) : Text := (w.buffer.reverse.takeWhile (· != '\n')).reverse

/-- The books of the writer are those of its buffer. -/
structure Kept (w : Writer) : Prop where
  /-- A writer that begins a line has nothing on it. -/
  begins : w.beginLine = true → w.buffer = [] ∨ w.buffer.getLast? = some '\n'
  column : w.beginLine = false → w.column = w.lastLine.length
  /-- At the last breakable space stands a space, with no line feed after it. -/
  breakable : ∀ k, w.breakAt = some k →
    ∃ rest, Text.dropBytes k w.buffer = some (' ' :: rest) ∧ '\n' ∉ rest

theorem lastLine_eq (h : Lined ls line p.reversed) : p.writer.lastLine = line := by
  have hreversed : p.reversed = line.reverse ++ (Text.ended ls).reverse := by
    rw [← List.reverse_append, ← h.eq, List.reverse_reverse]
  have hline : ∀ c ∈ line.reverse, (c != '\n') = true := by
    intro c hc
    have hne : c ≠ '\n' := fun heq => h.goesOn (heq ▸ List.mem_reverse.mp hc)
    simpa using hne
  have hended : (Text.ended ls).reverse.takeWhile (· != '\n') = [] := by
    rcases List.eq_nil_or_concat ls with rfl | ⟨front, l, rfl⟩
    · rfl
    · rw [List.concat_eq_append, Text.ended_concat, List.reverse_append]
      rfl
  rw [lastLine, show p.writer.buffer.reverse = p.reversed from List.reverse_reverse _, hreversed,
    List.takeWhile_append_of_pos hline, hended, List.append_nil, List.reverse_reverse]

theorem kept_of_books (h : Books ls line p) : p.writer.Kept where
  begins hbegins := by
    cases h with
    | fresh _ _ _ hlined _ =>
      show p.text = [] ∨ p.text.getLast? = some '\n'
      rw [Page.text, List.getLast?_reverse, List.reverse_eq_nil_iff, ← List.head?_eq_none_iff]
      exact hlined.head?_of_nil
    | begun hfalse => cases hbegins.symm.trans hfalse
  column hbegins := by
    cases h with
    | fresh htrue => cases hbegins.symm.trans htrue
    | begun _ h => exact h.column.trans (congrArg List.length (lastLine_eq h.lined).symm)
  breakable k hk := by
    obtain ⟨t, htail, rfl⟩ := Option.map_eq_some_iff.mp hk
    cases h with
    | fresh _ _ _ _ hnone => cases hnone.symm.trans htail
    | begun _ h =>
      obtain ⟨front, rfl⟩ := h.tail t htail
      have htext : p.text = p.past.reverse ++ ' ' :: t.reverse := by
        simp [Page.text, Page.reversed_of_some htail]
      have hgoes := h.lined.goesOn
      simp only [List.mem_append, List.mem_cons, not_or] at hgoes
      refine ⟨t.reverse, ?_, hgoes.2.2⟩
      show Text.dropBytes _ p.text = _
      rw [htext, Text.dropBytes_append]

end Writer

end Layout

end MarkupTree
