-- What writing does to a page, function by function: it leaves the setting of the
-- page alone, and it adds to the end of the output, where a wrap may turn the last
-- breakable space into a line break.
import MarkupTree.Layout.Instruction
import MarkupTree.Proofs.Layout.Lines

namespace MarkupTree

namespace Layout

/-- The escape writes no line feed of its own. It is not asked in a literal. -/
def Unbroken (escape : Escape) : Prop :=
  ∀ mode last c next begins, mode ≠ .literal → c ≠ '\n' → '\n' ∉ escape mode last c next begins

/-! ## What writing leaves alone -/

namespace Page

variable {f : Format} {p : Page}

/-- The margin, the line breaks owed and the two switches. Glyphs change none of
them. -/
def setting (p : Page) : Text × Nat × Bool × Bool := (p.margin, p.owed, p.oneLine, p.tightItem)

theorem setting_write (t : Text) : (p.write t).setting = p.setting := by
  unfold write
  split <;> rfl

theorem setting_wrap : (p.wrap f).setting = p.setting := by
  unfold wrap
  split
  · rfl
  · split <;> rfl

theorem setting_putSpace (breaks : Bool) : (p.putSpace breaks).setting = p.setting := by
  unfold putSpace
  split
  · rfl
  · cases breaks with
    | true => rfl
    | false => cases p.tail <;> rfl

theorem setting_startLine (c : Char) : (p.startLine c).setting = p.setting := by
  unfold startLine
  split
  · exact setting_write _
  · rfl

theorem setting_putChar (mode : Mode) (c : Char) (next : Option Char) :
    (p.putChar f mode c next).setting = p.setting := by
  unfold putChar
  dsimp only
  split
  · exact setting_startLine c
  · exact (setting_write _).trans (setting_startLine c)

theorem setting_putGlyph (mode : Mode) (g : Glyph) : (p.putGlyph f mode g).setting = p.setting := by
  cases g with
  | space breaks => exact setting_wrap.trans (setting_putSpace breaks)
  | char c next => exact setting_wrap.trans (setting_putChar mode c next)

theorem setting_foldl (mode : Mode) (gs : List Glyph) :
    (gs.foldl (putGlyph f mode) p).setting = p.setting := by
  induction gs generalizing p with
  | nil => rfl
  | cons g gs ih => rw [List.foldl_cons, ih, setting_putGlyph]

theorem margin_eq_of_setting {q : Page} (h : q.setting = p.setting) : q.margin = p.margin :=
  congrArg Prod.fst h

theorem owed_eq_of_setting {q : Page} (h : q.setting = p.setting) : q.owed = p.owed :=
  congrArg (·.2.1) h

/-- What each glyph keeps, as the glyphs still to come get fewer, a row of glyphs keeps. -/
theorem foldl_keeps (mode : Mode) (Inv : Page → List Glyph → Prop)
    (step : ∀ p g gs, p.margin = [] → Inv p (g :: gs) → Inv (p.putGlyph f mode g) gs)
    {gs rest : List Glyph} (hmargin : p.margin = []) (h : Inv p (gs ++ rest)) :
    Inv (gs.foldl (putGlyph f mode) p) rest := by
  induction gs generalizing p with
  | nil => exact h
  | cons g gs ih =>
    exact ih ((margin_eq_of_setting (setting_putGlyph mode g)).trans hmargin) (step p g _ hmargin h)

/-! ## Settling what is owed -/

/-- How many line breaks are written before more output. -/
def due (p : Page) : Nat := if p.tightItem then min p.owed 1 else p.owed

theorem owed_of_due (h : p.due = 0) : p.owed = 0 := by
  unfold due at h
  split at h <;> omega

theorem due_of_owed (h : p.owed = 0) : p.due = 0 := by
  unfold due
  split <;> omega

theorem settle_of_due (h : p.due = 0) : p.settle = p := if_pos h

theorem settle_eq (h : p.due ≠ 0) :
    p.settle =
      { p with
        past := (breaks p.emptyMargin p.due p.reversed).reverse ++ p.reversed
        tail := none
        column := 0
        owed := 0
        beginLine := true
        beginContent := true } := if_neg h

theorem setting_settle : p.settle.setting = (p.margin, 0, p.oneLine, p.tightItem) := by
  by_cases h : p.due = 0
  · rw [settle_of_due h, setting, owed_of_due h]
  · rw [settle_eq h]
    rfl

/-- Writing pays what is owed and leaves the rest of the setting alone. -/
theorem setting_put (t : Text) (wrap : Bool) (mode : Mode) :
    (p.put f t wrap mode).setting = (p.margin, 0, p.oneLine, p.tightItem) :=
  (setting_foldl mode _).trans setting_settle

theorem margin_put (t : Text) (wrap : Bool) (mode : Mode) : (p.put f t wrap mode).margin = p.margin :=
  congrArg Prod.fst (setting_put t wrap mode)

theorem owed_put (t : Text) (wrap : Bool) (mode : Mode) : (p.put f t wrap mode).owed = 0 :=
  congrArg (·.2.1) (setting_put t wrap mode)

/-! ## What writing adds -/

theorem reversed_of_none (h : p.tail = none) : p.reversed = p.past := by rw [reversed, h]

theorem reversed_of_some {t : List Char} (h : p.tail = some t) : p.reversed = t ++ ' ' :: p.past := by
  rw [reversed, h]

theorem reversed_settle (h : p.due ≠ 0) :
    p.settle.reversed = (breaks p.emptyMargin p.due p.reversed).reverse ++ p.reversed := by
  rw [settle_eq h]
  rfl

theorem margin_settle : p.settle.margin = p.margin := congrArg Prod.fst setting_settle

theorem reversed_startLine (c : Char) :
    (p.startLine c).reversed =
      if p.beginLine then
        (if c = '\n' then p.emptyMargin else p.margin).reverse ++ p.reversed
      else p.reversed := by
  unfold startLine
  split
  · exact reversed_write _ _
  · rfl

theorem write_nil : p.write [] = p := by
  unfold write
  split
  · rename_i h
    simp [← h]
  · rfl

theorem startLine_of_margin (h : p.margin = []) (c : Char) :
    p.startLine c = if p.beginLine then { p with column := 0 } else p := by
  have hwrite : p.write (if c = '\n' then p.emptyMargin else p.margin) = p := by
    have hempty : p.emptyMargin = [] := by
      rw [emptyMargin, h]
      rfl
    rw [hempty, h, ite_self, write_nil]
  have hlength : p.margin.length = 0 := List.length_eq_zero_iff.mpr h
  unfold startLine
  dsimp only
  rw [hwrite, hlength]

theorem reversed_putChar (mode : Mode) (c : Char) (next : Option Char) :
    ∃ t, (p.putChar f mode c next).reversed = t.reverse ++ (p.startLine c).reversed ∧
      t = if mode = .literal then [c]
        else f.escape mode (p.startLine c).reversed.head? c next (p.startLine c).beginContent := by
  refine ⟨_, ?_, rfl⟩
  unfold putChar
  dsimp only
  split
  · rename_i h
    rw [if_pos h.1, h.2]
    rfl
  · exact reversed_write _ _

/-- What a character is written as. -/
def ink (f : Format) (mode : Mode) (c : Char) (next : Option Char) (p : Page) : Text :=
  if mode = .literal then [c] else f.escape mode p.reversed.head? c next p.beginContent

/-- A character that is no line feed goes behind the margin. -/
theorem putChar_of_ne {c : Char} (hc : c ≠ '\n') (mode : Mode) (next : Option Char) :
    p.putChar f mode c next =
      { (p.startLine c).write (ink f mode c next (p.startLine c)) with
        beginLine := false
        beginContent := (p.startLine c).beginContent && c.isDigit } :=
  if_neg fun hbreak => hc hbreak.2

theorem newline_notMem_ink (hescape : Unbroken f.escape) {c : Char} (hc : c ≠ '\n') (mode : Mode)
    (next : Option Char) : '\n' ∉ ink f mode c next p := by
  unfold ink
  split
  · simpa using Ne.symm hc
  · rename_i hmode
    exact hescape mode _ c next _ hmode hc

/-! A page without a margin, such as that of a paragraph on its own -/

section

variable {mode : Mode} (hmargin : p.margin = []) (hmode : mode ≠ .literal)

include hmargin hmode

theorem putChar_of_none (htail : p.tail = none) (c : Char) (next : Option Char) :
    p.putChar f mode c next =
      { p with
        past := (f.escape mode p.reversed.head? c next p.beginContent).reverse ++ p.past
        column := (if p.beginLine then 0 else p.column) +
          (f.escape mode p.reversed.head? c next p.beginContent).length
        beginLine := false
        beginContent := p.beginContent && c.isDigit } := by
  unfold putChar
  rw [startLine_of_margin hmargin]
  dsimp only
  rw [if_neg fun h => hmode h.1, if_neg hmode]
  cases p.beginLine <;> simp [write, reversed, htail]

theorem putChar_of_some {t : List Char} (htail : p.tail = some t) (c : Char) (next : Option Char) :
    p.putChar f mode c next =
      { p with
        tail := some ((f.escape mode p.reversed.head? c next p.beginContent).reverse ++ t)
        column := (if p.beginLine then 0 else p.column) +
          (f.escape mode p.reversed.head? c next p.beginContent).length
        beginLine := false
        beginContent := p.beginContent && c.isDigit } := by
  unfold putChar
  rw [startLine_of_margin hmargin]
  dsimp only
  rw [if_neg fun h => hmode h.1, if_neg hmode]
  cases p.beginLine <;> simp [write, reversed, htail]

end

theorem reversed_putSpace (breaks : Bool) :
    (p.putSpace breaks).reversed = if p.beginLine then p.reversed else ' ' :: p.reversed := by
  unfold putSpace
  split
  · rfl
  · cases breaks with
    | true => rfl
    | false => cases h : p.tail <;> simp [reversed, h]

theorem beginLine_putSpace (breaks : Bool) : (p.putSpace breaks).beginLine = p.beginLine := by
  unfold putSpace
  split
  · rfl
  · cases breaks with
    | true => rfl
    | false => cases p.tail <;> rfl

theorem tail_write (t : Text) : (p.write t).tail = p.tail.map (t.reverse ++ ·) := by
  unfold write
  split
  · rename_i u hu
    rw [hu]
    rfl
  · rename_i hnone
    rw [hnone]
    rfl

theorem tail_putSpace (hbegun : p.beginLine = false) (breaks : Bool) :
    (p.putSpace breaks).tail = if breaks then some [] else p.tail.map (' ' :: ·) := by
  unfold putSpace
  rw [if_neg (by simp [hbegun])]
  cases breaks with
  | true => rfl
  | false => cases p.tail <;> rfl

theorem wrap_of_width (h : f.width = 0) : p.wrap f = p := if_pos (Or.inl h)

theorem wrap_of_beginLine (h : p.beginLine = true) : p.wrap f = p := if_pos (Or.inr (Or.inr h))

theorem wrap_of_tail (h : p.tail = none) : p.wrap f = p := by
  unfold wrap
  split
  · rfl
  · rw [h]

/-- A line that wraps gets the margin in the place of its last space. -/
theorem wrap_cases (f : Format) (p : Page) :
    p.wrap f = p ∨ ∃ t, p.tail = some t ∧ p.beginLine = false ∧
      (p.wrap f).reversed = t ++ p.margin.reverse ++ '\n' :: p.past ∧ (p.wrap f).beginLine = false := by
  unfold wrap
  split
  · exact Or.inl rfl
  · rename_i h
    cases ht : p.tail with
    | none => exact Or.inl rfl
    | some t =>
      refine Or.inr ⟨t, rfl, ?_, rfl, rfl⟩
      simp only [not_or] at h
      simpa using h.2.2

/-! What stands in front of the last breakable space stays -/

theorem past_suffix_reversed : p.past <:+ p.reversed := by
  unfold reversed
  split
  · rename_i t _
    exact ⟨t ++ [' '], by simp⟩
  · exact List.suffix_rfl

theorem past_suffix_wrap : p.past <:+ (p.wrap f).past := by
  unfold wrap
  split
  · exact List.suffix_rfl
  · split
    · exact List.suffix_rfl
    · rename_i t _
      exact ⟨t ++ p.margin.reverse ++ ['\n'], by simp⟩

/-- A line that is too wide ends at its last breakable space. -/
theorem newline_suffix_wrap {t : List Char} (hwidth : f.width ≠ 0) (hcolumn : f.width < p.column)
    (hbegun : p.beginLine = false) (htail : p.tail = some t) : '\n' :: p.past <:+ (p.wrap f).past := by
  unfold wrap
  rw [if_neg]
  · rw [htail]
    exact ⟨t ++ p.margin.reverse, rfl⟩
  · rintro (hzero | hle | htrue)
    · exact hwidth hzero
    · omega
    · cases hbegun.symm.trans htrue

theorem past_suffix_putSpace (breaks : Bool) : p.past <:+ (p.putSpace breaks).past := by
  unfold putSpace
  split
  · exact List.suffix_rfl
  · cases breaks with
    | true => exact past_suffix_reversed
    | false =>
      cases p.tail with
      | none => exact List.suffix_cons ' ' p.past
      | some t => exact List.suffix_rfl

theorem past_suffix_write (t : Text) : p.past <:+ (p.write t).past := by
  unfold write
  split
  · exact List.suffix_rfl
  · exact List.suffix_append _ _

theorem past_suffix_putChar (mode : Mode) (c : Char) (next : Option Char) :
    p.past <:+ (p.putChar f mode c next).past := by
  have hstart : p.past <:+ (p.startLine c).past := by
    unfold startLine
    split
    · exact past_suffix_write _
    · exact List.suffix_rfl
  unfold putChar
  dsimp only
  split
  · exact hstart.trans (past_suffix_reversed.trans (List.suffix_cons _ _))
  · exact hstart.trans (past_suffix_write _)

theorem past_suffix_putGlyph (mode : Mode) (g : Glyph) : p.past <:+ (p.putGlyph f mode g).past := by
  cases g with
  | space breaks => exact (past_suffix_putSpace breaks).trans past_suffix_wrap
  | char c next => exact (past_suffix_putChar mode c next).trans past_suffix_wrap

/-- A line that is ended in front of the last breakable space is a line of the file. -/
theorem mem_lines_finish {ls : List Text} {line l : Text} {past : List Char} (h : Text.Lined ls line past)
    (hpast : past <:+ p.past) (hl : l ∈ ls) : l ∈ Text.lines p.finish := by
  obtain ⟨rest, hrest⟩ := hpast.trans past_suffix_reversed
  have htext : p.text = Text.ended ls ++ (line ++ rest.reverse) := by
    rw [text, ← hrest, List.reverse_append, h.eq, List.append_assoc]
  have hfinish : ∃ t, p.finish = p.text ++ t := by
    unfold finish
    split
    · rename_i hnil
      exact ⟨[], by rw [text, hnil]; rfl⟩
    · exact ⟨[], (List.append_nil _).symm⟩
    · exact ⟨['\n'], rfl⟩
  obtain ⟨t, ht⟩ := hfinish
  rw [ht, htext, List.append_assoc, Text.lines_ended_append h.whole]
  exact List.mem_append_left _ hl

/-- The file of a page with a begun line ends that line. -/
theorem finish_of_lined {ls : List Text} {line : Text} (h : Text.Lined ls line p.reversed)
    (hne : line ≠ []) : p.finish = Text.ended (ls ++ [line]) := by
  obtain ⟨c, cs, hc, hreversed⟩ := h.exists_cons hne
  have htext : p.text ++ ['\n'] = Text.ended (ls ++ [line]) := by
    rw [text, h.eq, Text.ended_concat]
  unfold finish
  split
  · rename_i hnil
    cases hnil.symm.trans hreversed
  · rename_i hbreak
    cases hbreak.symm.trans hreversed
    exact absurd rfl hc
  · exact htext

/-- The file of a page with a begun line has that line last. -/
theorem lines_finish {ls : List Text} {line : Text} (h : Text.Lined ls line p.reversed)
    (hne : line ≠ []) : Text.lines p.finish = ls ++ [line] := by
  rw [finish_of_lined h hne, Text.ended_concat, ← h.eq]
  exact h.lines_eq

/-- The file of a page whose lines are all ended has no other line. -/
theorem lines_finish_of_nil {ls : List Text} (h : Text.Lined ls [] p.reversed) :
    Text.lines p.finish = ls := by
  have hlines : Text.lines p.text = ls := by
    have hended := Text.lines_ended_append h.whole []
    rw [text, h.eq, hended, Text.lines, List.append_nil]
  unfold finish
  split
  · rename_i hnil
    rw [text, hnil] at hlines
    exact hlines
  · exact hlines
  · rename_i hnil hbreak
    rcases h.head?_of_nil with hnone | hsome
    · exact absurd (List.head?_eq_none_iff.mp hnone) hnil
    · obtain ⟨cs, hcs⟩ := List.head?_eq_some_iff.mp hsome
      exact absurd hcs (hbreak cs)

/-- The file of a page of one line is the line with a line break, or nothing. -/
theorem finish_of_notMem (h : '\n' ∉ p.text) :
    p.finish.dropLast = p.text ∧ (p.finish = [] ∨ p.finish.getLast? = some '\n') := by
  rw [text, List.mem_reverse] at h
  unfold finish
  split
  · rename_i hnil
    exact ⟨by rw [text, hnil]; rfl, Or.inl rfl⟩
  · rename_i hbreak
    exact absurd (hbreak ▸ List.mem_cons_self) h
  · exact ⟨List.dropLast_concat, Or.inr List.getLast?_concat⟩

/-! ## Glyphs -/

theorem char_mem_of_glyph {wrap : Bool} {t : Text} {c : Char} {next : Option Char}
    (h : Glyph.char c next ∈ glyphs wrap t) : c ∈ t := by
  induction t with
  | nil => cases h
  | cons d ds ih =>
    unfold glyphs at h
    split at h
    · split at h
      · exact List.mem_cons_of_mem _ (ih h)
      · rcases List.mem_cons.mp h with h | h
        · cases h
        · exact List.mem_cons_of_mem _ (ih h)
    · rcases List.mem_cons.mp h with h | h
      · cases h
        exact List.mem_cons_self
      · exact List.mem_cons_of_mem _ (ih h)

end Page

end Layout

end MarkupTree
