-- Lines that stand one below the other, with no empty line between them. A page without a
-- width takes chunks that are written as they are, and where one line break is owed at
-- most, the next chunk begins the next line.
import MarkupTree.Proofs.Layout.Bookkeeping

namespace MarkupTree

namespace Layout

open Text (Lined)

/-- The chunk stays on its line, and its characters are written as they are. -/
structure Plain (escape : Escape) (mode : Mode) (t : Text) : Prop where
  newline : '\n' ∉ t
  kept : mode ≠ .literal → ∀ c ∈ t, ∀ last next begins, escape mode last c next begins = [c]

theorem Plain.of_literal {escape : Escape} {t : Text} (ht : '\n' ∉ t) : Plain escape .literal t :=
  ⟨ht, fun hmode => absurd rfl hmode⟩

namespace Page

variable {f : Format} {p : Page} {ls lines : List Text} {line margin t : Text} {mode : Mode} {c : Char}

/-! ## Chunks on a line -/

/-- The page has the whole lines `ls` and stands on a line that is begun, inside the
margin. -/
structure Sets (margin : Text) (ls : List Text) (line : Text) (p : Page) : Prop where
  margin_eq : p.margin = margin
  begins : p.beginLine = false
  begun : Begun ls line p

/-- What does not write keeps the line. -/
theorem Sets.of_same {q : Page} (h : Sets margin ls line p) (hmargin : '\n' ∉ q.margin)
    (hpast : q.past = p.past) (htail : q.tail = p.tail) (hcolumn : q.column = p.column)
    (hbegins : q.beginLine = p.beginLine) : Sets q.margin ls line q where
  margin_eq := rfl
  begins := hbegins.trans h.begins
  begun := by
    have hbooks := (Books.begun h.begins h.begun).of_same hmargin hpast htail hcolumn hbegins
    cases hbooks with
    | fresh htrue => cases h.begins.symm.trans (hbegins.symm.trans htrue)
    | begun _ hbegun => exact hbegun

theorem Sets.tightItem (h : Sets margin ls line p) (on : Bool) :
    Sets margin ls line { p with tightItem := on } := by
  have hsame := h.of_same (q := { p with tightItem := on }) h.begun.margin rfl rfl rfl rfl
  exact ⟨h.margin_eq, hsame.begins, hsame.begun⟩

/-- The line keeps the margin that it began with, and those after it get more. -/
theorem Sets.indent (h : Sets margin ls line p) {more : Text} (hmore : '\n' ∉ more) :
    Sets (margin ++ more) ls line (p.run f [.beginContent, .indent more]) := by
  have hmargin : '\n' ∉ p.margin ++ more := by
    rw [List.mem_append, not_or]
    exact ⟨h.begun.margin, hmore⟩
  rw [← h.margin_eq]
  exact h.of_same (q := p.run f [.beginContent, .indent more]) hmargin rfl rfl rfl rfl

theorem Books.putGlyph_plain (h : Books ls line p) (hescape : Unbroken f.escape) (hwidth : f.width = 0)
    (ht : Plain f.escape mode t) (hc : c ∈ t) (next : Option Char) :
    Sets p.margin ls (startOf p line ++ [c]) (p.putGlyph f mode (.char c next)) := by
  have hne : c ≠ '\n' := fun heq => ht.newline (heq ▸ hc)
  have hink : ink f mode c next (p.startLine c) = [c] := by
    unfold ink
    split
    · rfl
    · rename_i hmode
      exact ht.kept hmode c hc _ next _
  have hput : Begun ls (startOf p line ++ ink f mode c next (p.startLine c))
      (p.putChar f mode c next) := h.putChar hescape hne next
  rw [hink] at hput
  rw [Page.putGlyph, wrap_of_width hwidth]
  refine ⟨margin_eq_of_setting (setting_putChar mode c next), ?_, hput⟩
  rw [putChar_of_ne hne]

/-- A chunk goes behind the line, or behind the margin of a new one. -/
theorem Books.foldl_plain (h : Books ls line p) (hescape : Unbroken f.escape) (hwidth : f.width = 0)
    (ht : Plain f.escape mode t) (hne : t ≠ []) :
    Sets p.margin ls (startOf p line ++ t) ((glyphs false t).foldl (Page.putGlyph f mode) p) := by
  induction t generalizing p line with
  | nil => exact absurd rfl hne
  | cons c cs ih =>
    have hchar := h.putGlyph_plain hescape hwidth ht List.mem_cons_self cs.head?
    have hglyphs : glyphs false (c :: cs) = .char c cs.head? :: glyphs false cs := by simp [glyphs]
    rw [hglyphs, List.foldl_cons]
    by_cases hcs : cs = []
    · subst hcs
      exact hchar
    · have hrest : Plain f.escape mode cs :=
        ⟨fun hmem => ht.newline (List.mem_cons_of_mem c hmem),
          fun hmode d hd => ht.kept hmode d (List.mem_cons_of_mem c hd)⟩
      have hmore := ih (.begun hchar.begins hchar.begun) hrest hcs
      rw [startOf, hchar.begins, if_neg Bool.false_ne_true, hchar.margin_eq, List.append_assoc] at hmore
      exact hmore

theorem Sets.put (h : Sets margin ls line p) (hescape : Unbroken f.escape) (hwidth : f.width = 0)
    (ht : Plain f.escape mode t) (hne : t ≠ []) (howed : p.owed = 0) :
    Sets margin ls (line ++ t) (p.put f t false mode) := by
  have hput := (Books.begun h.begins h.begun).foldl_plain hescape hwidth ht hne
  rw [Books.startOf, h.begins, if_neg Bool.false_ne_true, h.margin_eq] at hput
  rw [Page.put, settle_of_due (due_of_owed howed)]
  exact hput

/-! ## Lines below each other -/

/-- Where one break is due, settling ends the line and no more. -/
theorem Sets.settle (h : Sets margin ls line p) (hne : line ≠ []) (hdue : p.due = 1) :
    Books (ls ++ [line]) [] p.settle := by
  have hpos : p.due ≠ 0 := by omega
  obtain ⟨c, cs, hc, hcs⟩ := h.begun.lined.exists_cons hne
  have hmargin : '\n' ∉ p.emptyMargin := fun hmem =>
    h.begun.margin (p.emptyMargin_prefix.subset hmem)
  have hlined := Books.lined_breaks hmargin hc cs 0 h.begun.lined
  refine .fresh ?_ rfl ?_ ?_ ?_
  · rw [settle_eq hpos]
  · rw [margin_settle]
    exact h.begun.margin
  · rw [reversed_settle hpos, hdue, hcs]
    rw [hcs] at hlined
    exact hlined
  · rw [settle_eq hpos]

/-- The page has the lines, and what comes next stands on a new one. -/
inductive Awaits (margin : Text) (lines : List Text) (p : Page) : Prop
  | empty (none : lines = []) (margin_eq : p.margin = margin) (begins : p.beginLine = true)
      (owed : p.owed = 0) (books : Books [] [] p)
  | owes {ls : List Text} {line : Text} (eq : lines = ls ++ [line]) (ne_nil : line ≠ [])
      (sets : Sets margin ls line p) (owed : p.owed ≠ 0)

theorem Awaits.start : Awaits [] [] {} := .empty rfl rfl rfl rfl .start

/-- More breaks that are owed end the line. -/
theorem Sets.owe (h : Sets margin ls line p) (hne : line ≠ []) {n : Nat} (hn : n ≠ 0) :
    Awaits margin (ls ++ [line]) (p.owe n) := by
  have hsame := h.of_same (q := p.owe n) h.begun.margin rfl rfl rfl rfl
  have howed : (p.owe n).owed ≠ 0 := by
    unfold Page.owe
    dsimp only
    omega
  exact .owes rfl hne ⟨h.margin_eq, hsame.begins, hsame.begun⟩ howed

namespace Awaits

theorem newline_notMem (h : Awaits margin lines p) : '\n' ∉ p.margin := by
  cases h with
  | empty _ _ _ _ hbooks => exact hbooks.margin
  | owes _ _ hsets _ => exact hsets.begun.margin

theorem margin_eq (h : Awaits margin lines p) : p.margin = margin := by
  cases h with
  | empty _ hmargin => exact hmargin
  | owes _ _ hsets _ => exact hsets.margin_eq

/-- A page that has lines owes at least the end of the last one. -/
theorem owed_ne_zero (h : Awaits margin lines p) (hlines : lines ≠ []) : p.owed ≠ 0 := by
  cases h with
  | empty hnone => exact absurd hnone hlines
  | owes _ _ _ howed => exact howed

/-- What does not write keeps the lines, if it leaves the breaks owed. -/
theorem of_same {q : Page} (h : Awaits margin lines p) (hmargin : '\n' ∉ q.margin)
    (hpast : q.past = p.past) (htail : q.tail = p.tail) (hcolumn : q.column = p.column)
    (hbegins : q.beginLine = p.beginLine) (howed : q.owed = 0 ↔ p.owed = 0) :
    Awaits q.margin lines q := by
  cases h with
  | empty hnone _ hbegins' howed' hbooks =>
    have hbooks' := hbooks.of_same hmargin hpast htail hcolumn hbegins
    exact .empty hnone rfl (hbegins.trans hbegins') (howed.mpr howed') hbooks'
  | owes heq hne hsets howed' =>
    exact .owes heq hne (hsets.of_same hmargin hpast htail hcolumn hbegins) (mt howed.mp howed')

theorem tightItem (h : Awaits margin lines p) (on : Bool) :
    Awaits margin lines { p with tightItem := on } := by
  have hsame := h.of_same (q := { p with tightItem := on }) h.newline_notMem rfl rfl rfl rfl Iff.rfl
  rw [← h.margin_eq]
  exact hsame

/-- Where a line is owed its end, a break changes nothing, and the margin may get less. -/
theorem outdent {more : Text} (h : Awaits (margin ++ more) lines p) (hlines : lines ≠ []) :
    Awaits margin lines (p.run f [.outdent more.length, .lineBreak]) := by
  have htake : p.margin.take (p.margin.length - more.length) = margin := by
    rw [h.margin_eq, List.length_append, Nat.add_sub_cancel, List.take_left]
  have hmargin : '\n' ∉ p.margin.take (p.margin.length - more.length) := fun hmem =>
    h.newline_notMem (List.mem_of_mem_take hmem)
  have howed : (p.run f [.outdent more.length, .lineBreak]).owed = 0 ↔ p.owed = 0 := by
    have hpos := h.owed_ne_zero hlines
    show max p.owed 1 = 0 ↔ p.owed = 0
    omega
  have hsame := h.of_same (q := p.run f [.outdent more.length, .lineBreak]) hmargin rfl rfl rfl rfl
    howed
  rwa [show (p.run f [.outdent more.length, .lineBreak]).margin = margin from htake] at hsame

/-- The next chunk begins the next line, if no empty line comes between. -/
theorem put (h : Awaits margin lines p) (htight : p.tightItem = true ∨ lines = [])
    (hescape : Unbroken f.escape) (hwidth : f.width = 0) (ht : Plain f.escape mode t) (hne : t ≠ []) :
    Sets margin lines (margin ++ t) (p.put f t false mode) := by
  cases h with
  | empty hnone hmargin hbegins howed hbooks =>
    have hput := hbooks.foldl_plain hescape hwidth ht hne
    rw [Books.startOf, if_pos hbegins, hmargin] at hput
    rw [Page.put, settle_of_due (due_of_owed howed), hnone]
    exact hput
  | @owes ls line heq hline hsets howed =>
    -- an empty line may be owed, of which a tight item leaves the end of the line
    have hon : p.tightItem = true := htight.resolve_right (by simp [heq])
    have hdue : p.due = 1 := by
      rw [due, if_pos hon]
      omega
    have hpos : p.due ≠ 0 := by omega
    have hbegins : p.settle.beginLine = true := by rw [settle_eq hpos]
    have hput := (hsets.settle hline hdue).foldl_plain hescape hwidth ht hne
    rw [Books.startOf, if_pos hbegins, margin_settle, hsets.margin_eq] at hput
    rw [Page.put, heq]
    exact hput

end Awaits

/-- The file of the page is its lines. -/
theorem Awaits.finish_eq (h : Awaits margin lines p) : p.finish = Text.ended lines := by
  cases h with
  | empty hnone _ _ _ hbooks =>
    have hreversed : p.reversed = [] := by
      have heq := hbooks.lined.eq
      simpa [Text.ended] using heq
    rw [finish, hreversed, hnone]
    rfl
  | owes heq hne hsets _ =>
    rw [heq, finish_of_lined hsets.begun.lined hne]

/-- The lines of the page are those of its file. -/
theorem Awaits.lines_eq (h : Awaits margin lines p) : Text.lines (Text.ended lines) = lines := by
  rw [← h.finish_eq]
  cases h with
  | empty hnone _ _ _ hbooks => exact hnone ▸ lines_finish_of_nil hbooks.lined
  | owes heq hne hsets _ => exact heq ▸ lines_finish hsets.begun.lined hne

end Page

end Layout

end MarkupTree
