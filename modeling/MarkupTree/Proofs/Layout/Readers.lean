-- Reading a page that has no margin. A reader goes through the output character by
-- character and may refuse one. Where it takes spaces and line breaks alike, it does
-- not see how the page is cut into lines, so what it makes of a page is told by what
-- is put on the page, one instruction after the other.
import MarkupTree.Proofs.Layout.Margins

namespace MarkupTree

namespace Layout

variable {σ : Type} {read : σ → Char → Option σ} {start a b c : σ} {f : Format} {p : Page}

/-- Spaces and line breaks leave the reader as it is. -/
structure Calm (read : σ → Char → Option σ) (a : σ) : Prop where
  space : read a ' ' = some a
  newline : read a '\n' = some a

theorem Calm.foldlM (h : Calm read a) {t : Text} (ht : ∀ x ∈ t, x = '\n') : t.foldlM read a = some a := by
  induction t with
  | nil => rfl
  | cons x t ih =>
    obtain ⟨hx, hrest⟩ := List.forall_mem_cons.mp ht
    rw [List.foldlM_cons, hx, h.newline]
    exact ih hrest

/-- At the end of its line the reader goes from `a` on to `b`. Where the line is ended already, it
is there. -/
structure Turns (read : σ → Char → Option σ) (a b : σ) : Prop where
  calm : Calm read b
  newline : read a '\n' = some b
  ended : ∀ s, read s '\n' = some a → a = b

theorem foldlM_append {t u : Text} (ht : t.foldlM read a = some b) (hu : u.foldlM read b = some c) :
    (t ++ u).foldlM read a = some c := by
  rw [List.foldlM_append, ht]
  exact hu

namespace Page

/-- Without a margin, nothing but line feeds is written to settle what is owed. -/
theorem newline_of_mem_breaks {n : Nat} {cs : List Char} {x : Char} (h : x ∈ breaks [] n cs) :
    x = '\n' := by
  induction n generalizing cs with
  | zero => cases h
  | succ n ih =>
    cases cs with
    | nil => exact ih h
    | cons c cs =>
      unfold breaks at h
      split at h
      · exact ih h
      · rw [ite_self] at h
        rcases List.mem_cons.mp h with rfl | h
        · rfl
        · exact ih h

/-- The reader goes from `start` to `a` through the output. At the last breakable
space it is calm. -/
def Reads (read : σ → Char → Option σ) (start a : σ) (p : Page) : Prop :=
  match p.tail with
  | none => p.past.reverse.foldlM read start = some a
  | some t => ∃ b, Calm read b ∧ p.past.reverse.foldlM read start = some b ∧
      t.reverse.foldlM read b = some a

theorem reads_of_none (h : p.tail = none) :
    p.Reads read start a ↔ p.past.reverse.foldlM read start = some a := by
  unfold Reads
  rw [h]

theorem reads_of_some {t : List Char} (h : p.tail = some t) :
    p.Reads read start a ↔ ∃ b, Calm read b ∧ p.past.reverse.foldlM read start = some b ∧
      t.reverse.foldlM read b = some a := by
  unfold Reads
  rw [h]

namespace Reads

theorem text (h : p.Reads read start a) : p.text.foldlM read start = some a := by
  cases htail : p.tail with
  | none =>
    rw [Page.text, reversed_of_none htail]
    exact (reads_of_none htail).mp h
  | some t =>
    obtain ⟨b, hcalm, hpast, ht⟩ := (reads_of_some htail).mp h
    have hspace : (p.past.reverse ++ [' ']).foldlM read start = some b :=
      foldlM_append hpast (by rw [List.foldlM_cons, hcalm.space]; rfl)
    rw [Page.text, reversed_of_some htail, List.reverse_append, List.reverse_cons]
    exact foldlM_append hspace ht

/-- Behind a line that is ended the reader has turned. -/
theorem text_of_ended {cs : List Char} (h : p.Reads read start a) (hturn : Turns read a b)
    (hended : p.reversed = '\n' :: cs) : p.text.foldlM read start = some b := by
  have htext := h.text
  obtain ⟨s, -, hlast⟩ : ∃ s, cs.reverse.foldlM read start = some s ∧ ['\n'].foldlM read s = some a := by
    rw [Page.text, hended, List.reverse_cons, List.foldlM_append] at htext
    exact Option.bind_eq_some_iff.mp htext
  obtain ⟨s', hs', hnil⟩ := Option.bind_eq_some_iff.mp hlast
  cases hnil
  rw [← hturn.ended s hs']
  exact htext

theorem write {t : Text} (h : p.Reads read start a) (ht : t.foldlM read a = some b) :
    (p.write t).Reads read start b := by
  unfold Page.write
  cases htail : p.tail with
  | none =>
    rw [reads_of_none rfl, List.reverse_append, List.reverse_reverse]
    exact foldlM_append ((reads_of_none htail).mp h) ht
  | some u =>
    obtain ⟨c, hcalm, hpast, hu⟩ := (reads_of_some htail).mp h
    refine (reads_of_some rfl).mpr ⟨c, hcalm, hpast, ?_⟩
    rw [List.reverse_append, List.reverse_reverse]
    exact foldlM_append hu ht

theorem wrap (h : p.Reads read start a) (hmargin : p.margin = []) : (p.wrap f).Reads read start a := by
  unfold Page.wrap
  split
  · exact h
  · cases htail : p.tail with
    | none => exact h
    | some t =>
      obtain ⟨b, hcalm, hpast, ht⟩ := (reads_of_some htail).mp h
      have hbreak : (p.past.reverse ++ ['\n']).foldlM read start = some b :=
        foldlM_append hpast (by rw [List.foldlM_cons, hcalm.newline]; rfl)
      dsimp only
      rw [reads_of_none rfl, hmargin, List.reverse_nil, List.append_nil, List.reverse_append,
        List.reverse_cons]
      exact foldlM_append hbreak ht

theorem putSpace (h : p.Reads read start a) (hcalm : Calm read a) (breaks : Bool) :
    (p.putSpace breaks).Reads read start a := by
  unfold Page.putSpace
  split
  · exact h
  · cases breaks with
    | true => exact (reads_of_some rfl).mpr ⟨a, hcalm, h.text, rfl⟩
    | false =>
      have hspace : (p.write [' ']).Reads read start a :=
        h.write (by rw [List.foldlM_cons, hcalm.space]; rfl)
      unfold Page.write at hspace
      cases htail : p.tail with
      | none =>
        rw [htail] at hspace
        exact hspace
      | some t =>
        rw [htail] at hspace
        exact hspace

theorem startLine (h : p.Reads read start a) (hmargin : p.margin = []) (x : Char) :
    (p.startLine x).Reads read start a := by
  rw [startLine_of_margin hmargin]
  split <;> exact h

/-- Writing a character moves the reader as the escaped character does. -/
theorem putChar {mode : Mode} {x : Char} {next : Option Char} (h : p.Reads read start a)
    (hmargin : p.margin = [])
    (hx : ∀ last begins, (if mode = .literal then [x] else f.escape mode last x next begins).foldlM
      read a = some b) :
    (p.putChar f mode x next).Reads read start b := by
  have hstart := h.startLine hmargin x
  unfold Page.putChar
  dsimp only
  split
  · rename_i hbreak
    have hb := hx none false
    rw [if_pos hbreak.1, hbreak.2] at hb
    rw [Page.newline, reads_of_none rfl, List.reverse_cons]
    exact foldlM_append hstart.text hb
  · exact hstart.write (hx _ _)

theorem settle (h : p.Reads read start a) (hcalm : Calm read a) (hmargin : p.margin = []) :
    p.settle.Reads read start a := by
  by_cases hdue : p.due = 0
  · rw [settle_of_due hdue]
    exact h
  · have hempty : p.emptyMargin = [] := by
      rw [emptyMargin, hmargin]
      rfl
    rw [settle_eq hdue, reads_of_none rfl, List.reverse_append, List.reverse_reverse, hempty]
    exact foldlM_append h.text (hcalm.foldlM fun x hx => newline_of_mem_breaks hx)

theorem putGlyph {mode : Mode} {x : Char} {next : Option Char} (h : p.Reads read start a)
    (hmargin : p.margin = [])
    (hx : ∀ last begins, (if mode = .literal then [x] else f.escape mode last x next begins).foldlM
      read a = some b) :
    (p.putGlyph f mode (.char x next)).Reads read start b :=
  (h.putChar hmargin hx).wrap ((margin_eq_of_setting (setting_putChar mode x next)).trans hmargin)

theorem foldlLiteral {t : Text} (h : p.Reads read start a) (hmargin : p.margin = [])
    (ht : t.foldlM read a = some b) :
    ((glyphs false t).foldl (Page.putGlyph f .literal) p).Reads read start b := by
  induction t generalizing p a with
  | nil =>
    cases ht
    exact h
  | cons x t ih =>
    rw [List.foldlM_cons] at ht
    obtain ⟨c, hc, ht⟩ := Option.bind_eq_some_iff.mp ht
    have hglyph : (p.putGlyph f .literal (.char x t.head?)).Reads read start c := by
      refine h.putGlyph hmargin fun _ _ => ?_
      rw [if_pos rfl, List.foldlM_cons, hc]
      rfl
    exact ih hglyph ((margin_eq_of_setting (setting_putGlyph _ _)).trans hmargin) ht

/-- A line break that is owed ends the line, if it is not ended, and the reader turns. -/
theorem settleLine (h : p.Reads read start a) (hmargin : p.margin = []) (howed : p.owed ≠ 0)
    (hne : p.reversed ≠ []) (hturn : Turns read a b) : p.settle.Reads read start b := by
  have hdue : p.due ≠ 0 := mt owed_of_due howed
  have hempty : p.emptyMargin = [] := by
    rw [emptyMargin, hmargin]
    rfl
  have hbreaks : ∀ n, (breaks [] n p.reversed).foldlM read b = some b := fun n =>
    hturn.calm.foldlM fun x hx => newline_of_mem_breaks hx
  obtain ⟨n, hn⟩ := Nat.exists_eq_succ_of_ne_zero hdue
  obtain ⟨x, xs, hreversed⟩ := List.exists_cons_of_ne_nil hne
  rw [settle_eq hdue, reads_of_none rfl, List.reverse_append, List.reverse_reverse, hempty]
  by_cases hx : x = '\n'
  · exact foldlM_append (h.text_of_ended hturn (hx ▸ hreversed)) (hbreaks p.due)
  · have hbreak : breaks [] p.due p.reversed = '\n' :: breaks [] n p.reversed := by
      rw [hn, hreversed, breaks, if_neg hx, ite_self]
      rfl
    rw [hbreak]
    refine foldlM_append h.text ?_
    rw [List.foldlM_cons, hturn.newline]
    exact hbreaks n

theorem foldlText {mode : Mode} {gs : List Glyph} (h : p.Reads read start a) (hcalm : Calm read a)
    (hmargin : p.margin = [])
    (hgs : ∀ x next, Glyph.char x next ∈ gs → ∀ last begins,
      (if mode = .literal then [x] else f.escape mode last x next begins).foldlM read a = some a) :
    (gs.foldl (Page.putGlyph f mode) p).Reads read start a := by
  induction gs generalizing p with
  | nil => exact h
  | cons g gs ih =>
    refine ih ?_ ((margin_eq_of_setting (setting_putGlyph mode g)).trans hmargin)
      fun x next hx => hgs x next (List.mem_cons_of_mem _ hx)
    cases g with
    | space breaks =>
      exact (h.putSpace hcalm breaks).wrap
        ((margin_eq_of_setting (setting_putSpace breaks)).trans hmargin)
    | char x next => exact h.putGlyph hmargin (hgs x next List.mem_cons_self)

end Reads

/-! ## Lines that are owed -/

/-- Literal text that is not empty leaves some output. -/
theorem reversed_foldlLiteral_ne_nil {t : Text} (ht : t ≠ []) :
    ((glyphs false t).foldl (putGlyph f .literal) p).reversed ≠ [] := by
  induction t generalizing p with
  | nil => exact absurd rfl ht
  | cons c t ih =>
    cases t with
    | cons d t => exact ih (List.cons_ne_nil d t)
    | nil =>
      show ((p.putChar f .literal c none).wrap f).reversed ≠ []
      obtain ⟨t, hput, ht⟩ := p.reversed_putChar .literal c none
      unfold wrap
      split
      · rw [hput, ht]
        simp
      · split
        · rw [hput, ht]
          simp
        · simp [reversed]

/-- The reader stands at `a`, or comes there by the line break that is owed. -/
def Stands (read : σ → Char → Option σ) (start a : σ) (p : Page) : Prop :=
  p.Reads read start a ∨
    ∃ behind, Turns read behind a ∧ p.Reads read start behind ∧ p.owed ≠ 0 ∧ p.reversed ≠ []

namespace Stands

theorem settle (h : p.Stands read start a) (hcalm : Calm read a) (hmargin : p.margin = []) :
    p.settle.Reads read start a := by
  rcases h with h | ⟨behind, hturn, h, howed, hne⟩
  · exact h.settle hcalm hmargin
  · exact h.settleLine hmargin howed hne hturn

theorem owe (h : p.Stands read start a) (n : Nat) : (p.owe n).Stands read start a := by
  rcases h with h | ⟨behind, hturn, h, howed, hne⟩
  · exact Or.inl h
  · have howed' : max p.owed n ≠ 0 := by omega
    exact Or.inr ⟨behind, hturn, h, howed', hne⟩

/-- Literal text moves the reader as it does on its own. -/
theorem putLiteral {t : Text} (h : p.Stands read start a) (hcalm : Calm read a)
    (hmargin : p.margin = []) (ht : t.foldlM read a = some b) :
    (p.put f t false .literal).Reads read start b :=
  (h.settle hcalm hmargin).foldlLiteral (margin_settle.trans hmargin) ht

/-- Text leaves the reader where it is if each of its characters does, once it is
escaped. -/
theorem putText {t : Text} {wrap : Bool} {mode : Mode} (h : p.Stands read start a)
    (hcalm : Calm read a) (hmargin : p.margin = []) (hmode : mode ≠ .literal)
    (ht : ∀ x ∈ t, ∀ last next begins, (f.escape mode last x next begins).foldlM read a = some a) :
    (p.put f t wrap mode).Reads read start a := by
  refine (h.settle hcalm hmargin).foldlText hcalm (margin_settle.trans hmargin) fun x next hx last begins => ?_
  rw [if_neg hmode]
  exact ht x (char_mem_of_glyph hx) last next begins

/-- The file ends with a line feed. -/
theorem finish (h : p.Stands read start a) (hcalm : Calm read a) : p.finish.foldlM read start = some a := by
  rcases h with h | ⟨behind, hturn, h, -, hne⟩
  · have htext := h.text
    unfold Page.finish
    split
    · rename_i hnil
      rw [Page.text, hnil] at htext
      exact htext
    · exact htext
    · exact foldlM_append htext (hcalm.foldlM (by simp))
  · unfold Page.finish
    split
    · rename_i hnil
      exact absurd hnil hne
    · rename_i hended
      exact h.text_of_ended hturn hended
    · refine foldlM_append h.text ?_
      rw [List.foldlM_cons, hturn.newline]
      rfl

end Stands

end Page

/-! ## Instructions -/

/-- On a page without a margin the instructions lead the reader from `a` to `b`. -/
def Leads (read : σ → Char → Option σ) (f : Format) (a : σ) (is : List Instruction) (b : σ) : Prop :=
  ∀ (start : σ) (p : Page), p.margin = [] → p.Stands read start a →
    (p.run f is).margin = [] ∧ (p.run f is).Stands read start b

namespace Leads

theorem nil : Leads read f a [] a := fun _ _ hmargin h => ⟨hmargin, h⟩

theorem append {is js : List Instruction} (hi : Leads read f a is b) (hj : Leads read f b js c) :
    Leads read f a (is ++ js) c := by
  intro start p hmargin h
  obtain ⟨hmargin, h⟩ := hi start p hmargin h
  rw [Page.run_append]
  exact hj start _ hmargin h

theorem literal {t : Text} (hcalm : Calm read a) (ht : t.foldlM read a = some b) :
    Leads read f a [lit t] b := fun _ _ hmargin h =>
  ⟨(Page.margin_put _ _ _).trans hmargin, Or.inl (h.putLiteral hcalm hmargin ht)⟩

theorem text {t : Text} {wrap : Bool} {mode : Mode} (hcalm : Calm read a) (hmode : mode ≠ .literal)
    (ht : ∀ x ∈ t, ∀ last next begins, (f.escape mode last x next begins).foldlM read a = some a) :
    Leads read f a [.put t wrap mode] a := fun _ _ hmargin h =>
  ⟨(Page.margin_put _ _ _).trans hmargin, Or.inl (h.putText hcalm hmargin hmode ht)⟩

theorem lineBreak : Leads read f a [.lineBreak] a := fun _ _ hmargin h => ⟨hmargin, h.owe 1⟩

theorem blankLine : Leads read f a [.blankLine] a := fun _ _ hmargin h => ⟨hmargin, h.owe 2⟩

/-- What a reader makes of literal text may depend on it that the line ends there. -/
theorem line {t : Text} (hcalm : Calm read a) (ht : t.foldlM read a = some b) (hturn : Turns read b c) :
    Leads read f a [lit t, .lineBreak] c := by
  intro start p hmargin h
  refine ⟨(Page.margin_put _ _ _).trans hmargin, ?_⟩
  show ((p.put f t false .literal).owe 1).Stands read start c
  by_cases hnil : t = []
  · subst hnil
    cases ht
    -- nothing is written, so the reader is calm there and stays
    have hsame : c = a := Option.some.inj (hturn.newline.symm.trans hcalm.newline)
    rw [hsame]
    exact Or.inl (h.putLiteral hcalm hmargin rfl)
  · have howed : max (p.put f t false .literal).owed 1 ≠ 0 := by omega
    exact Or.inr ⟨b, hturn, h.putLiteral hcalm hmargin ht, howed, Page.reversed_foldlLiteral_ne_nil hnil⟩

/-- The reader goes through the whole file, the line feed at its end included. -/
theorem render {is : List Instruction} (h : Leads read f a is b) (hcalm : Calm read b) :
    (Layout.render f is).foldlM read a = some b := by
  obtain ⟨-, hpage⟩ := h a {} rfl (Or.inl rfl)
  exact hpage.finish hcalm

end Leads

end Layout

end MarkupTree
