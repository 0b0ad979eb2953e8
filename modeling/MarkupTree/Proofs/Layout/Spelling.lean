-- A page spelt character by character. On a page without a margin, each
-- character of a text stands as its escape writes it, one behind the other. A
-- space may also be left out, stand as it is, or become a line break where the
-- line wraps. So the place of each character in the output is known.
import MarkupTree.Proofs.Layout.Writing
import Mathlib.Data.List.Forall2

namespace MarkupTree

namespace Layout

/-! ## Letters and their pieces -/

/-- A character, with the one after it in its chunk. -/
abbrev Letter := Char × Option Char

def letters : Text → List Letter
  | [] => []
  | c :: cs => (c, cs.head?) :: letters cs

/-- The piece of the output that a character becomes. -/
def Spelt (written : Letter → Text) (m : Letter) (piece : Text) : Prop :=
  piece = written m ∨ m.1 = ' ' ∧ piece ∈ [[], [' '], ['\n']]

/-- The output is made of one piece for each character. -/
def Spelling (written : Letter → Text) (ms : List Letter) (t : Text) : Prop :=
  ∃ pieces, List.Forall₂ (Spelt written) ms pieces ∧ pieces.flatten = t

variable {written : Letter → Text} {ms ns : List Letter} {m : Letter} {t u piece : Text}

theorem getElem?_letters (t : Text) (i : Nat) : (letters t)[i]? = t[i]?.map fun c => (c, t[i + 1]?) := by
  induction t generalizing i with
  | nil => rfl
  | cons c cs ih =>
    cases i with
    | zero => simp [letters, List.head?_eq_getElem?]
    | succ i => simpa [letters] using ih i

theorem length_letters (t : Text) : (letters t).length = t.length := by
  induction t with
  | nil => rfl
  | cons c cs ih => simp [letters, ih]

namespace Spelling

theorem nil : Spelling written [] [] := ⟨[], .nil, rfl⟩

theorem single (h : Spelt written m piece) : Spelling written [m] piece :=
  ⟨[piece], .cons h .nil, by simp⟩

theorem append (h : Spelling written ms t) (h' : Spelling written ns u) :
    Spelling written (ms ++ ns) (t ++ u) := by
  obtain ⟨pieces, hpieces, rfl⟩ := h
  obtain ⟨more, hmore, rfl⟩ := h'
  exact ⟨pieces ++ more, List.rel_append hpieces hmore, List.flatten_append⟩

end Spelling

/-! ## Pages -/

namespace Page

variable {p : Page} {f : Format} {mode : Mode}

/-- The output spells the letters. The last breakable space is one of them. -/
def Spells (written : Letter → Text) (ms : List Letter) (p : Page) : Prop :=
  match p.tail with
  | none => Spelling written ms p.past.reverse
  | some t => ∃ before next after, ms = before ++ (' ', next) :: after ∧
      Spelling written before p.past.reverse ∧ Spelling written after t.reverse

theorem spells_of_none (h : p.tail = none) :
    p.Spells written ms ↔ Spelling written ms p.past.reverse := by
  unfold Spells
  rw [h]

theorem spells_of_some {t : List Char} (h : p.tail = some t) :
    p.Spells written ms ↔ ∃ before next after, ms = before ++ (' ', next) :: after ∧
      Spelling written before p.past.reverse ∧ Spelling written after t.reverse := by
  unfold Spells
  rw [h]

namespace Spells

/-- A space that is there, or a line break in its place. -/
theorem joined {before after : List Letter} {next : Option Char} {c : Char}
    (ht : Spelling written before t) (hu : Spelling written after u) (hc : [c] ∈ [[], [' '], ['\n']]) :
    Spelling written (before ++ (' ', next) :: after) (t ++ c :: u) :=
  ht.append ((Spelling.single (m := (' ', next)) (Or.inr ⟨rfl, hc⟩)).append hu)

theorem text (h : p.Spells written ms) : Spelling written ms p.text := by
  cases htail : p.tail with
  | none =>
    rw [Page.text, reversed_of_none htail]
    exact (spells_of_none htail).mp h
  | some t =>
    obtain ⟨before, next, after, rfl, hpast, ht⟩ := (spells_of_some htail).mp h
    rw [Page.text, reversed_of_some htail, List.reverse_append, List.reverse_cons, List.append_assoc]
    exact joined hpast ht (by decide)

theorem write (h : p.Spells written ms) (hm : Spelt written m piece) :
    (p.write piece).Spells written (ms ++ [m]) := by
  unfold Page.write
  cases htail : p.tail with
  | none =>
    rw [spells_of_none rfl, List.reverse_append, List.reverse_reverse]
    exact ((spells_of_none htail).mp h).append (.single hm)
  | some t =>
    obtain ⟨before, next, after, rfl, hpast, ht⟩ := (spells_of_some htail).mp h
    refine (spells_of_some rfl).mpr ⟨before, next, after ++ [m], by simp, hpast, ?_⟩
    rw [List.reverse_append, List.reverse_reverse]
    exact ht.append (.single hm)

/-- A space that is left out. -/
theorem skip (h : p.Spells written ms) (next : Option Char) :
    p.Spells written (ms ++ [(' ', next)]) := by
  have hspelt : Spelt written (' ', next) [] := Or.inr ⟨rfl, by decide⟩
  have hwrite := h.write hspelt
  rwa [write_nil] at hwrite

theorem wrap (h : p.Spells written ms) (hmargin : p.margin = []) :
    (p.wrap f).Spells written ms := by
  unfold Page.wrap
  split
  · exact h
  · cases htail : p.tail with
    | none => exact h
    | some t =>
      obtain ⟨before, next, after, rfl, hpast, ht⟩ := (spells_of_some htail).mp h
      dsimp only
      rw [spells_of_none rfl, hmargin, List.reverse_nil, List.append_nil, List.reverse_append,
        List.reverse_cons, List.append_assoc]
      exact joined hpast ht (by decide)

theorem putSpace (h : p.Spells written ms) (next : Option Char) (breaks : Bool) :
    (p.putSpace breaks).Spells written (ms ++ [(' ', next)]) := by
  unfold Page.putSpace
  split
  · exact h.skip next
  · cases breaks with
    | true => exact (spells_of_some rfl).mpr ⟨ms, next, [], rfl, h.text, .nil⟩
    | false =>
      have hspelt : Spelt written (' ', next) [' '] := Or.inr ⟨rfl, by decide⟩
      have hspace := h.write hspelt
      unfold Page.write at hspace
      cases htail : p.tail with
      | none =>
        rw [htail] at hspace
        exact hspace
      | some t =>
        rw [htail] at hspace
        exact hspace

/-- A character that is escaped the same wherever it stands. -/
theorem putChar (h : p.Spells written ms) (hmargin : p.margin = []) (hmode : mode ≠ .literal)
    (hm : ∀ last begins, f.escape mode last m.1 m.2 begins = written m) :
    (p.putChar f mode m.1 m.2).Spells written (ms ++ [m]) := by
  have hstart : (p.startLine m.1).Spells written ms := by
    rw [startLine_of_margin hmargin]
    split <;> exact h
  unfold Page.putChar
  dsimp only
  rw [if_neg fun hbreak => hmode hbreak.1, if_neg hmode, hm]
  exact hstart.write (Or.inl rfl)

/-- A chunk is spelt behind what is there. -/
theorem foldl (h : p.Spells written ms) (hmargin : p.margin = []) (hmode : mode ≠ .literal)
    (hescape : ∀ last m begins, f.escape mode last m.1 m.2 begins = written m) (wrap : Bool)
    (t : Text) :
    ((glyphs wrap t).foldl (Page.putGlyph f mode) p).Spells written (ms ++ letters t) := by
  induction t generalizing p ms with
  | nil => simpa [glyphs, letters] using h
  | cons c cs ih =>
    have hsplit : ms ++ letters (c :: cs) = ms ++ [(c, cs.head?)] ++ letters cs := by simp [letters]
    have hnext : ∀ g, (p.putGlyph f mode g).Spells written (ms ++ [(c, cs.head?)]) →
        ((glyphs wrap cs).foldl (Page.putGlyph f mode) (p.putGlyph f mode g)).Spells written
          (ms ++ letters (c :: cs)) := by
      intro g hg
      rw [hsplit]
      exact ih hg ((margin_eq_of_setting (setting_putGlyph mode g)).trans hmargin)
    unfold glyphs
    split
    · rename_i hspace
      obtain rfl : c = ' ' := eq_of_beq (Bool.and_eq_true_iff.mp hspace).2
      split
      · -- of a run of spaces only the last one is written
        rw [hsplit]
        exact ih (h.skip cs.head?) hmargin
      · exact hnext _ ((h.putSpace cs.head? _).wrap
          ((margin_eq_of_setting (setting_putSpace _)).trans hmargin))
    · exact hnext _ ((h.putChar (m := (c, cs.head?)) hmargin hmode fun last begins => hescape _ _ _).wrap
        ((margin_eq_of_setting (setting_putChar mode c cs.head?)).trans hmargin))

theorem put (h : p.Spells written ms) (hmargin : p.margin = []) (howed : p.owed = 0)
    (hmode : mode ≠ .literal)
    (hescape : ∀ last m begins, f.escape mode last m.1 m.2 begins = written m) (wrap : Bool)
    (t : Text) : (p.put f t wrap mode).Spells written (ms ++ letters t) := by
  unfold Page.put
  rw [settle_of_due (due_of_owed howed)]
  exact h.foldl hmargin hmode hescape _ t

/-- Chunks in a row are spelt one behind the other. -/
theorem run (h : p.Spells written ms) (hmargin : p.margin = []) (howed : p.owed = 0)
    (hmode : mode ≠ .literal)
    (hescape : ∀ last m begins, f.escape mode last m.1 m.2 begins = written m) (wrap : Bool)
    (texts : List Text) :
    (p.run f (texts.map fun t => .put t wrap mode)).Spells written (ms ++ texts.flatMap letters) := by
  induction texts generalizing p ms with
  | nil =>
    rw [List.flatMap_nil, List.append_nil]
    exact h
  | cons t ts ih =>
    have hput := h.put hmargin howed hmode hescape wrap t
    rw [List.flatMap_cons, ← List.append_assoc]
    exact ih hput ((margin_put t wrap mode).trans hmargin) (owed_put t wrap mode)

end Spells

end Page

/-! ## Places -/

/-- Where the piece of a character begins in the output. -/
def place (pieces : List Text) (i : Nat) : Nat := (pieces.take i).flatten.length

theorem place_succ {pieces : List Text} {i : Nat} (h : pieces[i]? = some piece) :
    place pieces (i + 1) = place pieces i + piece.length := by
  rw [place, place, List.take_add_one, h, List.flatten_append, List.length_append]
  simp

/-- At its place a piece begins. -/
theorem getElem?_place {pieces : List Text} {i : Nat} {c : Char} {cs : Text}
    (h : pieces[i]? = some (c :: cs)) (rest : Text) :
    (pieces.flatten ++ rest)[place pieces i]? = some c := by
  obtain ⟨hi, hpiece⟩ := List.getElem?_eq_some_iff.mp h
  have hsplit : pieces.flatten = (pieces.take i).flatten ++ (c :: cs ++ (pieces.drop (i + 1)).flatten) := by
    rw [← hpiece, ← List.flatten_cons, ← List.drop_eq_getElem_cons hi, ← List.flatten_append,
      List.take_append_drop]
  rw [hsplit, place, List.append_assoc, List.getElem?_append_right (Nat.le_refl _), Nat.sub_self]
  rfl

/-- One of the texts ends, and the next begins, in front of the character `i` of
all of them together. -/
def Boundary (texts : List Text) (i : Nat) : Prop :=
  ∃ before after, texts = before ++ after ∧ before.flatten.length = i

theorem boundary_cons_iff {ts : List Text} {i : Nat} (hi : 0 < i) :
    Boundary (t :: ts) i ↔ t.length ≤ i ∧ Boundary ts (i - t.length) := by
  constructor
  · rintro ⟨before, after, heq, hlen⟩
    cases before with
    | nil =>
      rw [← hlen] at hi
      exact absurd hi (Nat.lt_irrefl 0)
    | cons b before =>
      obtain ⟨rfl, rfl⟩ := List.cons.inj heq
      rw [List.flatten_cons, List.length_append] at hlen
      exact ⟨by omega, before, after, rfl, by omega⟩
  · rintro ⟨hle, before, after, rfl, hlen⟩
    refine ⟨t :: before, after, rfl, ?_⟩
    rw [List.flatten_cons, List.length_append]
    omega

theorem boundary_zero (ts : List Text) : Boundary ts 0 := ⟨[], ts, rfl, rfl⟩

/-- A letter has the character after it, unless its text ends there. -/
theorem exists_letter {texts : List Text} {i : Nat} {c : Char} (hc : texts.flatten[i]? = some c) :
    ∃ next, (texts.flatMap letters)[i]? = some (c, next) ∧
      (Boundary texts (i + 1) → next = none) ∧
      (¬ Boundary texts (i + 1) → next = texts.flatten[i + 1]?) := by
  induction texts generalizing i with
  | nil => simp at hc
  | cons t ts ih =>
    rw [List.flatten_cons] at hc ⊢
    rw [List.flatMap_cons]
    by_cases hi : i < t.length
    · rw [List.getElem?_append_left hi] at hc
      refine ⟨t[i + 1]?, ?_, ?_, ?_⟩
      · rw [List.getElem?_append_left (by rw [length_letters]; exact hi), getElem?_letters, hc]
        rfl
      · intro hb
        have hle := ((boundary_cons_iff (Nat.succ_pos i)).mp hb).1
        exact List.getElem?_eq_none hle
      · intro hb
        have hlt : i + 1 < t.length := by
          by_contra hnot
          refine hb ((boundary_cons_iff (Nat.succ_pos i)).mpr ⟨by omega, ?_⟩)
          rw [Nat.sub_eq_zero_of_le (by omega : i + 1 ≤ t.length)]
          exact boundary_zero ts
        rw [List.getElem?_append_left hlt]
    · have hle : t.length ≤ i := by omega
      rw [List.getElem?_append_right hle] at hc
      obtain ⟨next, hletter, hnone, hsome⟩ := ih hc
      have hsub : i + 1 - t.length = i - t.length + 1 := by omega
      have hb : Boundary (t :: ts) (i + 1) ↔ Boundary ts (i - t.length + 1) := by
        rw [boundary_cons_iff (Nat.succ_pos i), hsub]
        exact and_iff_right (by omega)
      refine ⟨next, ?_, fun h => hnone (hb.mp h), fun h => ?_⟩
      · rw [List.getElem?_append_right (by rw [length_letters]; exact hle), length_letters]
        exact hletter
      · rw [List.getElem?_append_right (by omega), hsub]
        exact hsome (mt hb.mpr h)

end Layout

end MarkupTree
