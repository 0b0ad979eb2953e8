-- Offsets and positions. The position of an offset grows with the offset as
-- long as no line and no column is out of range, and a span ends at its last
-- byte that is no line ending.
import MarkupTree.Source
import Mathlib.Data.List.Pairwise
import Mathlib.Data.List.TakeWhile

namespace MarkupTree

namespace Position

variable {p q r : Position}

theorem le_def : p ≤ q ↔ p.line < q.line ∨ (p.line = q.line ∧ p.column ≤ q.column) := Iff.rfl

theorem le_refl (p : Position) : p ≤ p := Or.inr ⟨rfl, Nat.le_refl _⟩

theorem le_trans (hpq : p ≤ q) (hqr : q ≤ r) : p ≤ r := by
  rcases hpq with hpq | ⟨hline, hpq⟩
  · rcases hqr with hqr | ⟨hline', -⟩
    · exact Or.inl (hpq.trans hqr)
    · exact Or.inl (hline' ▸ hpq)
  · rcases hqr with hqr | ⟨hline', hqr⟩
    · exact Or.inl (hline ▸ hqr)
    · exact Or.inr ⟨hline.trans hline', hpq.trans hqr⟩

end Position

namespace Source

/-! ## Lines -/

theorem mem_startsFrom {offset n : Nat} {bs : List UInt8} (h : n ∈ startsFrom offset bs) :
    offset < n ∧ n ≤ offset + bs.length := by
  induction bs generalizing offset with
  | nil => cases h
  | cons b bs ih =>
    have hrest : n ∈ startsFrom (offset + 1) bs → offset < n ∧ n ≤ offset + (b :: bs).length := by
      intro hn
      have := ih hn
      simp only [List.length_cons]
      omega
    unfold startsFrom at h
    split at h
    · rcases List.mem_cons.mp h with rfl | h
      · simp only [List.length_cons]
        omega
      · exact hrest h
    · exact hrest h

theorem pairwise_startsFrom (offset : Nat) (bs : List UInt8) :
    (startsFrom offset bs).Pairwise (· < ·) := by
  induction bs generalizing offset with
  | nil => exact List.Pairwise.nil
  | cons b bs ih =>
    unfold startsFrom
    split
    · exact List.pairwise_cons.mpr ⟨fun n hn => (mem_startsFrom hn).1, ih _⟩
    · exact ih _

theorem length_startsFrom_le (offset : Nat) (bs : List UInt8) :
    (startsFrom offset bs).length ≤ bs.length := by
  induction bs generalizing offset with
  | nil => exact Nat.le_refl _
  | cons b bs ih =>
    have := ih (offset + 1)
    unfold startsFrom
    split <;> simp only [List.length_cons] <;> omega

variable (s : Source) {i j start stop : Nat}

/-- The starts of the lines up to the one that the offset is in. -/
def linesUpTo (offset : Nat) : List Nat := s.lineStarts.takeWhile (· ≤ offset)

theorem linesUpTo_eq (offset : Nat) :
    s.linesUpTo offset = 0 :: (startsFrom 0 s.bytes).takeWhile (· ≤ offset) := by
  rw [linesUpTo, s.lineStarts_eq, List.takeWhile_cons]
  simp

theorem length_linesUpTo_le (offset : Nat) : (s.linesUpTo offset).length ≤ s.bytes.length + 1 := by
  rw [linesUpTo_eq, List.length_cons]
  have := ((startsFrom 0 s.bytes).takeWhile_sublist (· ≤ offset)).length_le
  have := length_startsFrom_le 0 s.bytes
  omega

/-! ## Positions -/

/-- No line and no column of the source is out of range. -/
def InRange : Prop := s.bytes.length < Position.greatest

theorem position_zero : s.position 0 = ⟨1, 1⟩ := by
  have hnone : (startsFrom 0 s.bytes).takeWhile (· ≤ 0) = [] := by
    rw [List.takeWhile_eq_nil_iff]
    intro h
    have hpos := (mem_startsFrom (List.getElem_mem h)).1
    simpa using Nat.ne_of_gt hpos
  have hlines := s.linesUpTo_eq 0
  rw [hnone] at hlines
  rw [position, ← linesUpTo, hlines]
  rfl

theorem known_position (offset : Nat) : (s.position offset).known = true := by
  rw [position, ← linesUpTo, linesUpTo_eq]
  exact decide_eq_true (Nat.lt_min.mpr ⟨Nat.succ_pos _, by decide⟩)

variable {s}

/-- In range, a position is a line and a column of this line. -/
theorem position_eq (hs : s.InRange) (hi : i ≤ s.bytes.length) :
    s.position i = ⟨(s.linesUpTo i).length, i - (s.linesUpTo i).getLast?.getD 0 + 1⟩ := by
  have := s.length_linesUpTo_le i
  unfold InRange at hs
  rw [position, ← linesUpTo, Position.clamped, Nat.min_eq_left (by omega), Nat.min_eq_left (by omega)]

/-- A later offset is on the same line or on a later one. -/
theorem linesUpTo_prefix (h : i ≤ j) : s.linesUpTo i <+: s.linesUpTo j := by
  unfold linesUpTo
  induction s.lineStarts with
  | nil => exact List.prefix_rfl
  | cons n ns ih =>
    by_cases hn : n ≤ i
    · simpa [List.takeWhile_cons, hn, hn.trans h] using ih
    · simp [List.takeWhile_cons, hn]

theorem getLast_linesUpTo_le (i : Nat) : (s.linesUpTo i).getLast?.getD 0 ≤ i := by
  rcases hl : (s.linesUpTo i).getLast? with _ | n
  · exact Nat.zero_le i
  · simpa using List.mem_takeWhile_imp (List.mem_of_getLast? hl)

/-- In range, positions are in the order of the offsets. -/
theorem position_le_iff (hs : s.InRange) (hi : i ≤ s.bytes.length) (hj : j ≤ s.bytes.length) :
    s.position i ≤ s.position j ↔ i ≤ j := by
  have hlt : ∀ {i j : Nat}, i < j → i ≤ s.bytes.length → j ≤ s.bytes.length →
      s.position i ≤ s.position j ∧ ¬ s.position j ≤ s.position i := by
    intro i j h hi hj
    obtain ⟨rest, hrest⟩ := linesUpTo_prefix (s := s) h.le
    have hlast := getLast_linesUpTo_le (s := s) i
    have hlen := congrArg List.length hrest
    rw [List.length_append] at hlen
    rw [position_eq hs hi, position_eq hs hj, Position.le_def, Position.le_def]
    cases rest with
    | nil =>
      rw [List.append_nil] at hrest
      rw [hrest] at hlast ⊢
      simp only [true_and]
      omega
    | cons n rest =>
      rw [List.length_cons] at hlen
      simp only
      omega
  constructor
  · intro h
    by_contra hji
    exact (hlt (Nat.lt_of_not_le hji) hj hi).2 h
  · intro h
    rcases Nat.lt_or_eq_of_le h with h | rfl
    · exact (hlt h hi hj).1
    · exact Position.le_refl _

/-! ## Ends -/

/-- Whether a byte stands at the offset that is no line ending. -/
def inked (s : Source) (i : Nat) : Bool := s.bytes[i]?.any fun b => !isLineEnd b

/-- The span holds a byte that is no line ending. -/
def Shows (s : Source) (start stop : Nat) : Prop := ∃ i < stop, start ≤ i ∧ s.inked i = true

instance (s : Source) (start stop : Nat) : Decidable (s.Shows start stop) :=
  inferInstanceAs (Decidable (∃ i < stop, start ≤ i ∧ s.inked i = true))

theorem lt_length_of_inked (h : s.inked i = true) : i < s.bytes.length := by
  by_contra hlen
  rw [inked, List.getElem?_eq_none (Nat.le_of_not_lt hlen)] at h
  cases h

theorem Shows.mono {start' stop' : Nat} (h : s.Shows start stop) (hstart : start' ≤ start)
    (hstop : stop ≤ stop') : s.Shows start' stop' := by
  obtain ⟨i, hi, hle, hinked⟩ := h
  exact ⟨i, hi.trans_le hstop, hstart.trans hle, hinked⟩

/-- What is left without the end of a list that meets `p` ends with an element
that does not. -/
theorem dropWhile_reverse (p : UInt8 → Bool) (l : List UInt8) :
    let n := (l.reverse.dropWhile p).length
    (∀ i b, n ≤ i → l[i]? = some b → p b = true) ∧
      (0 < n → ∃ b, l[n - 1]? = some b ∧ p b = false) := by
  intro n
  have hl : l = (l.reverse.dropWhile p).reverse ++ (l.reverse.takeWhile p).reverse := by
    rw [← List.reverse_append, List.takeWhile_append_dropWhile, List.reverse_reverse]
  constructor
  · intro i b hi hb
    rw [hl, List.getElem?_append_right (by simpa using hi)] at hb
    exact List.mem_takeWhile_imp (List.mem_reverse.mp (List.mem_of_getElem? hb))
  · intro hn
    obtain ⟨b, rest, hkept⟩ := List.exists_cons_of_length_pos hn
    refine ⟨b, ?_, ?_⟩
    · have hlen : n = rest.length + 1 := congrArg List.length hkept
      rw [hl, hkept, List.reverse_cons, hlen]
      simp
    · have hnot := List.head?_dropWhile_not p l.reverse
      rw [hkept] at hnot
      simpa using hnot

/-- A span ends at its last byte that is no line ending, or at its start if
there is none. -/
theorem exists_endPosition (s : Source) (start stop : Nat) :
    ∃ k, s.endPosition start stop = s.position k ∧
      (k = start ∧ ¬ s.Shows start stop ∨
        start ≤ k ∧ k < stop ∧ s.inked k = true ∧ ∀ i, k < i → i < stop → s.inked i = false) := by
  have hspan : ∀ i, ((s.bytes.take stop).drop start)[i]? =
      if start + i < stop then s.bytes[start + i]? else none := by
    intro i
    rw [List.getElem?_drop, List.getElem?_take]
  obtain ⟨hends, hlast⟩ := dropWhile_reverse isLineEnd ((s.bytes.take stop).drop start)
  have hafter : ∀ i, start + (((s.bytes.take stop).drop start).reverse.dropWhile isLineEnd).length ≤ i →
      i < stop → s.inked i = false := by
    intro i hi hstop
    have hsame := hspan (i - start)
    rw [Nat.add_sub_cancel' (by omega), if_pos hstop] at hsame
    rw [inked, ← hsame]
    rcases hb : ((s.bytes.take stop).drop start)[i - start]? with _ | b
    · rfl
    · simp [hends _ b (by omega) hb]
  unfold endPosition
  by_cases hzero : (((s.bytes.take stop).drop start).reverse.dropWhile isLineEnd).length = 0
  · rw [hzero] at hafter
    refine ⟨start, if_pos hzero, Or.inl ⟨rfl, ?_⟩⟩
    rintro ⟨i, hstop, hstart, hi⟩
    rw [hafter i (by omega) hstop] at hi
    cases hi
  · obtain ⟨b, hb, hnot⟩ := hlast (Nat.pos_of_ne_zero hzero)
    rw [hspan] at hb
    split at hb
    · rename_i hstop
      rw [← Nat.add_sub_assoc (Nat.pos_of_ne_zero hzero)] at hb hstop
      refine ⟨_, if_neg hzero, Or.inr ⟨by omega, hstop, ?_, fun i hi => hafter i (by omega)⟩⟩
      rw [inked, hb]
      simp [hnot]
    · cases hb

end Source

end MarkupTree
