-- Positions told by the line endings of the source: a line feed, a carriage return
-- with a line feed after it, or a carriage return alone. The line of an offset counts
-- the endings up to it, and the column is counted from the last of them, so no two
-- offsets have one position.
import MarkupTree.Proofs.Source.Positions

namespace MarkupTree

namespace Position

theorem order_eq_lt_iff {p q : Position} :
    p.order q = .lt ↔ p.line < q.line ∨ (p.line = q.line ∧ p.column < q.column) := by
  simp [order, Ordering.then_eq_lt, Nat.compare_eq_lt]

theorem order_eq_lt_of_not_le {p q : Position} (h : ¬ q ≤ p) : p.order q = .lt := by
  rw [le_def] at h
  apply order_eq_lt_iff.mpr
  omega

end Position

namespace Source

/-! ## Line endings -/

/-- Where the line endings of the bytes end, the first of which stands at `offset`. A
carriage return and the line feed after it are one ending. -/
def endingsFrom (offset : Nat) : List UInt8 → List Nat
  | [] => []
  | 13 :: 10 :: bs => (offset + 2) :: endingsFrom (offset + 2) bs
  | b :: bs =>
    if b = 10 ∨ b = 13 then (offset + 1) :: endingsFrom (offset + 1) bs
    else endingsFrom (offset + 1) bs

example : endingsFrom 0 [97, 13, 13, 10, 10, 98] = [2, 4, 5] := by decide

theorem startsFrom_eq_endingsFrom (offset : Nat) (bs : List UInt8) :
    startsFrom offset bs = endingsFrom offset bs := by
  fun_induction endingsFrom offset bs with
  | case1 offset => rfl
  | case2 offset bs ih => simp [startsFrom, ih]
  | case3 offset b bs hpair h ih =>
    have hends : b = 10 ∨ (b = 13 ∧ bs.head? ≠ some 10) := by
      rcases h with h | h
      · exact Or.inl h
      · refine Or.inr ⟨h, ?_⟩
        intro hhead
        obtain ⟨rest, rfl⟩ := List.head?_eq_some_iff.mp hhead
        exact hpair rest h rfl
    rw [startsFrom, if_pos hends, ih]
  | case4 offset b bs hpair h ih =>
    have hgoes : ¬(b = 10 ∨ (b = 13 ∧ bs.head? ≠ some 10)) := by
      intro hends
      exact h (hends.imp id And.left)
    rw [startsFrom, if_neg hgoes, ih]

theorem takeWhile_eq_filter {l : List Nat} (h : l.Pairwise (· < ·)) (n : Nat) :
    l.takeWhile (· ≤ n) = l.filter (· ≤ n) := by
  induction l with
  | nil => rfl
  | cons a l ih =>
    obtain ⟨ha, hl⟩ := List.pairwise_cons.mp h
    by_cases han : a ≤ n
    · simp [han, ih hl]
    · have hlate : ∀ b ∈ l, n < b := by
        intro b hb
        have := ha b hb
        omega
      simpa [List.takeWhile_cons, List.filter_cons, han] using hlate

variable (s : Source)

/-- The ends of the line endings that end at the offset or before it. -/
def endingsUpTo (offset : Nat) : List Nat := (endingsFrom 0 s.bytes).filter (· ≤ offset)

/-- The end of the last line ending up to the offset, or the start of the source. -/
def lastEnding (offset : Nat) : Nat := (s.endingsUpTo offset).getLastD 0

/-- A line starts where the source does and where a line ending ends. -/
theorem linesUpTo_eq_endings (offset : Nat) : s.linesUpTo offset = 0 :: s.endingsUpTo offset := by
  rw [linesUpTo_eq, takeWhile_eq_filter (pairwise_startsFrom 0 s.bytes), startsFrom_eq_endingsFrom]
  rfl

theorem getLast_linesUpTo (offset : Nat) :
    (s.linesUpTo offset).getLast?.getD 0 = s.lastEnding offset := by
  rw [linesUpTo_eq_endings, lastEnding, List.getLast?_cons]
  simp [List.getLastD_eq_getLast?]

theorem lastEnding_le (offset : Nat) : s.lastEnding offset ≤ offset := by
  rw [← getLast_linesUpTo]
  exact getLast_linesUpTo_le offset

/-- The table of lines has the last line ending at the number of lines up to the offset. -/
theorem getElem_lineStarts (offset : Nat) :
    s.lineStarts[(s.endingsUpTo offset).length]? = some (s.lastEnding offset) := by
  obtain ⟨rest, hrest⟩ := List.takeWhile_prefix (l := s.lineStarts) (· ≤ offset)
  have hlast : (s.linesUpTo offset)[(s.endingsUpTo offset).length]? = some (s.lastEnding offset) := by
    rw [← getLast_linesUpTo, linesUpTo_eq_endings, List.getLast?_eq_getElem?]
    simp
  have hlen := (List.getElem?_eq_some_iff.mp hlast).1
  rw [← hrest]
  exact (List.getElem?_append_left hlen).trans hlast

/-! ## Offsets from positions -/

/-- The offset of a position: the start of its line and the bytes before its column. -/
def offsetAt (p : Position) : Nat := s.lineStarts[p.line - 1]?.getD 0 + (p.column - 1)

/-! ## The last byte of a span -/

/-- The end of a span that is cut at the end of the source. -/
def cut (stop : Nat) : Nat := min stop s.bytes.length

/-- A line feed or a carriage return stands at the offset. -/
def EndsLineAt (i : Nat) : Prop := s.bytes[i]? = some 10 ∨ s.bytes[i]? = some 13

/-- The byte at `k` is the last of the span before the line feeds and carriage returns
at its end. -/
structure IsLastByte (start stop k : Nat) : Prop where
  start_le : start ≤ k
  lt_stop : k < s.cut stop
  stays : ¬ s.EndsLineAt k
  after : ∀ i, k < i → i < s.cut stop → s.EndsLineAt i

variable {s}

theorem inked_eq_false_iff {i : Nat} (h : i < s.bytes.length) : s.inked i = false ↔ s.EndsLineAt i := by
  simp [inked, EndsLineAt, isLineEnd, List.getElem?_eq_getElem h, or_iff_not_imp_left]

theorem inked_iff {i : Nat} (h : i < s.bytes.length) : s.inked i = true ↔ ¬ s.EndsLineAt i := by
  rw [← inked_eq_false_iff h]
  simp

theorem lt_cut_iff {i stop : Nat} : i < s.cut stop ↔ i < stop ∧ i < s.bytes.length := Nat.lt_min

theorem endPosition_of_isLastByte {start stop k : Nat} (h : s.IsLastByte start stop k) :
    s.endPosition start stop = s.position k := by
  obtain ⟨hstop, hlen⟩ := lt_cut_iff.mp h.lt_stop
  have hk : s.inked k = true := (inked_iff hlen).mpr h.stays
  obtain ⟨k', heq, hends⟩ := s.exists_endPosition start stop
  rw [heq]
  rcases hends with ⟨rfl, hnone⟩ | ⟨hstart', hstop', hk', hafter'⟩
  · exact absurd ⟨k, hstop, h.start_le, hk⟩ hnone
  · have hlen' := lt_length_of_inked hk'
    rcases Nat.lt_trichotomy k k' with hlt | rfl | hlt
    · have hends := h.after k' hlt (lt_cut_iff.mpr ⟨hstop', hlen'⟩)
      exact absurd hends ((inked_iff hlen').mp hk')
    · rfl
    · have hfalse := hafter' k hlt hstop
      rw [hk] at hfalse
      cases hfalse

theorem endPosition_of_endings {start stop : Nat}
    (h : ∀ i, start ≤ i → i < s.cut stop → s.EndsLineAt i) :
    s.endPosition start stop = s.position start := by
  obtain ⟨k, heq, hends⟩ := s.exists_endPosition start stop
  rw [heq]
  rcases hends with ⟨rfl, -⟩ | ⟨hstart, hstop, hk, -⟩
  · rfl
  · have hlen := lt_length_of_inked hk
    have hends := h k hstart (lt_cut_iff.mpr ⟨hstop, hlen⟩)
    exact absurd hends ((inked_iff hlen).mp hk)

/-! ## The laws -/

/-- What the positions of a source are to its offsets. -/
structure PositionsExact (s : Source) : Prop where
  /-- The line counts the line endings up to the offset. -/
  line : ∀ i ≤ s.bytes.length, (s.position i).line = (s.endingsUpTo i).length + 1
  /-- The column is the distance from the last of them, which is not past the offset. -/
  column : ∀ i ≤ s.bytes.length, s.lastEnding i ≤ i ∧
    (s.position i).column = i - s.lastEnding i + 1
  /-- The look-up in the table of lines finds that ending. -/
  tabled : ∀ i ≤ s.bytes.length, 0 < (s.position i).line ∧
    s.lineStarts[(s.position i).line - 1]? = some (s.lastEnding i)
  ascending : ∀ i j, i < j → j ≤ s.bytes.length → (s.position i).order (s.position j) = .lt
  recovered : ∀ i ≤ s.bytes.length, s.offsetAt (s.position i) = i
  /-- A span ends at its last byte before the line endings at its end. -/
  ended : ∀ start stop k, s.IsLastByte start stop k → s.endPosition start stop = s.position k
  /-- A span of line endings, or of nothing, ends at its start. -/
  emptied : ∀ start stop, (∀ i, start ≤ i → i < s.cut stop → s.EndsLineAt i) →
    s.endPosition start stop = s.position start

/-- The positions of a source that is in range are exact, for every source and all
offsets. -/
theorem positions_are_exact (s : Source) (hs : s.InRange) : s.PositionsExact := by
  have hposition : ∀ i ≤ s.bytes.length,
      s.position i = ⟨(s.endingsUpTo i).length + 1, i - s.lastEnding i + 1⟩ := by
    intro i hi
    rw [position_eq hs hi, getLast_linesUpTo, linesUpTo_eq_endings, List.length_cons]
  refine ⟨?line, ?column, ?tabled, ?ascending, ?recovered, ?ended, ?emptied⟩
  case line =>
    intro i hi
    rw [hposition i hi]
  case column =>
    intro i hi
    rw [hposition i hi]
    exact ⟨s.lastEnding_le i, rfl⟩
  case tabled =>
    intro i hi
    rw [hposition i hi]
    exact ⟨Nat.succ_pos _, s.getElem_lineStarts i⟩
  case ascending =>
    intro i j hij hj
    apply Position.order_eq_lt_of_not_le
    rw [position_le_iff hs hj (hij.le.trans hj)]
    omega
  case recovered =>
    intro i hi
    have hle := s.lastEnding_le i
    rw [hposition i hi, offsetAt, Nat.add_sub_cancel, Nat.add_sub_cancel, s.getElem_lineStarts i]
    simp only [Option.getD_some]
    omega
  case ended =>
    intro start stop k h
    exact endPosition_of_isLastByte h
  case emptied =>
    intro start stop h
    exact endPosition_of_endings h

/-- A source with all three line endings, one between a carriage return and a line feed. -/
theorem positions_are_exact_mixed :
    let s := ofText "a\r\r\n\nb\r\n".toList
    s.InRange ∧ s.PositionsExact ∧ s.endingsUpTo 3 = [2] ∧ s.position 3 = ⟨2, 2⟩ ∧
      s.position 6 = ⟨4, 2⟩ ∧ s.endPosition 0 8 = s.position 5 := by
  have hs : (ofText "a\r\r\n\nb\r\n".toList).InRange := by
    unfold InRange
    decide
  exact ⟨hs, positions_are_exact _ hs, by decide, by decide, by decide, by decide⟩

end Source

end MarkupTree
