-- Positions that nest. In a document from nested events whose ranges nest, each
-- node contains its children, as long as every paragraph that no event started
-- ends with the last inline in it. Its end is that of the last inline that
-- starts there, and the finish of a construct does not count.
import MarkupTree.Proofs.Document.Told
import MarkupTree.Proofs.Event.Enclosing

namespace MarkupTree

/-- The interval of the node contains those of its children. -/
def Row.Encloses (r : Row) : Prop :=
  ∀ c ∈ r.children, r.node.start ≤ c.start ∧ c.stop ≤ r.node.stop

instance (r : Row) : Decidable r.Encloses :=
  inferInstanceAs (Decidable (∀ c ∈ r.children, r.node.start ≤ c.start ∧ c.stop ≤ r.node.stop))

/-- If the passage is a paragraph that no event started, nothing but line
endings stands between the last inline that starts in it, or stands there
alone, and the end of its last child. -/
def Rose.EndsWithInlines (s : Source) (r : Rose Passage) : Prop :=
  r.label.implied = true → ∀ q ∈ r.children.getLast?, ¬ s.Shows q.label.reach q.label.stop

instance (s : Source) (r : Rose Passage) : Decidable (r.EndsWithInlines s) :=
  inferInstanceAs (Decidable (r.label.implied = true →
    ∀ q ∈ r.children.getLast?, ¬ s.Shows q.label.reach q.label.stop))

/-! ## Intervals -/

namespace Passage

variable {s : Source} {lo hi : Nat} {p : Passage}

/-- What stands inside a range has its interval inside that of the range. -/
theorem Within.le (h : p.Within s lo hi) (hs : s.InRange) :
    s.position lo ≤ s.position p.start ∧
      s.endPosition p.start p.stop ≤ s.endPosition lo hi := by
  obtain ⟨i, hihi, hstart, hinked⟩ := h.shows
  have hlen := Source.lt_length_of_inked hinked
  have hle : lo ≤ p.start := h.start
  refine ⟨(Source.position_le_iff hs (by omega) (by omega)).mpr hle, ?_⟩
  obtain ⟨k, hk, ⟨-, hnone⟩ | ⟨-, -, hkinked, hlast⟩⟩ := s.exists_endPosition lo hi
  · exact absurd (h.shows.mono hle (Nat.le_refl _)) hnone
  · have hbefore : ∀ j, j < hi → s.inked j = true → j ≤ k := by
      intro j hj hjinked
      by_contra hkj
      rw [hlast j (Nat.lt_of_not_le hkj) hj] at hjinked
      cases hjinked
    have hklen := Source.lt_length_of_inked hkinked
    obtain ⟨c, hc, ⟨rfl, -⟩ | ⟨-, hcstop, hcinked, -⟩⟩ := s.exists_endPosition p.start p.stop
    · rw [hc, hk, Source.position_le_iff hs (by omega) (by omega)]
      exact hstart.trans (hbefore i hihi hinked)
    · have hclen := Source.lt_length_of_inked hcinked
      rw [hc, hk, Source.position_le_iff hs (by omega) (by omega)]
      exact hbefore c (h.stop c hcstop hcinked) hcinked

/-- What shows more than line endings past the end of a range ends after it. -/
theorem not_le_of_shows (hs : s.InRange) (hlo : lo ≤ p.start) (hhi : s.Shows p.start hi)
    (hstop : hi ≤ p.stop) (h : s.Shows hi p.stop) :
    ¬ s.endPosition p.start p.stop ≤ s.endPosition lo hi := by
  obtain ⟨i, histop, hpast, hinked⟩ := h
  obtain ⟨k, hk, ⟨-, hnone⟩ | ⟨-, hkhi, hkinked, -⟩⟩ := s.exists_endPosition lo hi
  · exact absurd (hhi.mono hlo (Nat.le_refl _)) hnone
  · obtain ⟨c, hc, ⟨-, hnone⟩ | ⟨-, -, hcinked, hlast⟩⟩ := s.exists_endPosition p.start p.stop
    · exact absurd (hhi.mono (Nat.le_refl _) hstop) hnone
    · have hic : i ≤ c := by
        by_contra hci
        rw [hlast i (Nat.lt_of_not_le hci) histop] at hinked
        cases hinked
      rw [hc, hk, Source.position_le_iff hs (Source.lt_length_of_inked hcinked).le
        (Source.lt_length_of_inked hkinked).le]
      omega

end Passage

namespace Document

variable {s : Source} {o : Outline} {hi : Nat}

theorem nested_document (ho : o.fits .blocks = true) (hn : o.nests 0 hi = true)
    (hshows : o.shows s .blocks = true) : ∀ r ∈ (o.document s).subroses, r.Nested s := by
  refine List.forall_mem_cons.mpr ⟨⟨fun _ c hc => ?_, nofun⟩, Outline.nested_passages ho hn hshows⟩
  have hwithin := (Outline.laid_passages ho hn hshows (by simp)).within c hc
  obtain ⟨i, -, hle, hinked⟩ := hwithin.shows
  exact ⟨hwithin.start, fun i _ hinked => Source.lt_length_of_inked hinked,
    i, Source.lt_length_of_inked hinked, hle, hinked⟩

theorem encloses_iff {t : Tree} {r : Rose Passage} (h : t.Tells s r) :
    t.row.Encloses ↔ ∀ c ∈ r.children,
      s.position r.label.start ≤ s.position c.label.start ∧
        s.endPosition c.label.start c.label.stop ≤ s.endPosition r.label.start r.label.stop := by
  have hall : (∀ u ∈ t.row.children.map Node.told, t.node.start ≤ u.2.1 ∧ u.2.2 ≤ t.node.stop) ↔
      ∀ u ∈ r.children.map fun c => c.label.told s,
        t.node.start ≤ u.2.1 ∧ u.2.2 ≤ t.node.stop := by
    rw [h.children]
  rw [List.forall_mem_map, List.forall_mem_map] at hall
  rw [← h.start, ← h.stop]
  exact hall

/-- In a document from nested events whose ranges nest, the intervals of the
nodes nest exactly if each paragraph that no event started ends with the last
inline in it. -/
theorem positions_nest_iff (ho : o.fits .blocks = true) (hn : o.nests 0 hi = true)
    (hshows : o.shows s .blocks = true) (hs : s.InRange) :
    (∀ r ∈ (ofEvents s o.events).trees.rows, r.Encloses) ↔
      ∀ r ∈ (o.document s).subroses, r.EndsWithInlines s := by
  have hnested := nested_document ho hn hshows
  constructor
  · intro h r hr himplied q hq hpast
    obtain ⟨t, ht, htells⟩ := exists_telling ho hr
    obtain ⟨d, hd, hstart, hstop, hshown, hreach, -⟩ := (hnested r hr).implied himplied
    rw [hd, Option.mem_def, Option.some.injEq] at hq
    subst hq
    have hencloses := (encloses_iff htells).mp (h _ (List.mem_map_of_mem ht)) d (List.mem_of_getLast? hd)
    rw [hstop] at hencloses
    exact Passage.not_le_of_shows hs hstart hshown hreach hpast hencloses.2
  · intro h row hrow
    obtain ⟨t, ht, rfl⟩ := List.mem_map.mp hrow
    obtain ⟨r, hr, htells⟩ := exists_told ho ht
    refine (encloses_iff htells).mpr fun c hc => ?_
    cases himplied : r.label.implied with
    | false => exact ((hnested r hr).explicit himplied c hc).le hs
    | true =>
      obtain ⟨q, hq, -, -, -, -, hwithin⟩ := (hnested r hr).implied himplied
      exact (hwithin (h r hr himplied q hq) c hc).le hs

/-- A paragraph that no event started, with an emphasis before its last text. -/
theorem positions_nest_emphasis_first :
    let s := Source.ofText "- *a* b\n".toList
    let line := Outline.enclose .emphasis 2 5 2 5 (.leaf 3 4 (.text ['a']) .nil)
      (.leaf 5 7 (.text [' ', 'b']) .nil)
    let o := Outline.enclose (.list none) 0 8 0 8 (.enclose .item 0 8 0 8 line .nil) .nil
    (o.fits .blocks = true ∧ o.nests 0 8 = true ∧ o.shows s .blocks = true ∧ s.InRange) ∧
      ∀ r ∈ (ofEvents s o.events).trees.rows, r.Encloses := by
  intro s line o
  have ho : o.fits .blocks = true := by decide
  have hn : o.nests 0 8 = true := by decide
  have hshows : o.shows s .blocks = true := by decide
  have hs : s.InRange := by
    unfold Source.InRange
    decide
  exact ⟨⟨ho, hn, hshows, hs⟩, (positions_nest_iff ho hn hshows hs).mpr (by decide)⟩

/-- A paragraph that no event started ends inside its last emphasis. -/
theorem paragraph_ends_in_emphasis :
    let s := Source.ofText "- *a*\n".toList
    let line := Outline.enclose .emphasis 2 5 2 5 (.leaf 3 4 (.text ['a']) .nil) .nil
    let o := Outline.enclose (.list none) 0 6 0 6 (.enclose .item 0 6 0 6 line .nil) .nil
    (o.fits .blocks = true ∧ o.nests 0 6 = true ∧ o.shows s .blocks = true) ∧
      ¬ ∀ r ∈ (ofEvents s o.events).trees.rows, r.Encloses := by
  decide

end Document

end MarkupTree
