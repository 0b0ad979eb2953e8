-- A page is a writer that has its output at hand in two parts. Cutting the buffer at the byte
-- that the writer remembers gives these parts, so every operation of the writer is one of the
-- page, and no wrap is a cut inside a character.
import MarkupTree.Layout.Writer
import MarkupTree.Proofs.Layout.Writing
import MarkupTree.Proofs.Text.Utf8

namespace MarkupTree

namespace Text

theorem dropBytes_append (t u : Text) : dropBytes (byteLength t) (t ++ u) = some u := by
  induction t with
  | nil => cases u <;> rfl
  | cons c t ih =>
    have hpos := c.utf8Size_pos
    obtain ⟨n, hn⟩ : ∃ n, byteLength (c :: t) = n + 1 :=
      ⟨c.utf8Size + byteLength t - 1, by simp only [byteLength]; omega⟩
    have hrest : n + 1 - c.utf8Size = byteLength t := by
      simp only [byteLength] at hn
      omega
    have hle : c.utf8Size ≤ n + 1 := by
      simp only [byteLength] at hn
      omega
    rw [hn, List.cons_append, dropBytes, if_pos hle, hrest, ih]

theorem takeBytes_append (t u : Text) : takeBytes (byteLength t) (t ++ u) = some t := by
  induction t with
  | nil => cases u <;> rfl
  | cons c t ih =>
    have hpos := c.utf8Size_pos
    obtain ⟨n, hn⟩ : ∃ n, byteLength (c :: t) = n + 1 :=
      ⟨c.utf8Size + byteLength t - 1, by simp only [byteLength]; omega⟩
    have hrest : n + 1 - c.utf8Size = byteLength t := by
      simp only [byteLength] at hn
      omega
    have hle : c.utf8Size ≤ n + 1 := by
      simp only [byteLength] at hn
      omega
    rw [hn, List.cons_append, takeBytes, if_pos hle, hrest, ih]
    rfl

theorem takeBytes_eq_some_iff {n : Nat} {t front : Text} :
    takeBytes n t = some front ↔ front <+: t ∧ byteLength front = n := by
  constructor
  · intro h
    induction t generalizing n front with
    | nil =>
      cases n with
      | zero => cases h; exact ⟨List.nil_prefix, rfl⟩
      | succ n => cases h
    | cons c t ih =>
      cases n with
      | zero => cases h; exact ⟨List.nil_prefix, rfl⟩
      | succ n =>
        rw [takeBytes] at h
        split at h
        · rename_i hle
          obtain ⟨front', hfront, rfl⟩ := Option.map_eq_some_iff.mp h
          obtain ⟨hfront', hlength⟩ := ih hfront
          exact ⟨(List.prefix_cons_inj c).mpr hfront', by simp only [byteLength]; omega⟩
        · cases h
  · rintro ⟨⟨back, rfl⟩, rfl⟩
    exact takeBytes_append front back

theorem takeBytes_eq_none_iff {n : Nat} {t : Text} :
    takeBytes n t = none ↔ ∀ front, front <+: t → byteLength front ≠ n := by
  simp [Option.eq_none_iff_forall_ne_some, takeBytes_eq_some_iff]

theorem byteLength_append (t u : Text) : byteLength (t ++ u) = byteLength t + byteLength u := by
  induction t with
  | nil => rw [List.nil_append, byteLength, Nat.zero_add]
  | cons c t ih => rw [List.cons_append, byteLength, byteLength, ih, Nat.add_assoc]

end Text

namespace Utf8

/-- Only the line feed is spelled with a line feed at its end. -/
theorem Spells.getLast?_eq_iff {s : List UInt8} {n : Nat} (h : Spells s n) :
    s.getLast? = some 10 ↔ n = 10 := by
  have htail : ∀ {x : UInt8}, IsTail x → x ≠ 10 := by
    rintro x ⟨hlow, -⟩ rfl
    exact absurd hlow (by decide)
  cases h with
  | @one b _ hb hn =>
    rw [List.getLast?_singleton, Option.some.injEq, ← UInt8.toNat_inj, hn]
    rfl
  | two hb hx hn => simp [htail hx, show n ≠ 10 by omega]
  | three _ _ hy _ hlow => simp [htail hy, show n ≠ 10 by omega]
  | four _ _ _ hz _ hlow => simp [htail hz, show n ≠ 10 by omega]

/-- In front of an offset between two characters stands a line feed if the first of them is
one. -/
theorem getElem?_encode_eq_iff (t u : Text) (c : Char) :
    (encode (t ++ c :: u))[Text.byteLength (t ++ [c]) - 1]? = some 10 ↔ c = '\n' := by
  have hbytes : encode (t ++ c :: u) = encode (t ++ [c]) ++ encode u := by
    rw [← encode_append, List.append_assoc, List.singleton_append]
  have hlength : (encode (t ++ [c])).length - 1 < (encode (t ++ [c])).length := by
    have hpos := c.utf8Size_pos
    simp only [length_encode, Text.byteLength_append, Text.byteLength]
    omega
  have hlast : (encode (t ++ [c])).getLast? = (String.utf8EncodeChar c).getLast? := by
    have hne : String.utf8EncodeChar c ≠ [] := List.ne_nil_of_length_pos (by simp [c.utf8Size_pos])
    rw [encode_append, encode_cons, List.getLast?_append, encode, List.flatMap_nil, List.append_nil,
      List.getLast?_eq_some_getLast hne, Option.some_or]
  rw [hbytes, ← length_encode, List.getElem?_append_left hlength, ← List.getLast?_eq_getElem?,
    hlast, (spells_encodeChar c).getLast?_eq_iff]
  exact ⟨fun h => Char.toNat_inj.mp h, fun h => by rw [h]; rfl⟩

end Utf8

namespace Layout

open Text (byteLength byteLength_append dropBytes_append takeBytes_append)

namespace Page

variable {f : Format} {p : Page}

/-- The byte of the output at which the last breakable space stands. -/
def breakAt? (p : Page) : Option Nat := p.tail.map fun _ => byteLength p.past.reverse

/-- The page, kept as a writer keeps it. -/
def writer (p : Page) : Writer where
  buffer := p.text
  margin := p.margin
  column := p.column
  owed := p.owed
  breakAt := p.breakAt?
  beginLine := p.beginLine
  beginContent := p.beginContent
  oneLine := p.oneLine
  tightItem := p.tightItem

/-! ## Line breaks -/

/-- A writer that begins a line and owes `n` breaks. -/
def reset (n : Nat) (w : Writer) : Writer :=
  { w with column := 0, breakAt := none, beginLine := true, beginContent := true, owed := n }

/-- The loop over the breaks that are owed has come back to the output `rs`, the last
character of which ends in front of byte `k`. -/
theorem settleFrom_reset (n : Nat) (rs : List Char) (u : Text) {w : Writer}
    (hbuffer : w.buffer = rs.reverse ++ u) :
    Writer.settleFrom n (byteLength rs.reverse) (reset n w) =
      reset 0 { w with buffer := w.buffer ++ breaks (Text.trimEnd w.margin) n rs } := by
  induction n generalizing rs u w with
  | zero => simp [Writer.settleFrom, breaks, reset]
  | succ n ih =>
    cases rs with
    | nil =>
      have hzero : byteLength ([] : List Char).reverse = 0 := rfl
      rw [Writer.settleFrom, if_pos (Or.inl hzero), breaks]
      exact ih [] u hbuffer
    | cons c cs =>
      have hlength : byteLength (c :: cs).reverse = byteLength cs.reverse + c.utf8Size := by
        rw [List.reverse_cons, byteLength_append]
        rfl
      have hpos := c.utf8Size_pos
      have hcounts : (byteLength (c :: cs).reverse = 0 ∨ (Utf8.encode (reset (n + 1) w).buffer)[
          byteLength (c :: cs).reverse - 1]? = some 10) ↔ c = '\n' := by
        rw [or_iff_right (by omega), show (reset (n + 1) w).buffer = cs.reverse ++ c :: u from
          hbuffer.trans (by simp), List.reverse_cons]
        exact Utf8.getElem?_encode_eq_iff cs.reverse u c
      by_cases hc : c = '\n'
      · have hback : byteLength (c :: cs).reverse - 1 = byteLength cs.reverse := by
          rw [hlength, hc]
          rfl
        rw [Writer.settleFrom, if_pos (hcounts.mpr hc), breaks, if_pos hc, hback]
        exact ih cs (c :: u) (hbuffer.trans (by simp))
      · let m : Text := if n = 0 then [] else Text.trimEnd w.margin
        have hrest := ih (c :: cs) (u ++ '\n' :: m) (w := { w with buffer := w.buffer ++ '\n' :: m })
          (by simp [hbuffer])
        rw [Writer.settleFrom, if_neg fun hk => hc (hcounts.mp hk), breaks, if_neg hc]
        refine hrest.trans ?_
        simp [reset, m]

/-- The first break that is owed resets the writer, and so does every other one. -/
theorem settleFrom_succ (n k : Nat) (w : Writer) :
    Writer.settleFrom (n + 1) k w = Writer.settleFrom (n + 1) k (reset (n + 1) w) := rfl

theorem writer_settle : p.settle.writer = p.writer.settle := by
  have hdue : (if p.writer.tightItem = true ∧ 1 < p.writer.owed then 1 else p.writer.owed) = p.due := by
    show (if p.tightItem = true ∧ 1 < p.owed then 1 else p.owed) = p.due
    unfold due
    cases p.tightItem
    · rfl
    · simp only [true_and]
      split <;> simp <;> omega
  rw [Writer.settle, hdue]
  by_cases hzero : p.due = 0
  · rw [settle_of_due hzero, hzero, Writer.settleFrom, writer, owed_of_due hzero]
  · obtain ⟨n, hn⟩ := Nat.exists_eq_succ_of_ne_zero hzero
    have hloop := settleFrom_reset (n + 1) p.reversed []
      (w := { p.writer with owed := n + 1 }) (by simp [writer, text])
    rw [settle_eq hzero, hn, settleFrom_succ]
    refine Eq.trans ?_ hloop.symm
    simp [writer, reset, text, reversed, breakAt?, emptyMargin]

theorem writer_newline : p.newline.writer = p.writer.newline := by
  simp [newline, writer, Writer.newline, text, reversed, breakAt?]

/-- The cuts of a wrap are made between characters. -/
theorem writer_wrap : p.writer.wrap f = some (p.wrap f).writer := by
  by_cases hstay : f.width = 0 ∨ p.column ≤ f.width ∨ p.beginLine = true
  · rw [Writer.wrap, wrap, if_pos hstay]
    exact if_pos hstay
  · rw [Writer.wrap, wrap, if_neg hstay]
    refine (if_neg hstay).trans ?_
    cases htail : p.tail with
    | none =>
      have hnone : p.writer.breakAt = none := by simp [writer, breakAt?, htail]
      rw [hnone]
    | some t =>
      have hsome : p.writer.breakAt = some (byteLength p.past.reverse) := by
        simp [writer, breakAt?, htail]
      have hlength : byteLength p.past.reverse + 1 = byteLength (p.past.reverse ++ [' ']) := by
        rw [byteLength_append]
        rfl
      have hbuffer : p.writer.buffer = p.past.reverse ++ [' '] ++ t.reverse := by
        simp [writer, text, reversed_of_some htail]
      rw [hsome]
      dsimp only
      rw [hlength, hbuffer, dropBytes_append, takeBytes_append]
      dsimp only [Option.bind_eq_bind, Option.bind_some]
      rw [takeBytes_append]
      simp [writer, text, reversed, breakAt?]

/-! ## Characters -/

theorem writer_write (t : Text) :
    (p.write t).writer = { p.writer with buffer := p.text ++ t, column := p.column + t.length } := by
  rw [writer, text_write]
  unfold write breakAt?
  split <;> simp_all [writer, breakAt?]

theorem writer_startLine (c : Char) : (p.startLine c).writer = p.writer.startLine c := by
  unfold startLine Writer.startLine
  cases hbegins : p.beginLine with
  | true =>
    rw [if_pos rfl, if_pos (show p.writer.beginLine = true from hbegins)]
    have hwrite := writer_write (p := p) (if c = '\n' then p.emptyMargin else p.margin)
    exact congrArg (fun w : Writer => { w with column := p.margin.length }) hwrite
  | false =>
    rw [if_neg Bool.false_ne_true, if_neg (by simp [writer, hbegins])]

theorem writer_putChar (mode : Mode) {c : Char} (next : Option Char) (h : ¬ (mode = .literal ∧ c = '\n')) :
    (p.putChar f mode c next).writer = (p.writer.startLine c).putChar f mode c next := by
  rw [putChar, ← writer_startLine]
  dsimp only
  rw [if_neg h, Writer.putChar]
  generalize p.startLine c = q
  have hlast : q.writer.buffer.getLast? = q.reversed.head? := List.getLast?_reverse
  rw [hlast]
  have hwrite := writer_write (p := q)
    (if mode = .literal then [c] else f.escape mode q.reversed.head? c next q.beginContent)
  exact congrArg (fun w : Writer =>
    { w with beginLine := false, beginContent := q.beginContent && c.isDigit }) hwrite

theorem writer_putSpace (next : Option Char) (hbegun : p.beginLine = false) :
    (p.putSpace (!next.any startsBlock)).writer = p.writer.putSpace next := by
  unfold putSpace Writer.putSpace
  rw [if_neg (by simp [hbegun])]
  cases next.any startsBlock with
  | true =>
    cases hp : p.tail <;> simp [writer, text, reversed, breakAt?, hp]
  | false => simp [writer, text, reversed, breakAt?]

/-- A run of spaces is one space, behind which the rest of the chunk follows. -/
theorem glyphs_space (cs : Text) :
    glyphs true (' ' :: cs) = .space (!(cs.dropWhile (· == ' ')).head?.any startsBlock) ::
      glyphs true (cs.dropWhile (· == ' ')) := by
  induction cs with
  | nil => rfl
  | cons c cs ih =>
    by_cases hc : c = ' '
    · have hrun : glyphs true (' ' :: ' ' :: cs) = glyphs true (' ' :: cs) := rfl
      rw [hc, hrun, ih, List.dropWhile_cons_of_pos rfl]
    · rw [glyphs, List.dropWhile_cons_of_neg (by simpa using hc)]
      simp [hc]

/-- At the start of a line the spaces of a run are left out one by one. -/
theorem foldl_glyphs_space (mode : Mode) (cs : Text) (hbegins : p.beginLine = true) :
    (glyphs true (' ' :: cs)).foldl (putGlyph f mode) p =
      (glyphs true cs).foldl (putGlyph f mode) p := by
  have hsame : ∀ breaks, p.putGlyph f mode (.space breaks) = p := fun breaks => by
    rw [putGlyph, putSpace, if_pos hbegins, wrap_of_beginLine hbegins]
  by_cases hhead : cs.head? = some ' '
  · have hrun : glyphs true (' ' :: cs) = glyphs true cs := by simp [glyphs, hhead]
    rw [hrun]
  · have hone : glyphs true (' ' :: cs) = .space (!cs.head?.any startsBlock) :: glyphs true cs := by
      simp [glyphs, hhead]
    rw [hone, List.foldl_cons, hsame]

theorem writer_putChars (wraps : Bool) (mode : Mode) (t : Text) (p : Page) :
    p.writer.putChars f wraps mode t =
      some ((glyphs wraps t).foldl (putGlyph f mode) p).writer := by
  induction hlength : t.length using Nat.strongRecOn generalizing t p with
  | ind n ih =>
  subst hlength
  cases t with
  | nil =>
    rw [Writer.putChars]
    rfl
  | cons c cs =>
    rw [Writer.putChars]
    by_cases hspace : c = ' ' ∧ wraps = true
    · rw [if_pos hspace]
      obtain ⟨rfl, rfl⟩ := hspace
      cases hbegins : p.beginLine with
      | true =>
        rw [if_pos (show p.writer.beginLine = true from hbegins), writer_wrap,
          wrap_of_beginLine hbegins, foldl_glyphs_space mode cs hbegins]
        exact ih _ (Nat.lt_succ_self _) cs p rfl
      | false =>
        have hle := (List.dropWhile_sublist (· == ' ') (l := cs)).length_le
        rw [if_neg (by simp [writer, hbegins])]
        dsimp only
        rw [← writer_putSpace _ hbegins, writer_wrap, glyphs_space]
        exact ih _ (Nat.lt_succ_of_le hle) _ _ rfl
    · have hglyphs : glyphs wraps (c :: cs) = .char c cs.head? :: glyphs wraps cs := by
        rw [glyphs, if_neg]
        simpa [and_comm] using hspace
      rw [if_neg hspace, hglyphs, List.foldl_cons, putGlyph]
      by_cases hend : mode = .literal ∧ c = '\n'
      · rw [if_pos hend, putChar, if_pos hend, wrap_of_beginLine rfl, ← writer_startLine,
          ← writer_newline]
        exact ih _ (Nat.lt_succ_self _) cs _ rfl
      · rw [if_neg hend, ← writer_putChar mode cs.head? hend, writer_wrap]
        exact ih _ (Nat.lt_succ_self _) cs _ rfl

theorem writer_put (t : Text) (wraps : Bool) (mode : Mode) :
    p.writer.put f t wraps mode = some (p.put f t wraps mode).writer := by
  rw [Writer.put, ← writer_settle, writer_putChars]
  rfl

theorem finish_writer : p.writer.finish = p.finish := by
  have hlast : p.text.getLast? = p.reversed.head? := List.getLast?_reverse
  show (if p.text ≠ [] ∧ p.text.getLast? ≠ some '\n' then p.text ++ ['\n'] else p.text) = _
  cases hreversed : p.reversed with
  | nil =>
    rw [if_neg (by simp [text, hreversed]), finish, text, hreversed]
    rfl
  | cons c cs =>
    have htext : p.text ≠ [] := by simp [text, hreversed]
    by_cases hc : c = '\n'
    · rw [if_neg (by simp [hlast, hreversed, hc]), finish, hreversed, hc]
      rfl
    · rw [if_pos ⟨htext, by simp [hlast, hreversed, hc]⟩, finish, hreversed]
      simp [hc]

/-! ## Operations -/

/-- What an operation of the writer does to a page. -/
def operate (f : Format) (p : Page) : Writer.Operation → Page
  | .put t wraps mode => p.put f t wraps mode
  | .lineBreak => p.owe 1
  | .blankLine => p.owe 2
  | .indent margin => { p with margin := p.margin ++ margin }
  | .truncate length => { p with margin := (Text.takeBytes length p.margin).getD p.margin }
  | .beginContent => { p with beginContent := true }
  | .oneLine on => { p with oneLine := on }
  | .tightItem on => { p with tightItem := on }

end Page

namespace Writer

/-- The operation takes a margin apart inside a character. -/
def Operation.Splits (margin : Text) : Operation → Prop
  | .truncate length =>
    length ≤ byteLength margin ∧ ∀ front, front <+: margin → byteLength front ≠ length
  | _ => False

variable {f : Format} {p : Page}

theorem operate_writer {o : Operation} (h : ¬ o.Splits p.margin) :
    p.writer.operate f o = some (p.operate f o).writer := by
  cases o with
  | put t wraps mode => exact Page.writer_put t wraps mode
  | truncate length =>
    show (if byteLength p.margin < length then _ else _) = _
    cases htake : Text.takeBytes length p.margin with
    | none =>
      have hlong : byteLength p.margin < length := Nat.lt_of_not_le fun hle =>
        h ⟨hle, Text.takeBytes_eq_none_iff.mp htake⟩
      rw [if_pos hlong, Page.operate, htake]
      rfl
    | some front =>
      obtain ⟨⟨back, hback⟩, rfl⟩ := Text.takeBytes_eq_some_iff.mp htake
      have hfits : ¬ byteLength p.margin < byteLength front := by
        rw [← hback, byteLength_append]
        omega
      rw [if_neg hfits, Page.operate, htake]
      show (do pure { p.writer with margin := ← Text.takeBytes (byteLength front) p.margin }) = _
      rw [htake]
      rfl
  | _ => rfl

theorem operate_of_splits {w : Writer} {o : Operation} (h : o.Splits w.margin) :
    w.operate f o = none := by
  cases o with
  | truncate length =>
    rw [operate, if_neg (Nat.not_lt.mpr h.1), Text.takeBytes_eq_none_iff.mpr h.2]
    rfl
  | _ => exact h.elim

theorem run_writer {o : Operation} (h : ¬ o.Splits p.margin) (os : List Operation) :
    p.writer.run f (o :: os) = (p.operate f o).writer.run f os := by
  rw [run, List.foldlM_cons, operate_writer h]
  rfl

end Writer

end Layout

end MarkupTree
