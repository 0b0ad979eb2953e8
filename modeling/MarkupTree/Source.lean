-- A source text with the byte offsets at which its lines start. A line ends
-- at LF, at CRLF or at a lone CR. Offsets become positions here, and the gap
-- between two blocks is searched for blank lines.
import MarkupTree.Position
import MarkupTree.Text.Blank
import MarkupTree.Text.Utf8

namespace MarkupTree

namespace Source

/-! ## Lines -/

/-- The byte of a line feed or a carriage return. -/
def isLineEnd (b : UInt8) : Bool := b == 10 || b == 13

/-- The offsets that follow the line endings of the bytes, the first of which
stands at `offset`. -/
def startsFrom (offset : Nat) : List UInt8 → List Nat
  | [] => []
  | b :: bs =>
    if b = 10 ∨ (b = 13 ∧ bs.head? ≠ some 10) then (offset + 1) :: startsFrom (offset + 1) bs
    else startsFrom (offset + 1) bs

end Source

/-- A text, with its bytes and lines at hand. -/
structure Source where
  text : Text
  bytes : List UInt8 := Utf8.encode text
  /-- The offsets of the first bytes of the lines, in ascending order. -/
  lineStarts : List Nat := 0 :: Source.startsFrom 0 bytes
  bytes_eq : bytes = Utf8.encode text := by rfl
  lineStarts_eq : lineStarts = 0 :: Source.startsFrom 0 bytes := by rfl

namespace Source

def ofText (text : Text) : Source := { text }

@[simp] theorem text_ofText (t : Text) : (ofText t).text = t := rfl

/-! ## Positions -/

/-- The position of the byte at an offset. -/
def position (s : Source) (offset : Nat) : Position :=
  let past := s.lineStarts.takeWhile (· ≤ offset)
  Position.clamped past.length (offset - past.getLast?.getD 0 + 1)

/-- The position of the last byte of the span that is no line ending at its
end. A span that holds nothing else has the position of its start. -/
def endPosition (s : Source) (start stop : Nat) : Position :=
  let kept := ((s.bytes.take stop).drop start).reverse.dropWhile isLineEnd
  if kept.length = 0 then s.position start else s.position (start + kept.length - 1)

/-- The end of a span without the blanks at its end. -/
def trimmedEnd (s : Source) (start stop : Nat) : Nat :=
  match Text.slice? s.text start stop with
  | some t => start + Text.byteLength (Text.trimEnd t)
  | none => stop

/-! ## Blank lines -/

/-- The lines of a text, without their endings. -/
def lines : Text → List Text
  | [] => [[]]
  | '\r' :: '\n' :: cs => [] :: lines cs
  | c :: cs =>
    if c = '\n' ∨ c = '\r' then [] :: lines cs
    else
      match lines cs with
      | [] => [[c]]
      | l :: ls => (c :: l) :: ls

/-- Whether a line between two others holds nothing but blanks and the
markers of block quotes. -/
def hasBlankLine (gap : Text) : Bool :=
  ((lines gap).drop 1).dropLast.any fun l => l.all fun c => c == '>' || Text.isBlank c

/-- Whether the source from `start` to `stop` spans a blank line. -/
def blankBetween (s : Source) (start stop : Nat) : Bool :=
  match Text.slice? s.text start stop with
  | some gap => hasBlankLine gap
  | none => false

end Source

end MarkupTree
