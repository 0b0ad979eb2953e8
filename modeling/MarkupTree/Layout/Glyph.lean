-- A chunk of text as the page takes it: spaces at which a line may break, and
-- characters. A run of spaces counts as one space where lines may break.
import MarkupTree.Text.Ascii

namespace MarkupTree

namespace Layout

inductive Glyph
  /-- A space, and whether a line may break there. -/
  | space (breaks : Bool)
  /-- A character and the one after it in the chunk. -/
  | char (c : Char) (next : Option Char)
  deriving DecidableEq, Repr

/-- Whether the character at the start of a line could begin a block. -/
def startsBlock (c : Char) : Bool :=
  c.isDigit || c == '-' || c == '+' || c == '*' || c == '=' || c == '#' || c == '>'

/-- The glyphs of a chunk. No line breaks in front of what could then begin a
block. -/
def glyphs (wrap : Bool) : Text → List Glyph
  | [] => []
  | c :: cs =>
    if wrap && c == ' ' then
      if cs.head? == some ' ' then glyphs wrap cs
      else .space (!cs.head?.any startsBlock) :: glyphs wrap cs
    else .char c cs.head? :: glyphs wrap cs

end Layout

end MarkupTree
