-- An HTML text is a row of pieces: tags, escaped text and raw text. A piece
-- may also ask that what follows starts on a new line.
import MarkupTree.Html.Escape

namespace MarkupTree

namespace Html

/-- An attribute with its value as it stands between the quotes. -/
structure Attribute where
  name : Text
  value : Text
  deriving DecidableEq, Repr

inductive Piece
  | opening (name : Text) (attributes : List Attribute)
  | closing (name : Text)
  /-- An element without content. -/
  | void (name : Text) (attributes : List Attribute)
  /-- The tag of an element without content, up to where more attributes follow. -/
  | tagStart (name : Text) (attributes : List Attribute)
  /-- The last attributes of a tag that was started, and its end. -/
  | tagEnd (attributes : List Attribute)
  /-- Text of the document, to be escaped. -/
  | chars (text : Text)
  /-- Text that is written as it is. -/
  | raw (text : Text)
  /-- The note in the place of raw HTML that is left out. -/
  | omitted
  | newline
  /-- A line break, unless the output is empty or ends with one. -/
  | freshLine
  deriving DecidableEq, Repr

def Attribute.text (a : Attribute) : Text :=
  ' ' :: a.name ++ "=\"".toList ++ a.value ++ "\"".toList

namespace Piece

/-- The piece as text. A fresh line has none of its own. -/
def text : Piece → Text
  | .opening name attributes => '<' :: name ++ attributes.flatMap Attribute.text ++ ['>']
  | .closing name => "</".toList ++ name ++ ['>']
  | .void name attributes => '<' :: name ++ attributes.flatMap Attribute.text ++ " />".toList
  | .tagStart name attributes => '<' :: name ++ attributes.flatMap Attribute.text
  | .tagEnd attributes => attributes.flatMap Attribute.text ++ " />".toList
  | .chars t => escape t
  | .raw t => t
  | .omitted => "<!-- raw HTML omitted -->".toList
  | .newline => ['\n']
  | .freshLine => []

end Piece

/-- Whether the output is at the start of a line after `t`, given whether it
was before. -/
def atLineStart (before : Bool) : Text → Bool
  | [] => before
  | c :: cs => atLineStart (c == '\n') cs

theorem atLineStart_append (before : Bool) (s t : Text) :
    atLineStart before (s ++ t) = atLineStart (atLineStart before s) t := by
  induction s generalizing before with
  | nil => rfl
  | cons c s ih => exact ih _

/-- The text of the pieces. `fresh` tells whether the output so far is empty or
ends with a line break. -/
def print (fresh : Bool) : List Piece → Text
  | [] => []
  | .freshLine :: ps => if fresh then print true ps else '\n' :: print true ps
  | p :: ps => p.text ++ print (atLineStart fresh p.text) ps

/-- Printing goes piece by piece: what follows depends on what stands before
only in whether a line starts there. -/
theorem print_append (fresh : Bool) (ps qs : List Piece) :
    print fresh (ps ++ qs) =
      print fresh ps ++ print (atLineStart fresh (print fresh ps)) qs := by
  induction ps generalizing fresh with
  | nil => simp [print, atLineStart]
  | cons p ps ih =>
    cases p with
    | freshLine =>
      cases fresh with
      | true => simp [print, ih]
      | false => simp [print, ih, atLineStart]
    | _ => simp [print, ih, atLineStart_append]

end Html

end MarkupTree
