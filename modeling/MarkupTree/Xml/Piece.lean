-- An XML text is a row of pieces: texts and the spaces in front of the tags. How
-- many spaces that are is counted up and down on the way.
import MarkupTree.Text.Basic

namespace MarkupTree

namespace Xml

/-! ## Text -/

/-- What makes a text fit for literals and for the values of attributes. -/
abbrev Escaper := Text → Text

/-- A character, or the reference that stands for it. -/
def escapeChar (c : Char) : Text :=
  if c = '<' then "&lt;".toList
  else if c = '>' then "&gt;".toList
  else if c = '&' then "&amp;".toList
  else if c = '\x27' then "&apos;".toList
  else if c = '\x22' then "&quot;".toList
  else [c]

/-- The escaper that goes character by character. -/
def escape : Escaper := fun t => t.flatMap escapeChar

/-! ## Pieces -/

inductive Piece
  | text (t : Text)
  /-- The spaces in front of a tag. -/
  | indent
  /-- What follows has two spaces more in front of its tags. -/
  | deeper
  /-- What follows has two spaces less, if it has any. -/
  | back
  deriving DecidableEq, Repr

namespace Piece

/-- The piece as text, with so many spaces in front of tags. -/
def shown (spaces : Nat) : Piece → Text
  | .text t => t
  | .indent => Text.spaces spaces
  | .deeper | .back => []

/-- The number of spaces after the piece. -/
def next (spaces : Nat) : Piece → Nat
  | .deeper => spaces + 2
  | .back => spaces - 2
  | .text _ | .indent => spaces

end Piece

/-- The number of spaces after the pieces. -/
def spacesAfter (spaces : Nat) (ps : List Piece) : Nat := ps.foldl Piece.next spaces

/-- The text of the pieces. -/
def print (spaces : Nat) : List Piece → Text
  | [] => []
  | p :: ps => p.shown spaces ++ print (p.next spaces) ps

theorem spacesAfter_append (spaces : Nat) (ps qs : List Piece) :
    spacesAfter spaces (ps ++ qs) = spacesAfter (spacesAfter spaces ps) qs := List.foldl_append

/-- Printing goes piece by piece: of what stands before, only the number of
spaces counts. -/
theorem print_append (spaces : Nat) (ps qs : List Piece) :
    print spaces (ps ++ qs) = print spaces ps ++ print (spacesAfter spaces ps) qs := by
  induction ps generalizing spaces with
  | nil => rfl
  | cons p ps ih => rw [List.cons_append, print, print, ih, List.append_assoc]; rfl

end Xml

end MarkupTree
