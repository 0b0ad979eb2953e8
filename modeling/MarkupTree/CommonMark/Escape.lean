-- How text is written in CommonMark so that reading gives it back: what
-- could be read as markup gets a backslash, a percent sign or a reference.
import MarkupTree.Layout.Page

namespace MarkupTree

namespace CommonMark

open Layout

/-- What is markup anywhere in a paragraph. -/
def inlineMarks : List Char := ['*', '_', '[', ']', '#', '<', '>', '\\', '\x60', '~']

/-- Whether the text of a paragraph has to escape the character. Some are
markup only before certain characters, and some only where the content of a
line begins. -/
def marksText (last : Option Char) (c : Char) (next : Option Char) (beginContent : Bool) : Bool :=
  let afterDigit := last.any Char.isDigit
  inlineMarks.contains c || c.toNat < 0x20 || (c == '!' && next == some '[') ||
    (c == '&' && next.any fun n => n.isAlpha || n == '#') ||
    (beginContent && (c == '-' || c == '+' || c == '=') && !afterDigit) ||
    (beginContent && (c == '.' || c == ')') && afterDigit && next.all Text.isAsciiBlank)

/-- Whether a character has to be escaped. -/
def needsEscape (mode : Mode) (last : Option Char) (c : Char) (next : Option Char)
    (beginContent : Bool) : Bool :=
  match mode with
  | .literal => false
  | .normal => marksText last c next beginContent
  | .title => ['\x60', '<', '>', '\x22', '\\'].contains c
  | .address => ['\x60', '<', '>', '\\', '(', ')'].contains c || Text.isAsciiBlank c

/-- A character as its mode writes it. -/
def escapeChar : Escape := fun mode last c next beginContent =>
  if !needsEscape mode last c next beginContent then [c]
  else if mode = .address ∧ Text.isAsciiBlank c then Text.percent c.toNat
  else if Text.isAsciiPunctuation c then ['\\', c]
  else "&#".toList ++ Text.ofNat c.toNat ++ [';']

end CommonMark

end MarkupTree
