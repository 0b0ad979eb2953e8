-- Classes of characters that hold ASCII characters only. Letters, digits and
-- lower case are those of the core library, which are ASCII too.
import MarkupTree.Text.Basic

namespace MarkupTree

namespace Text

/-- Space, tab, line feed, form feed and carriage return. -/
def isAsciiBlank (c : Char) : Bool :=
  c == ' ' || c == '\t' || c == '\n' || c == '\x0c' || c == '\r'

/-- The printed ASCII characters that are neither letters, digits nor the space. -/
def isAsciiPunctuation (c : Char) : Bool :=
  (0x21 ≤ c.toNat && c.toNat ≤ 0x2F) || (0x3A ≤ c.toNat && c.toNat ≤ 0x40) ||
    (0x5B ≤ c.toNat && c.toNat ≤ 0x60) || (0x7B ≤ c.toNat && c.toNat ≤ 0x7E)

/-- The control characters of ASCII, delete included. -/
def isAsciiControl (c : Char) : Bool := c.toNat ≤ 0x1F || c.toNat == 0x7F

def isAscii (c : Char) : Bool := c.toNat ≤ 0x7F

/-- The text with the letters `A` to `Z` in lower case. -/
def lowerAscii (t : Text) : Text := t.map Char.toLower

/-! ## Percent signs -/

/-- A digit of base sixteen, with capital letters. -/
def hexDigit (n : Nat) : Char :=
  if n < 10 then Char.ofNat (0x30 + n) else Char.ofNat (0x41 + (n - 10))

/-- A byte as a percent sign and two digits. -/
def percent (byte : Nat) : Text := ['%', hexDigit (byte / 16), hexDigit (byte % 16)]

end Text

end MarkupTree
