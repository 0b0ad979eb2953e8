-- Text in HTML: four characters become references, all others stay. And
-- addresses in HTML: what no address may hold becomes percent signs, and what
-- the attribute may not hold becomes references.
import MarkupTree.Text.Blank
import MarkupTree.Text.Ascii

namespace MarkupTree

namespace Html

/-! ## Text -/

/-- A character as text and attribute values write it. -/
def escapeChar (c : Char) : Text :=
  if c = '&' then "&amp;".toList
  else if c = '<' then "&lt;".toList
  else if c = '>' then "&gt;".toList
  else if c = '\x22' then "&quot;".toList
  else [c]

def escape (t : Text) : Text := t.flatMap escapeChar

theorem escape_append (s t : Text) : escape (s ++ t) = escape s ++ escape t :=
  List.flatMap_append

/-! ## Addresses -/

/-- A percent encoder of addresses, given the printed ASCII characters that it
encodes beside the control characters. What it makes of an address is taken
whole, not piece by piece. -/
abbrev Encoder := (specials : List Char) → (url : Text) → Text

/-- Whether an encoder writes the character byte by byte with percent signs. -/
def needsPercent (specials : List Char) (c : Char) : Bool :=
  !Text.isAscii c || Text.isAsciiControl c || specials.contains c

def percentChar (specials : List Char) (c : Char) : Text :=
  if needsPercent specials c then (String.utf8EncodeChar c).flatMap fun b => Text.percent b.toNat
  else [c]

/-- The encoder that goes character by character. -/
def percentEncode : Encoder := fun specials url => url.flatMap (percentChar specials)

/-- The printed ASCII characters that an address writes with percent signs. A
percent sign itself stays, so escapes in the address are kept. -/
def addressSpecials : List Char :=
  [' ', '\x22', '<', '>', '\\', '[', ']', '^', '\x60', '\x7b', '|', '\x7d']

/-- An encoded character as the attribute writes it. -/
def referenceChar (c : Char) : Text :=
  if c = '&' then "&amp;".toList
  else if c = '\x27' then "&#x27;".toList
  else [c]

def address (e : Encoder) (url : Text) : Text := (e addressSpecials url).flatMap referenceChar

/-- The kinds of data that an image may hold in its address. -/
def harmlessData : List Text :=
  ["image/png".toList, "image/gif".toList, "image/jpeg".toList, "image/webp".toList]

/-- The schemes that run a script or read a local file. -/
def dangerousSchemes : List Text :=
  ["javascript:".toList, "vbscript:".toList, "file:".toList]

/-- Whether following the address can run a script or read a local file. -/
def isDangerous (url : Text) : Bool :=
  let lower := Text.lowerAscii (Text.trimStart url)
  match Text.after? "data:".toList lower with
  | some data => !harmlessData.any fun kind => Text.startsWith data kind
  | none => dangerousSchemes.any fun scheme => Text.startsWith lower scheme

end Html

end MarkupTree
