-- Text is a list of characters, so every rule on it is a recursion over that
-- list. Here are the few operations that the other modules share.

namespace MarkupTree

/-- A text, as the list of its characters. -/
abbrev Text := List Char

namespace Text

/-- The decimal digits of a number, without leading zeros. -/
def ofNat (n : Nat) : Text := Nat.toDigits 10 n

/-- A row of `n` spaces. -/
def spaces (n : Nat) : Text := List.replicate n ' '

/-- Whether the text begins with the given one. -/
def startsWith (t lead : Text) : Bool := lead.isPrefixOf t

/-- What follows the given beginning, if the text has it. -/
def after? (lead t : Text) : Option Text :=
  if lead.isPrefixOf t then some (t.drop lead.length) else none

theorem after?_append (lead t : Text) : after? lead (lead ++ t) = some t := by
  rw [after?, if_pos (List.isPrefixOf_iff_prefix.mpr (List.prefix_append lead t)), List.drop_left]

/-- The number of bytes of the text in UTF-8. -/
def byteLength : Text → Nat
  | [] => 0
  | c :: cs => c.utf8Size + byteLength cs

/-- The text without the characters of its end that meet `p`. -/
def dropEndWhile (p : Char → Bool) (t : Text) : Text := (t.reverse.dropWhile p).reverse

/-! ## Cutting at byte offsets -/

/-- What stands from byte `n` on. `none` if the offset lies past the end or
inside a character. -/
def dropBytes : Nat → Text → Option Text
  | 0, t => some t
  | _ + 1, [] => none
  | n + 1, c :: cs => if c.utf8Size ≤ n + 1 then dropBytes (n + 1 - c.utf8Size) cs else none

/-- The first `n` bytes. `none` if the text is shorter or the cut falls inside
a character. -/
def takeBytes : Nat → Text → Option Text
  | 0, _ => some []
  | _ + 1, [] => none
  | n + 1, c :: cs =>
    if c.utf8Size ≤ n + 1 then (takeBytes (n + 1 - c.utf8Size) cs).map (c :: ·) else none

/-- The bytes from `start` to `stop`, where that is a stretch of whole
characters. -/
def slice? (t : Text) (start stop : Nat) : Option Text :=
  if start ≤ stop then (dropBytes start t).bind (takeBytes (stop - start)) else none

end Text

end MarkupTree
