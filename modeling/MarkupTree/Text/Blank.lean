-- The blank characters are those with the Unicode property White_Space:
-- 25 code points, all of them in the ranges below.
import MarkupTree.Text.Basic

namespace MarkupTree

namespace Text

/-- The ranges of the Unicode property White_Space, in ascending order. -/
def blankRanges : List (Nat × Nat) :=
  [(0x9, 0xD), (0x20, 0x20), (0x85, 0x85), (0xA0, 0xA0), (0x1680, 0x1680), (0x2000, 0x200A),
    (0x2028, 0x2029), (0x202F, 0x202F), (0x205F, 0x205F), (0x3000, 0x3000)]

def isBlank (c : Char) : Bool :=
  blankRanges.any fun r => decide (r.1 ≤ c.toNat) && decide (c.toNat ≤ r.2)

def trimStart (t : Text) : Text := t.dropWhile isBlank

def trimEnd (t : Text) : Text := dropEndWhile isBlank t

/-- The first run of characters that are not blank; empty if all are blank. -/
def firstWord (t : Text) : Text := (trimStart t).takeWhile (fun c => !isBlank c)

end Text

end MarkupTree
