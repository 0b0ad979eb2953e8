-- Reading bytes as UTF-8. One machine reads a byte at a time and reports
-- whole characters and the longest pieces that cannot be part of one. Strict
-- reading stops at the first such piece, and lenient reading puts U+FFFD in
-- the place of each.
import MarkupTree.Text.Basic

namespace MarkupTree

namespace Utf8

def encode (t : Text) : List UInt8 := t.flatMap String.utf8EncodeChar

/-! ## The machine -/

/-- A character of which some bytes are read. -/
structure Begun where
  /-- The bytes read so far. -/
  seen : Nat
  /-- The bytes that are still to come, at least one. -/
  missing : Nat
  /-- The bits of the code point read so far. -/
  bits : Nat
  /-- The least value that the next byte may have. -/
  low : Nat
  /-- The greatest value that the next byte may have. -/
  high : Nat
  deriving DecidableEq, Repr

/-- What the machine reports. -/
inductive Piece
  | char (c : Char)
  /-- So many bytes that no character can begin with or go on with. -/
  | broken (size : Nat)
  /-- So many bytes of a character that the end of the input cuts off. -/
  | cut (size : Nat)
  deriving DecidableEq, Repr

/-- A byte between two characters. -/
def lead (b : Nat) : List Piece × Option Begun :=
  if b ≤ 0x7F then ([.char (Char.ofNat b)], none)
  else if 0xC2 ≤ b ∧ b ≤ 0xDF then ([], some ⟨1, 1, b - 0xC0, 0x80, 0xBF⟩)
  else if b = 0xE0 then ([], some ⟨1, 2, 0, 0xA0, 0xBF⟩)
  else if b = 0xED then ([], some ⟨1, 2, 0xD, 0x80, 0x9F⟩)
  else if 0xE1 ≤ b ∧ b ≤ 0xEF then ([], some ⟨1, 2, b - 0xE0, 0x80, 0xBF⟩)
  else if b = 0xF0 then ([], some ⟨1, 3, 0, 0x90, 0xBF⟩)
  else if 0xF1 ≤ b ∧ b ≤ 0xF3 then ([], some ⟨1, 3, b - 0xF0, 0x80, 0xBF⟩)
  else if b = 0xF4 then ([], some ⟨1, 3, 4, 0x80, 0x8F⟩)
  else ([.broken 1], none)

/-- A byte that may go on with the character begun. One that may not ends
it as broken and is read again as a lead. -/
def follow (p : Begun) (b : Nat) : List Piece × Option Begun :=
  if p.low ≤ b ∧ b ≤ p.high then
    let bits := p.bits * 64 + (b - 0x80)
    if p.missing ≤ 1 then ([.char (Char.ofNat bits)], none)
    else ([], some ⟨p.seen + 1, p.missing - 1, bits, 0x80, 0xBF⟩)
  else (.broken p.seen :: (lead b).1, (lead b).2)

def step : Option Begun → Nat → List Piece × Option Begun
  | none, b => lead b
  | some p, b => follow p b

def scan : Option Begun → List UInt8 → List Piece
  | none, [] => []
  | some p, [] => [.cut p.seen]
  | s, b :: bs => (step s b.toNat).1 ++ scan (step s b.toNat).2 bs

/-! ## Strict and lenient reading -/

/-- Why bytes are not UTF-8: the offset of the first byte that is no part of
a whole character, and how many bytes are broken there. `none` stands for a
character that the end cuts off. -/
structure Fault where
  index : Nat
  broken : Option Nat
  deriving DecidableEq, Repr

def Fault.message (f : Fault) : Text :=
  match f.broken with
  | some n =>
    "invalid utf-8 sequence of ".toList ++ Text.ofNat n ++ " bytes from index ".toList ++
      Text.ofNat f.index
  | none => "incomplete utf-8 byte sequence from index ".toList ++ Text.ofNat f.index

/-- The characters of the pieces, the first of which stands at byte `index`. -/
def strictFrom (index : Nat) : List Piece → Except Fault Text
  | [] => .ok []
  | .char c :: ps =>
    match strictFrom (index + c.utf8Size) ps with
    | .ok t => .ok (c :: t)
    | .error f => .error f
  | .broken n :: _ => .error ⟨index, some n⟩
  | .cut _ :: _ => .error ⟨index, none⟩

def decode (bytes : List UInt8) : Except Fault Text := strictFrom 0 (scan none bytes)

/-- A piece that is no character becomes U+FFFD. -/
def Piece.orReplacement : Piece → Char
  | .char c => c
  | .broken _ => '\ufffd'
  | .cut _ => '\ufffd'

def decodeLenient (bytes : List UInt8) : Text := (scan none bytes).map Piece.orReplacement

end Utf8

end MarkupTree
