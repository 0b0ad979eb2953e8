-- Where a node stands in its source text: a line and a column, both counted
-- from one, the column in bytes. A node that was never in a text has 0:0.
import MarkupTree.Text.Basic

namespace MarkupTree

structure Position where
  line : Nat
  column : Nat
  deriving DecidableEq, Repr

namespace Position

/-- The position of a node that stands in no source. -/
def unknown : Position := ⟨0, 0⟩

def known (p : Position) : Bool := 0 < p.line

/-- Positions are ordered by line, then by column. -/
def order (p q : Position) : Ordering := (compare p.line q.line).then (compare p.column q.column)

instance : LE Position where
  le p q := p.line < q.line ∨ (p.line = q.line ∧ p.column ≤ q.column)

instance (p q : Position) : Decidable (p ≤ q) :=
  inferInstanceAs (Decidable (p.line < q.line ∨ (p.line = q.line ∧ p.column ≤ q.column)))

/-- The greatest line or column that a position can hold. -/
def greatest : Nat := 0xFFFFFFFF

/-- A position whose line and column stop at the greatest value. -/
def clamped (line column : Nat) : Position := ⟨min line greatest, min column greatest⟩

def text (p : Position) : Text := Text.ofNat p.line ++ ':' :: Text.ofNat p.column

/-- A stretch of the source, as its two ends. -/
def span (start stop : Position) : Text := start.text ++ '-' :: stop.text

end Position

end MarkupTree
