-- The switches of reading and writing. Each stands for itself, and option
-- sets join by union.
import MarkupTree.Text.Basic

namespace MarkupTree

inductive Flag
  | sourcePos
  | hardBreaks
  | safe
  | allowUnsafe
  | noBreaks
  | normalize
  | validateUtf8
  | smart
  deriving DecidableEq, Repr

namespace Flag

def all : List Flag :=
  [.sourcePos, .hardBreaks, .safe, .allowUnsafe, .noBreaks, .normalize, .validateUtf8, .smart]

def name : Flag → Text
  | .sourcePos => "source_pos".toList
  | .hardBreaks => "hard_breaks".toList
  | .safe => "safe".toList
  | .allowUnsafe => "unsafe".toList
  | .noBreaks => "no_breaks".toList
  | .normalize => "normalize".toList
  | .validateUtf8 => "validate_utf8".toList
  | .smart => "smart".toList

def ofName? (name : Text) : Option Flag := all.find? fun f => f.name == name

end Flag

structure Options where
  /-- Write source positions where the format has a place for them. -/
  sourcePos : Bool := false
  /-- Write soft breaks as hard ones. -/
  hardBreaks : Bool := false
  /-- Leave out raw HTML and dangerous addresses. That is so anyway: the flag
  never overrides `allowUnsafe`. -/
  safe : Bool := false
  /-- Write raw HTML and dangerous addresses as they are. -/
  allowUnsafe : Bool := false
  /-- Write soft breaks as spaces and never wrap lines. -/
  noBreaks : Bool := false
  /-- Merge neighbouring texts after reading. -/
  normalize : Bool := false
  /-- Read broken UTF-8 with replacement characters instead of failing. -/
  validateUtf8 : Bool := false
  /-- Read straight quotes, dashes and ellipses as typographic ones. -/
  smart : Bool := false
  deriving DecidableEq, Repr

namespace Options

def get (o : Options) : Flag → Bool
  | .sourcePos => o.sourcePos
  | .hardBreaks => o.hardBreaks
  | .safe => o.safe
  | .allowUnsafe => o.allowUnsafe
  | .noBreaks => o.noBreaks
  | .normalize => o.normalize
  | .validateUtf8 => o.validateUtf8
  | .smart => o.smart

def set (o : Options) (value : Bool) : Flag → Options
  | .sourcePos => { o with sourcePos := value }
  | .hardBreaks => { o with hardBreaks := value }
  | .safe => { o with safe := value }
  | .allowUnsafe => { o with allowUnsafe := value }
  | .noBreaks => { o with noBreaks := value }
  | .normalize => { o with normalize := value }
  | .validateUtf8 => { o with validateUtf8 := value }
  | .smart => { o with smart := value }

/-- Whether lines of the width break at spaces of the text. -/
def wraps (o : Options) (width : Nat) : Bool := 0 < width && !o.noBreaks && !o.hardBreaks

/-- The flags that are on in either set. -/
def union (a b : Options) : Options where
  sourcePos := a.sourcePos || b.sourcePos
  hardBreaks := a.hardBreaks || b.hardBreaks
  safe := a.safe || b.safe
  allowUnsafe := a.allowUnsafe || b.allowUnsafe
  noBreaks := a.noBreaks || b.noBreaks
  normalize := a.normalize || b.normalize
  validateUtf8 := a.validateUtf8 || b.validateUtf8
  smart := a.smart || b.smart

/-- The set that holds the given flags and no other. -/
def ofFlags (flags : List Flag) : Options := flags.foldl (fun o f => o.set true f) {}

/-- The flags that are on, in the order of their declaration. -/
def flags (o : Options) : List Flag := Flag.all.filter o.get

end Options

end MarkupTree
