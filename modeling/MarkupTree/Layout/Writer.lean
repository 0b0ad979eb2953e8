-- The writer of lines, as it keeps its output: one buffer, and beside it the byte at which
-- the last breakable space stands. A wrap cuts the buffer at that byte, and an outdent cuts
-- the margin. A cut inside a character breaks the run off.
import MarkupTree.Layout.Page
import MarkupTree.Text.Utf8

namespace MarkupTree

namespace Layout

structure Writer where
  buffer : Text := []
  margin : Text := []
  /-- The number of characters in the last line. -/
  column : Nat := 0
  /-- The line breaks owed. -/
  owed : Nat := 0
  /-- The byte of the last breakable space. -/
  breakAt : Option Nat := none
  beginLine : Bool := true
  beginContent : Bool := true
  oneLine : Bool := false
  tightItem : Bool := false
  deriving DecidableEq, Repr

namespace Writer

/-! ## Line breaks -/

/-- The loop over the line breaks that are owed. It goes back over the line feeds in front
of byte `k`, which count, and writes a break where there is none. -/
def settleFrom : (n k : Nat) → Writer → Writer
  | 0, _, w => w
  | n + 1, k, w =>
    if k = 0 ∨ (Utf8.encode w.buffer)[k - 1]? = some 10 then
      settleFrom n (k - 1)
        { w with column := 0, breakAt := none, beginLine := true, beginContent := true, owed := n }
    else
      settleFrom n k
        { w with
          buffer := w.buffer ++ '\n' :: if n = 0 then [] else Text.trimEnd w.margin
          column := 0
          breakAt := none
          beginLine := true
          beginContent := true
          owed := n }

/-- Writes the line breaks that are owed. Inside a tight item that is one at most. -/
def settle (w : Writer) : Writer :=
  let n := if w.tightItem ∧ 1 < w.owed then 1 else w.owed
  settleFrom n (Text.byteLength w.buffer) { w with owed := n }

def newline (w : Writer) : Writer :=
  { w with
    buffer := w.buffer ++ ['\n']
    column := 0
    breakAt := none
    beginLine := true
    beginContent := true }

/-- Breaks a line that is too wide at its last breakable space. What stands behind the
space is split off, and the space goes with the end of what is left. -/
def wrap (f : Format) (w : Writer) : Option Writer :=
  if f.width = 0 ∨ w.column ≤ f.width ∨ w.beginLine then some w
  else
    match w.breakAt with
    | none => some w
    | some k => do
      let remainder ← Text.dropBytes (k + 1) w.buffer
      let front ← Text.takeBytes (k + 1) w.buffer
      let kept ← Text.takeBytes k front
      pure { w with
        buffer := kept ++ '\n' :: w.margin ++ remainder
        column := w.margin.length + remainder.length
        breakAt := none
        beginLine := false
        beginContent := false }

/-! ## Characters -/

/-- One space for a run of them, where the character after the run is `next`. -/
def putSpace (next : Option Char) (w : Writer) : Writer :=
  { w with
    buffer := w.buffer ++ [' ']
    column := w.column + 1
    beginContent := false
    breakAt := if next.any startsBlock then w.breakAt else some (Text.byteLength w.buffer) }

/-- Writes the margin in front of the first character of a line. -/
def startLine (c : Char) (w : Writer) : Writer :=
  if w.beginLine then
    { w with
      buffer := w.buffer ++ if c = '\n' then Text.trimEnd w.margin else w.margin
      column := w.margin.length }
  else w

def putChar (f : Format) (mode : Mode) (c : Char) (next : Option Char) (w : Writer) : Writer :=
  let t := if mode = .literal then [c]
    else f.escape mode w.buffer.getLast? c next w.beginContent
  { w with
    buffer := w.buffer ++ t
    column := w.column + t.length
    beginLine := false
    beginContent := w.beginContent && c.isDigit }

/-- The loop over the characters of a chunk. -/
def putChars (f : Format) (wraps : Bool) (mode : Mode) (t : Text) (w : Writer) : Option Writer :=
  match t with
  | [] => some w
  | c :: cs =>
    if c = ' ' ∧ wraps then
      if w.beginLine then do putChars f wraps mode cs (← w.wrap f)
      else
        let rest := cs.dropWhile (· == ' ')
        do putChars f wraps mode rest (← (w.putSpace rest.head?).wrap f)
    else if mode = .literal ∧ c = '\n' then putChars f wraps mode cs (w.startLine c).newline
    else do putChars f wraps mode cs (← ((w.startLine c).putChar f mode c cs.head?).wrap f)
termination_by t.length
decreasing_by
  all_goals
    have hle := (List.dropWhile_sublist (· == ' ') (l := cs)).length_le
    simp only [List.length_cons]
    omega

/-- Writes a chunk. -/
def put (f : Format) (t : Text) (wraps : Bool) (mode : Mode) (w : Writer) : Option Writer :=
  putChars f (wraps && !w.oneLine) mode t w.settle

/-! ## Operations -/

inductive Operation
  | put (text : Text) (wraps : Bool) (mode : Mode)
  | lineBreak
  | blankLine
  /-- Adds to the margin. -/
  | indent (margin : Text)
  /-- Leaves so many bytes of the margin. -/
  | truncate (length : Nat)
  | beginContent
  | oneLine (on : Bool)
  | tightItem (on : Bool)
  deriving DecidableEq, Repr

def operate (f : Format) (w : Writer) : Operation → Option Writer
  | .put t wraps mode => w.put f t wraps mode
  | .lineBreak => some { w with owed := max w.owed 1 }
  | .blankLine => some { w with owed := max w.owed 2 }
  | .indent margin => some { w with margin := w.margin ++ margin }
  | .truncate length =>
    if Text.byteLength w.margin < length then some w
    else do pure { w with margin := ← Text.takeBytes length w.margin }
  | .beginContent => some { w with beginContent := true }
  | .oneLine on => some { w with oneLine := on }
  | .tightItem on => some { w with tightItem := on }

def run (f : Format) (os : List Operation) (w : Writer) : Option Writer := os.foldlM (operate f) w

/-- The output as a file: if there is any, it ends with a line break. -/
def finish (w : Writer) : Text :=
  if w.buffer ≠ [] ∧ w.buffer.getLast? ≠ some '\n' then w.buffer ++ ['\n'] else w.buffer

end Writer

end Layout

end MarkupTree
