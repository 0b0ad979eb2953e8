-- The page that a writer of lines fills. Every line starts with the margin
-- of the blocks around it. Line breaks between blocks are owed until more
-- output follows, so closing many blocks at once leaves no stack of empty
-- lines. A line that grows past the width breaks at its last breakable space.
import MarkupTree.Layout.Glyph
import MarkupTree.Text.Blank

namespace MarkupTree

namespace Layout

/-- How a chunk is escaped: not at all, as text of a paragraph, as a title or
as an address. -/
inductive Mode
  | literal
  | normal
  | title
  | address
  deriving DecidableEq, Repr

/-- How a format escapes a character: by the mode, the last character of the
output, the character, the one after it in the chunk, and whether the content
of the line only begins. -/
abbrev Escape :=
  (mode : Mode) → (last : Option Char) → (c : Char) → (next : Option Char) →
    (beginContent : Bool) → Text

/-- What stays the same for a whole page. -/
structure Format where
  /-- The greatest number of columns, or zero for lines of any length. -/
  width : Nat
  escape : Escape

structure Page where
  /-- The output up to the last breakable space of the line, the last
  character first. All of the output, if there is no such space. -/
  past : List Char := []
  /-- The output after that space, the last character first. -/
  tail : Option (List Char) := none
  margin : Text := []
  /-- The number of characters in the last line. -/
  column : Nat := 0
  /-- The line breaks owed: none, one to end a line, two for an empty line. -/
  owed : Nat := 0
  /-- Whether nothing is written of the line, not even the margin. -/
  beginLine : Bool := true
  /-- Whether the line holds only its margin and digits. -/
  beginContent : Bool := true
  /-- Whether the output is to stay on one line. -/
  oneLine : Bool := false
  /-- Whether empty lines collapse, as inside a tight item. -/
  tightItem : Bool := false
  deriving DecidableEq, Repr

namespace Page

/-- The output, the last character first. -/
def reversed (p : Page) : List Char :=
  match p.tail with
  | some t => t ++ ' ' :: p.past
  | none => p.past

def text (p : Page) : Text := p.reversed.reverse

/-- The margin of a line that holds nothing else. -/
def emptyMargin (p : Page) : Text := Text.trimEnd p.margin

/-! ## Line breaks -/

/-- Writes text, all of it on the line. -/
def write (t : Text) (p : Page) : Page :=
  match p.tail with
  | some u => { p with tail := some (t.reverse ++ u), column := p.column + t.length }
  | none => { p with past := t.reverse ++ p.past, column := p.column + t.length }

theorem reversed_write (t : Text) (p : Page) :
    (p.write t).reversed = t.reverse ++ p.reversed := by
  cases h : p.tail with
  | none => simp [write, reversed, h]
  | some u => simp [write, reversed, h]

theorem text_write (t : Text) (p : Page) : (p.write t).text = p.text ++ t := by
  simp [text, reversed_write]

/-- The breaks that are written when `n` are owed. Those that the output ends
with count, so no more empty lines appear than are owed. -/
def breaks (margin : Text) : Nat → List Char → Text
  | 0, _ => []
  | n + 1, [] => breaks margin n []
  | n + 1, c :: cs =>
    if c = '\n' then breaks margin n cs
    else '\n' :: (if n = 0 then [] else margin) ++ breaks margin n (c :: cs)

/-- Writes the line breaks that are owed. Inside a tight item that is one at
most. -/
def settle (p : Page) : Page :=
  let n := if p.tightItem then min p.owed 1 else p.owed
  if n = 0 then p
  else
    { p with
      past := (breaks p.emptyMargin n p.reversed).reverse ++ p.reversed
      tail := none
      column := 0
      owed := 0
      beginLine := true
      beginContent := true }

/-- Ends the line at once. -/
def newline (p : Page) : Page :=
  { p with
    past := '\n' :: p.reversed
    tail := none
    column := 0
    beginLine := true
    beginContent := true }

/-- Breaks a line that is too wide at its last breakable space. -/
def wrap (f : Format) (p : Page) : Page :=
  if f.width = 0 ∨ p.column ≤ f.width ∨ p.beginLine then p
  else
    match p.tail with
    | none => p
    | some t =>
      { p with
        past := t ++ p.margin.reverse ++ '\n' :: p.past
        tail := none
        column := p.margin.length + t.length
        beginLine := false
        beginContent := false }

/-! ## Glyphs -/

/-- A space at the start of a line is dropped. -/
def putSpace (breaks : Bool) (p : Page) : Page :=
  if p.beginLine then p
  else
    let p' : Page := { p with column := p.column + 1, beginContent := false }
    if breaks then { p' with past := p.reversed, tail := some [] }
    else
      match p.tail with
      | some t => { p' with tail := some (' ' :: t) }
      | none => { p' with past := ' ' :: p.past }

/-- Writes the margin in front of the first character of a line. -/
def startLine (c : Char) (p : Page) : Page :=
  if p.beginLine then
    let p' := p.write (if c = '\n' then p.emptyMargin else p.margin)
    { p' with column := p.margin.length }
  else p

def putChar (f : Format) (mode : Mode) (c : Char) (next : Option Char) (p : Page) : Page :=
  let p := p.startLine c
  if mode = .literal ∧ c = '\n' then p.newline
  else
    let t := if mode = .literal then [c]
      else f.escape mode p.reversed.head? c next p.beginContent
    { p.write t with beginLine := false, beginContent := p.beginContent && c.isDigit }

def putGlyph (f : Format) (mode : Mode) (p : Page) : Glyph → Page
  | .space breaks => (p.putSpace breaks).wrap f
  | .char c next => (p.putChar f mode c next).wrap f

/-- Writes a chunk. Its spaces may break the line if `wrap` is set and the
output need not stay on one line. -/
def put (f : Format) (t : Text) (wrap : Bool) (mode : Mode) (p : Page) : Page :=
  (glyphs (wrap && !p.oneLine) t).foldl (putGlyph f mode) p.settle

/-- The output as a file: if there is any, it ends with a line break. -/
def finish (p : Page) : Text :=
  match p.reversed with
  | [] => []
  | '\n' :: _ => p.text
  | _ => p.text ++ ['\n']

end Page

end Layout

end MarkupTree
