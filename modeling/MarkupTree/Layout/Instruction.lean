-- A page is filled by a list of instructions, so what a tree becomes can be
-- told apart from how it is set in lines.
import MarkupTree.Layout.Page

namespace MarkupTree

namespace Layout

inductive Instruction
  | put (text : Text) (wrap : Bool) (mode : Mode)
  /-- What follows starts on a new line. -/
  | lineBreak
  /-- What follows stands after an empty line. -/
  | blankLine
  /-- Adds to the margin. -/
  | indent (margin : Text)
  /-- Takes so many characters off the end of the margin. -/
  | outdent (count : Nat)
  /-- What follows begins the content of its line. -/
  | beginContent
  | oneLine (on : Bool)
  | tightItem (on : Bool)
  /-- A line break, or a space while the output has to stay on one line. -/
  | softLine
  deriving DecidableEq, Repr

/-- Text that is written as it is and never broken. -/
def lit (t : Text) : Instruction := .put t false .literal

namespace Page

def owe (n : Nat) (p : Page) : Page := { p with owed := max p.owed n }

def follow (f : Format) (p : Page) : Instruction → Page
  | .put t wrap mode => p.put f t wrap mode
  | .lineBreak => p.owe 1
  | .blankLine => p.owe 2
  | .indent margin => { p with margin := p.margin ++ margin }
  | .outdent count => { p with margin := p.margin.take (p.margin.length - count) }
  | .beginContent => { p with beginContent := true }
  | .oneLine on => { p with oneLine := on }
  | .tightItem on => { p with tightItem := on }
  | .softLine => if p.oneLine then p.put f [' '] false .literal else p.owe 1

def run (f : Format) (is : List Instruction) (p : Page) : Page := is.foldl (follow f) p

theorem run_append (f : Format) (is js : List Instruction) (p : Page) :
    p.run f (is ++ js) = (p.run f is).run f js := by
  simp [run]

end Page

/-- The text of a page that starts empty and follows the instructions. -/
def render (f : Format) (is : List Instruction) : Text :=
  (Page.run f is ({} : Page)).finish

end Layout

end MarkupTree
