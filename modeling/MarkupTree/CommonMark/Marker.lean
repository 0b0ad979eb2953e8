-- The marks that CommonMark puts around and in front of things: the markers
-- of items, the fences of code, the delimiters of emphasis and the angle
-- brackets of automatic links.
import MarkupTree.Forest.Site
import MarkupTree.Text.Ascii
import MarkupTree.Text.Blank

namespace MarkupTree

namespace CommonMark

/-! ## Items -/

/-- The number of the item at `index`, at most the greatest that a list can
start with. -/
def itemNumber (style : ListStyle) (index : Nat) : Nat := min (style.start + index) 0xFFFFFFFF

/-- The marker of the item at `index` of a list, with the space after it. -/
def marker (style : ListStyle) (index : Nat) : Text :=
  match style.kind with
  | .ordered =>
    Text.ofNat (itemNumber style index) ++ [(style.delimiter.getD .period).char, ' ']
  | .bullet => [style.bullet, ' ']

/-- The marker of an item in its place. An item outside of a list has the
usual bullet. -/
def itemMarker (s : Site) : Text :=
  match s.parent?.bind (·.content.style?) with
  | some style => marker style s.before.length
  | none => "- ".toList

/-! ## Tight items -/

/-- Whether the first of the nodes is an item of a tight list, where each
node is followed by those above it. -/
def isTightItem : List Node → Bool
  | item :: list :: _ => item.kind == .item && list.content.isTight
  | _ => false

/-- Whether the nearest block at or above a node is a tight item or stands
directly in one. -/
def inTightItem (lineage : List Node) : Bool :=
  let blocks := lineage.dropWhile fun n => !n.kind.isBlock
  isTightItem blocks || isTightItem (blocks.drop 1)

/-! ## Code -/

/-- Whether the literal can stand as an indented block, which neither starts
nor ends with lines of blanks. -/
def canIndent (literal : Text) : Bool :=
  2 < Text.byteLength literal && !literal.head?.any Text.isAsciiBlank &&
    !(match literal.reverse with
      | a :: b :: _ => Text.isAsciiBlank a && Text.isAsciiBlank b
      | _ => false)

/-- The length of the longest run of `c`, given the length of the run that
stands just before. -/
def longestRunFrom (c : Char) (current : Nat) : Text → Nat
  | [] => current
  | d :: ds => if d = c then longestRunFrom c (current + 1) ds
    else max current (longestRunFrom c 0 ds)

def longestRun (c : Char) (t : Text) : Nat := longestRunFrom c 0 t

/-- The fence of a code block: longer than any run of its character in the
literal. An info string with a backtick needs tildes. -/
def fence (info literal : Text) : Text :=
  let c := if info.contains '\x60' then '~' else '\x60'
  List.replicate (max (longestRun c literal + 1) 3) c

/-- The lengths of the runs of backticks, given the length of the run that
stands just before. -/
def tickRuns (current : Nat) : Text → List Nat
  | [] => if current = 0 then [] else [current]
  | c :: cs =>
    if c = '\x60' then tickRuns (current + 1) cs
    else if current = 0 then tickRuns 0 cs
    else current :: tickRuns 0 cs

/-- The first number from `n` on that is not in the list, which cannot hold
`limit` numbers from there on. -/
def firstUnused (runs : List Nat) : Nat → Nat → Nat
  | 0, n => n
  | limit + 1, n => if runs.contains n then firstUnused runs limit (n + 1) else n

/-- The ticks around a code span: as few as no run in the code has. -/
def ticks (code : Text) : Text :=
  let runs := tickRuns 0 code
  List.replicate (firstUnused runs runs.length 1) '\x60'

/-- Whether the code needs a space at each end, so that ticks are kept apart
and spaces at its ends survive reading. -/
def needsPad (code : Text) : Bool :=
  code.isEmpty || code.head? == some '\x60' || code.getLast? == some '\x60' ||
    (code.head? == some ' ' && code.getLast? == some ' ' && !code.all Text.isBlank)

/-! ## Emphasis -/

/-- Emphasis that is all that another emphasis holds takes the underscore:
two stars in a row would be read as strong emphasis. -/
def emphasisMark (s : Site) : Text :=
  if s.isIn .emphasis && s.before.isEmpty && s.after.isEmpty then ['_'] else ['*']

/-! ## Automatic links -/

/-- Whether the address begins with a scheme of 2 to 32 characters and a
colon. -/
def hasScheme (url : Text) : Bool :=
  let scheme := url.takeWhile (· != ':')
  url.contains ':' && 2 ≤ scheme.length && scheme.length ≤ 32 &&
    scheme.head?.any Char.isAlpha &&
    scheme.all fun c => c.isAlphanum || c == '+' || c == '.' || c == '-'

/-- What stands in the angle brackets of a link that can be written so: its
text is its address and it has no title. -/
def autolink? (s : Site) : Option Text :=
  let url := s.content.url
  if !hasScheme url || !s.content.title.isEmpty then none
  else
    let target := (Text.after? "mailto:".toList url).getD url
    match s.children with
    | .cons n _ .nil => if n.content = .text target then some target else none
    | _ => none

end CommonMark

end MarkupTree
