-- What an outline describes: the rose of the tree that its events build, read
-- off the nesting by recursion. In an item the inlines between two blocks make
-- up one paragraph, and a code or HTML block keeps the texts inside it as its
-- literal. Whether a list is tight hangs on blank lines, so it is left out.
import MarkupTree.Event.Assembly
import MarkupTree.Proofs.Event.Outline
import MarkupTree.Proofs.Forest.Roses
import Mathlib.Data.List.SplitBy
import Mathlib.Data.List.TakeWhile

namespace MarkupTree

/-! ## Labels -/

namespace Content

/-- The content with a text added to the literal of a code or HTML block. -/
def taking (t : Text) : Content → Content
  | .codeBlock info literal => .codeBlock info (literal ++ t)
  | .htmlBlock literal => .htmlBlock (literal ++ t)
  | c => c

theorem kind_taking (t : Text) (c : Content) : (c.taking t).kind = c.kind := by
  cases c <;> rfl

theorem taking_taking (s t : Text) (c : Content) : (c.taking s).taking t = c.taking (s ++ t) := by
  cases c <;> simp [taking]

theorem taking_nil (c : Content) : c.taking [] = c := by
  cases c <;> simp [taking]

end Content

namespace Event

/-- The text that the event adds to a code or HTML block. -/
def literal : Event → Text
  | .text t | .html t => t
  | _ => []

/-- The node of an event without anything inside. -/
def plan : Event → List (Rose Content)
  | .text t => [.node (.text t) []]
  | .code t => [.node (.code t) []]
  | .html t | .inlineHtml t => [.node (.htmlInline t) []]
  | .softBreak => [.node .softBreak []]
  | .hardBreak => [.node .lineBreak []]
  | .rule => [.node .thematicBreak []]
  | _ => []

end Event

/-! ## Markers -/

namespace Text

/-- The text without the blanks in front of it. -/
def pastBlanks : Text → Text
  | [] => []
  | c :: cs => if c = ' ' ∨ c = '\t' then pastBlanks cs else c :: cs

/-- A parenthesis closes the number that the text begins with. -/
def numberedByParen : Text → Bool
  | [] => false
  | c :: cs => if c.isDigit then numberedByParen cs else c == ')'

end Text

/-- The text in which the marker of a list at `offset` stands first. -/
def Source.markerAt (s : Source) (offset : Nat) : Text :=
  Text.pastBlanks ((Text.dropBytes offset s.text).getD [])

/-- The address that a link is to have: one of mail has its scheme. -/
def leadsTo (email : Bool) (url : Text) : Text :=
  if email = true ∧ ¬ "mailto:".toList <+: url then "mailto:".toList ++ url else url

/-- The content that a construct at `offset` is to have, before it gathers any
text. All is told of it, also what new lists have without being told. -/
def Tag.label (s : Source) (offset : Nat) : Tag → Content
  | .paragraph => .paragraph
  | .heading level => .heading level
  | .blockQuote => .blockQuote
  | .codeBlock info => .codeBlock info []
  | .htmlBlock => .htmlBlock []
  | .list (some number) =>
    .list {
      kind := .ordered
      start := if number < 0x100000000 then number else 0xFFFFFFFF
      delimiter := some (if Text.numberedByParen (s.markerAt offset) then .paren else .period)
      bullet := '-'
      tight := true }
  | .list none =>
    .list {
      kind := .bullet
      start := 0
      delimiter := none
      bullet := ((s.markerAt offset).head?.filter fun c => c = '+' ∨ c = '*').getD '-'
      tight := true }
  | .item => .item
  | .emphasis => .emphasis
  | .strong => .strong
  | .link email url title => .link (leadsTo email url) title
  | .image email url title => .image (leadsTo email url) title
  | .extension e =>
    if e ∈ [.strikethrough, .superscript, .subscript] then .customInline [] []
    else .customBlock [] []

/-! ## Rows -/

namespace Rose

def isInline (r : Rose Content) : Bool := r.label.kind.isInline

/-- A run of siblings as an item holds them: inlines are in a paragraph. -/
def wrapRun : List (Rose Content) → List (Rose Content)
  | [] => []
  | r :: rs => if r.isInline then [.node .paragraph (r :: rs)] else r :: rs

/-- A row with each longest run of inlines made one paragraph. -/
def wrap (row : List (Rose Content)) : List (Rose Content) :=
  (row.splitBy fun a b => a.isInline && b.isInline).flatMap wrapRun

/-- Two texts before a rule are in one paragraph, and the text after it is in
another. -/
example : wrap [.node (.text ['a']) [], .node .softBreak [], .node .thematicBreak [],
      .node (.text ['b']) []] =
    [.node .paragraph [.node (.text ['a']) [], .node .softBreak []], .node .thematicBreak [],
      .node .paragraph [.node (.text ['b']) []]] := rfl

end Rose

/-- The children of a construct, from the row of nodes that stand inside it. -/
def Place.arrange : Place → List (Rose Content) → List (Rose Content)
  | .mixed, row => Rose.wrap row
  | .codeText, _ | .htmlText, _ => []
  | _, row => row

/-! ## Plans -/

namespace Outline

/-- The texts that stand directly in the outline, joined. -/
def literal : Outline → Text
  | .nil => []
  | .leaf _ _ event next => event.literal ++ next.literal
  | .enclose _ _ _ _ _ _ next => next.literal

/-- The row of nodes that the outline describes. -/
def plan (s : Source) : Outline → List (Rose Content)
  | .nil => []
  | .leaf _ _ event next => event.plan ++ next.plan s
  | .enclose tag start _ _ _ inside next =>
    .node ((tag.label s start).taking inside.literal) (tag.place.arrange (inside.plan s)) ::
      next.plan s

end Outline

/-! ## What constructs are given -/

namespace Rose

variable {rs qs : List (Rose Content)}

end Rose

end MarkupTree
