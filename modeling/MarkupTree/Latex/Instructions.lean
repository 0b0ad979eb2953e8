-- The instructions that set a tree as LaTeX, node by node. Raw HTML is left
-- out.
import MarkupTree.Latex.Escape
import MarkupTree.Layout.Instruction
import MarkupTree.Options
import MarkupTree.Visitor

namespace MarkupTree

namespace Latex

open Layout

def effectiveWidth (o : Options) (width : Nat) : Nat := if o.noBreaks then 0 else width

/-! ## Links -/

inductive LinkKind
  /-- The address is empty. -/
  | empty
  /-- The text is the address, and there is no title. -/
  | url
  /-- The text is the e-mail address. -/
  | email
  /-- The address is an anchor of the same document. -/
  | anchor
  | other
  deriving DecidableEq, Repr

/-- The text of a link that holds one text and nothing else. -/
def onlyText? (children : Forest) : Option Text :=
  match children with
  | .cons n _ .nil => if n.kind = .text then n.content.literal? else none
  | _ => none

def linkKind (s : Site) : LinkKind :=
  let url := s.content.url
  if url.isEmpty then .empty
  else if Text.startsWith url ['#'] then .anchor
  else
    match onlyText? s.children, Text.after? "mailto:".toList url with
    | some t, some mail => if t = mail then .email else .other
    | some t, none =>
      if t = url ∧ s.content.title.isEmpty ∧ url.contains ':' then .url else .other
    | none, _ => .other

/-- A command and the brace that opens its argument. -/
def opening (name : Text) : Instruction := lit ('\\' :: name ++ ['\x7b'])

/-- A brace that closes an argument. -/
def closing : Instruction := lit ['\x7d']

def addressOf (url : Text) : Instruction := .put url false .address

def enterLink (s : Site) : List Instruction :=
  let url := s.content.url
  match linkKind s with
  | .url => [opening "url".toList, addressOf url, closing]
  | .email => [opening "href".toList, addressOf url, lit "\x7d\\nolinkurl\x7b".toList]
  | .anchor =>
    [opening "protect\\hyperlink".toList, addressOf (url.drop 1), lit "\x7d\x7b".toList]
  | .other => [opening "href".toList, addressOf url, lit "\x7d\x7b".toList]
  | .empty => [lit ['\x7b']]

/-! ## Lists -/

/-- How many ordered lists stand around a list, itself included. -/
def enumDepth (s : Site) : Nat := (s.node :: s.ancestors).countP fun n => n.content.isOrdered

/-- The counter of ordered lists at a depth. There are four of them. -/
def counter? : Nat → Option Text
  | 1 => some "enumi".toList
  | 2 => some "enumii".toList
  | 3 => some "enumiii".toList
  | 4 => some "enumiv".toList
  | _ => none

/-- Sets the counter so that the first item gets its number. -/
def setCounter (depth start : Nat) : List Instruction :=
  match counter? depth with
  | some name =>
    [lit ("\\setcounter\x7b".toList ++ name ++ "\x7d\x7b".toList ++ Text.ofNat (start - 1) ++
      ['\x7d'])]
  | none => []

def environmentOf (style : ListStyle) : Text :=
  match style.kind with
  | .ordered => "enumerate".toList
  | .bullet => "itemize".toList

def beginning (name : Text) : Instruction :=
  lit ("\\begin\x7b".toList ++ name ++ ['\x7d'])

def ending (name : Text) : Instruction :=
  lit ("\\end\x7b".toList ++ name ++ ['\x7d'])

def enterList (s : Site) (style : ListStyle) : List Instruction :=
  [beginning (environmentOf style), .lineBreak] ++
    (if style.kind = .ordered ∧ 1 < style.start then
      setCounter (enumDepth s) style.start ++ [.lineBreak]
    else [])

/-! ## The visitor -/

def sectionCommand : Nat → Text
  | 1 => "section".toList
  | 2 => "subsection".toList
  | 3 => "subsubsection".toList
  | 4 => "paragraph".toList
  | _ => "subparagraph".toList

def rule : Text :=
  "\\begin\x7bcenter\x7d".toList ++
    "\\rule\x7b0.5\\linewidth\x7d\x7b\\linethickness\x7d".toList ++
    "\\end\x7bcenter\x7d".toList

def softBreak (o : Options) (width : Nat) : List Instruction :=
  if o.hardBreaks then [lit "\\\\".toList, .lineBreak]
  else if width = 0 && !o.noBreaks then [.lineBreak]
  else [.put [' '] (o.wraps width) .normal]

def enter (o : Options) (width : Nat) (s : Site) : List Instruction :=
  match s.content with
  | .document | .paragraph | .htmlBlock _ | .htmlInline _ => []
  | .blockQuote => [beginning "quote".toList, .lineBreak]
  | .list style => enterList s style
  | .item => [lit "\\item ".toList]
  | .heading level => [opening (sectionCommand level)]
  | .codeBlock _ literal =>
    [.lineBreak, beginning "verbatim".toList, .lineBreak, lit literal, .lineBreak,
      ending "verbatim".toList, .blankLine]
  | .customBlock onEnter _ => [.lineBreak, lit onEnter, .lineBreak]
  | .thematicBreak => [.blankLine, lit rule, .blankLine]
  | .text literal => [.put literal (o.wraps width) .normal]
  | .lineBreak => [lit "\\\\".toList, .lineBreak]
  | .softBreak => softBreak o width
  | .code literal => [opening "texttt".toList, .put literal false .normal, closing]
  | .customInline onEnter _ => [lit onEnter]
  | .strong => [opening "textbf".toList]
  | .emphasis => [opening "emph".toList]
  | .link _ _ => enterLink s
  | .image url _ => [opening "protect\\includegraphics".toList, addressOf url, closing]

def exit (s : Site) : List Instruction :=
  match s.content with
  | .blockQuote => [ending "quote".toList, .blankLine]
  | .list style => [ending (environmentOf style), .blankLine]
  | .item => [.lineBreak]
  | .heading _ => [closing, .blankLine]
  | .customBlock _ onExit => [.lineBreak, lit onExit, .lineBreak]
  | .paragraph => [.blankLine]
  | .customInline _ onExit => [lit onExit]
  | .strong | .emphasis => [closing]
  | .link _ _ => if linkKind s = .url then [] else [closing]
  | _ => []

/-- The text of a link that is its address stands in the address, and an image
has no text. -/
def visitor (o : Options) (width : Nat) : Visitor Instruction where
  enter := enter o width
  exit := exit
  descends s := s.kind != .image && !(s.kind == .link && linkKind s == .url)

/-- The LaTeX of a node and all below it, in lines of the width. -/
def render (o : Options) (width : Nat) (s : Site) : Text :=
  let w := effectiveWidth o width
  Layout.render ⟨w, escapeChar⟩ (s.visit (visitor o w))

end Latex

end MarkupTree
