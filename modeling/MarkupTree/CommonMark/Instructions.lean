-- The instructions that set a tree as CommonMark, node by node. Reading the
-- result gives the tree back as far as the format allows.
import MarkupTree.CommonMark.Escape
import MarkupTree.CommonMark.Marker
import MarkupTree.Layout.Instruction
import MarkupTree.Options
import MarkupTree.Visitor

namespace MarkupTree

namespace CommonMark

open Layout

/-- The width that lines really have. Where breaks are kept or suppressed,
no line wraps. -/
def effectiveWidth (o : Options) (width : Nat) : Nat :=
  if o.noBreaks || o.hardBreaks then 0 else width

/-! ## Parts -/

/-- Whether empty lines collapse from this node on. The first item of a list
keeps what held before the list. -/
def tightness (s : Site) : Instruction := .tightItem (inTightItem (s.node :: s.ancestors))

def enterItem (s : Site) : List Instruction :=
  let m := itemMarker s
  [lit (if s.children.isEmpty then Text.trimEnd m else m), .beginContent,
    .indent (Text.spaces m.length)]

def codeBlock (s : Site) (info : Option Text) (literal : Text) : List Instruction :=
  let opensItem := s.before.isEmpty && s.isIn .item
  let body :=
    if info.isNone && !opensItem && canIndent literal then
      [lit (Text.spaces 4), .indent (Text.spaces 4), lit literal, .outdent 4]
    else
      let info := info.getD []
      let fence := fence info literal
      [lit fence, lit info, .lineBreak, lit literal, .lineBreak, lit fence]
  (if opensItem then [] else [.blankLine]) ++ body ++ [.blankLine]

def codeSpan (wrap : Bool) (code : Text) : List Instruction :=
  let ticks := lit (ticks code)
  let pad := if needsPad code then [lit [' ']] else []
  ticks :: pad ++ .put code wrap .literal :: pad ++ [ticks]

/-- A `!` at the end of a text would turn a link after it into an image. -/
def textRun (wrap : Bool) (s : Site) (literal : Text) : List Instruction :=
  let beforeLink := s.after.first?.any fun n => n.kind == .link || n.kind == .image
  if beforeLink && literal.getLast? == some '!' then
    [.put literal.dropLast wrap .normal, lit ['\\', '!']]
  else [.put literal wrap .normal]

def softBreak (o : Options) (width : Nat) : List Instruction :=
  if o.hardBreaks then [lit ['\\'], .lineBreak]
  else if width = 0 && !o.noBreaks then [.softLine]
  else [.put [' '] (o.wraps width) .literal]

/-- The end of a link or an image: its address and its title. -/
def destination (url title : Text) : List Instruction :=
  [lit "](".toList, if url.isEmpty then lit "<>".toList else .put url false .address] ++
    (if title.isEmpty then [] else [lit [' ', '\x22'], .put title false .title, lit ['\x22']]) ++
    [lit [')']]

/-- Strong emphasis directly in strong emphasis has no marks of its own. -/
def strongMarks (s : Site) : List Instruction := if s.isIn .strong then [] else [lit "**".toList]

/-- A list or an indented code block after a list would be read as a part of
it. -/
def listEnd (s : Site) : List Instruction :=
  if s.after.first?.any fun n => n.kind == .list || n.kind == .codeBlock then
    [.lineBreak, lit "<!-- end list -->".toList, .blankLine]
  else []

/-! ## The visitor -/

def enterContent (o : Options) (width : Nat) (s : Site) : List Instruction :=
  match s.content with
  | .document | .list _ | .paragraph => []
  | .blockQuote => [lit "> ".toList, .beginContent, .indent "> ".toList]
  | .item => enterItem s
  | .heading level =>
    [lit (List.replicate level '#'), lit [' '], .beginContent, .oneLine true]
  | .codeBlock info literal => codeBlock s info literal
  | .htmlBlock literal => [.blankLine, lit literal, .blankLine]
  | .customBlock onEnter _ => [.blankLine, lit onEnter, .blankLine]
  | .thematicBreak => [.blankLine, lit "-----".toList, .blankLine]
  | .text literal => textRun (o.wraps width) s literal
  | .lineBreak => (if o.hardBreaks then [] else [lit ['\\']]) ++ [.lineBreak]
  | .softBreak => softBreak o width
  | .code literal => codeSpan (o.wraps width) literal
  | .htmlInline literal => [lit literal]
  | .customInline onEnter _ => [lit onEnter]
  | .strong => strongMarks s
  | .emphasis => [lit (emphasisMark s)]
  | .link _ _ =>
    match autolink? s with
    | some target => [lit ['<'], lit target, lit ['>']]
    | none => [lit ['[']]
  | .image _ _ => [lit "![".toList]

def enter (o : Options) (width : Nat) (s : Site) : List Instruction :=
  (if s.kind = .item ∧ s.before.isEmpty then [] else [tightness s]) ++ enterContent o width s

def exitContent (s : Site) : List Instruction :=
  match s.content with
  | .blockQuote => [.outdent 2, .blankLine]
  | .list _ => listEnd s
  | .item => [.outdent (itemMarker s).length, .lineBreak]
  | .heading _ => [.oneLine false, .blankLine]
  | .paragraph => [.blankLine]
  | .customBlock _ onExit => [.blankLine, lit onExit, .blankLine]
  | .customInline _ onExit => [lit onExit]
  | .strong => strongMarks s
  | .emphasis => [lit (emphasisMark s)]
  | .link url title => if (autolink? s).isSome then [] else destination url title
  | .image url title => destination url title
  | _ => []

def exit (s : Site) : List Instruction := tightness s :: exitContent s

def visitor (o : Options) (width : Nat) : Visitor Instruction where
  enter := enter o width
  exit := exit
  descends s := !(s.kind == .link && (autolink? s).isSome)

/-- The CommonMark of a node and all below it, in lines of the width. -/
def render (o : Options) (width : Nat) (s : Site) : Text :=
  let w := effectiveWidth o width
  Layout.render ⟨w, escapeChar⟩ (s.visit (visitor o w))

end CommonMark

end MarkupTree
