-- Assembling a tree from events. The open constructs form a stack. An event
-- that starts one pushes it, and its finish puts it among the children of
-- the construct below. Inlines that stand directly in an item get a
-- paragraph of their own, which the event list does not mention, and a blank
-- line between two blocks of a list makes the list loose.
import MarkupTree.Event
import MarkupTree.Document
import MarkupTree.Source

namespace MarkupTree

/-- An open construct. -/
structure Frame where
  node : Node
  /-- The children so far, the last one first. -/
  children : List Tree
  /-- The offset at which the construct starts. -/
  offset : Nat
  /-- Whether it is a paragraph that no event started. -/
  implied : Bool
  deriving DecidableEq, Repr

namespace Frame

def kind (f : Frame) : Kind := f.node.kind

def tree (f : Frame) : Tree := ⟨f.node, .ofTrees f.children.reverse⟩

def push (f : Frame) (t : Tree) : Frame := { f with children := t :: f.children }

/-- A list that is no longer tight. Other constructs stay as they are. -/
def loosen (f : Frame) : Frame :=
  match f.node.content with
  | .list style => { f with node := { f.node with content := .list { style with tight := false } } }
  | _ => f

end Frame

structure Assembly where
  /-- The innermost open construct. -/
  top : Frame
  /-- The constructs around it, the innermost first. The last is the root,
  which never closes. -/
  below : List Frame
  /-- How many nodes there are so far. -/
  size : Nat
  /-- The end of the last inline. -/
  inlineEnd : Nat
  /-- The end of the last block that closed, without the blanks at its end. -/
  blockEnd : Nat
  deriving DecidableEq, Repr

/-! ## What events carry -/

/-- The address of a link: an e-mail address gets its scheme. -/
def linkUrl (email : Bool) (url : Text) : Text :=
  if email && !Text.startsWith url "mailto:".toList then "mailto:".toList ++ url else url

/-- The style of a list, with the marker as the source shows it at `offset`. -/
def listStyle (s : Source) (start : Option Nat) (offset : Nat) : ListStyle :=
  let marker := ((Text.dropBytes offset s.text).getD []).dropWhile fun c => c == ' ' || c == '\t'
  match start with
  | some number =>
    let delimiter :=
      match marker.dropWhile Char.isDigit with
      | ')' :: _ => Delimiter.paren
      | _ => Delimiter.period
    { kind := .ordered, start := min number 0xFFFFFFFF, delimiter := some delimiter }
  | none =>
    match marker with
    | '+' :: _ => { bullet := '+' }
    | '*' :: _ => { bullet := '*' }
    | _ => { bullet := '-' }

/-- The content of the node of an extension, which tells nothing of it. -/
def Extension.content : Extension → Content
  | .strikethrough | .superscript | .subscript => .customInline [] []
  | .footnoteDefinition | .definitionList | .definitionTitle | .definitionBody | .table
  | .tableHead | .tableRow | .tableCell | .metadata => .customBlock [] []

/-- The content of the node that a tag at `offset` starts. -/
def Tag.content (s : Source) (offset : Nat) : Tag → Content
  | .paragraph => .paragraph
  | .heading level => .heading level
  | .blockQuote => .blockQuote
  | .codeBlock info => .codeBlock info []
  | .htmlBlock => .htmlBlock []
  | .list start => .list (listStyle s start offset)
  | .item => .item
  | .emphasis => .emphasis
  | .strong => .strong
  | .link email url title => .link (linkUrl email url) title
  | .image email url title => .image (linkUrl email url) title
  | .extension e => e.content

/-- The content with more text in its literal, for blocks that gather text. -/
def Content.gather? (t : Text) : Content → Option Content
  | .codeBlock info literal => some (.codeBlock info (literal ++ t))
  | .htmlBlock literal => some (.htmlBlock (literal ++ t))
  | _ => none

namespace Assembly

def begin : Assembly where
  top :=
    { node := { id := Document.rootId, content := .document, start := ⟨1, 1⟩, stop := ⟨1, 1⟩ }
      children := [], offset := 0, implied := false }
  below := []
  size := 1
  inlineEnd := 0
  blockEnd := 0

/-! ## The stack -/

/-- The next node, with the positions of the span. -/
def newNode (s : Source) (content : Content) (start stop : Nat) (a : Assembly) : Node :=
  { id := a.size, content, start := s.position start, stop := s.endPosition start stop }

/-- Puts a childless node into the innermost construct. -/
def leaf (n : Node) (a : Assembly) : Assembly :=
  { a with top := a.top.push ⟨n, .nil⟩, size := a.size + 1 }

/-- Makes a node the innermost construct. -/
def enter (n : Node) (offset : Nat) (implied : Bool) (a : Assembly) : Assembly :=
  { a with
    top := { node := n, children := [], offset, implied }
    below := a.top :: a.below
    size := a.size + 1 }

/-- Closes the innermost construct, unless it is the root. -/
def leave (stop : Position) (a : Assembly) : Assembly :=
  match a.below with
  | [] => a
  | f :: fs =>
    { a with top := f.push { a.top.tree with node := { a.top.node with stop } }, below := fs }

/-- Closes an implied paragraph at the end of its last inline. -/
def leaveImplied (s : Source) (a : Assembly) : Assembly :=
  if a.top.implied then
    let stop := max a.inlineEnd a.top.offset
    { a.leave (s.endPosition a.top.offset stop) with blockEnd := stop }
  else a

/-! ## Loose lists -/

/-- Loosens the list of the innermost item. -/
def loosenBelow (a : Assembly) : Assembly :=
  match a.below with
  | [] => a
  | f :: fs => { a with below := f.loosen :: fs }

/-- An explicit paragraph directly in an item makes the list loose. -/
def loosenForParagraph (a : Assembly) : Assembly :=
  if a.top.kind = .item then a.loosenBelow else a

/-- A blank line before a block that is not the first of its list or item
makes the list loose. -/
def loosenForBlank (s : Source) (start : Nat) (a : Assembly) : Assembly :=
  if a.top.children.isEmpty || !s.blankBetween a.blockEnd start then a
  else
    match a.top.kind with
    | .list => { a with top := a.top.loosen }
    | .item => a.loosenBelow
    | _ => a

/-! ## Blocks and inlines -/

/-- Opens a paragraph that no event started. -/
def enterImplied (s : Source) (start : Nat) (a : Assembly) : Assembly :=
  let a := a.loosenForBlank s start
  let p := s.position start
  a.enter { id := a.size, content := .paragraph, start := p, stop := p } start true

def enterBlock (s : Source) (content : Content) (start stop : Nat) (a : Assembly) : Assembly :=
  let a := (a.leaveImplied s).loosenForBlank s start
  a.enter (a.newNode s content start stop) start false

/-- Makes ready for an inline: the innermost construct can hold it. -/
def forInline (s : Source) (kind : Kind) (start stop : Nat) (a : Assembly) : Assembly :=
  let a := if a.top.kind.canContain kind then a else a.enterImplied s start
  { a with inlineEnd := stop }

def enterInline (s : Source) (content : Content) (start stop : Nat) (a : Assembly) : Assembly :=
  let a := a.forInline s content.kind start stop
  a.enter (a.newNode s content start stop) start false

def leafInline (s : Source) (content : Content) (start stop : Nat) (a : Assembly) : Assembly :=
  let a := a.forInline s content.kind start stop
  a.leaf (a.newNode s content start stop)

/-- Adds to the literal of the innermost construct, or else makes a leaf. -/
def gather (s : Source) (t : Text) (content : Content) (start stop : Nat) (a : Assembly) :
    Assembly :=
  match a.top.node.content.gather? t with
  | some c => { a with top := { a.top with node := { a.top.node with content := c } } }
  | none => a.leafInline s content start stop

/-! ## Events -/

def startTag (s : Source) (tag : Tag) (start stop : Nat) (a : Assembly) : Assembly :=
  let content := tag.content s start
  match tag with
  | .paragraph => ((a.leaveImplied s).loosenForParagraph).enterBlock s content start stop
  | _ =>
    if content.kind.isBlock then a.enterBlock s content start stop
    else a.enterInline s content start stop

def finishTag (s : Source) (stop : Nat) (a : Assembly) : Assembly :=
  let a := a.leaveImplied s
  if a.below.isEmpty then a
  else
    let closed := a.leave (s.endPosition a.top.offset stop)
    if a.top.kind.isBlock then { closed with blockEnd := s.trimmedEnd a.top.offset stop }
    else closed

def rule (s : Source) (start stop : Nat) (a : Assembly) : Assembly :=
  let a := (a.leaveImplied s).loosenForBlank s start
  { a.leaf (a.newNode s .thematicBreak start stop) with blockEnd := s.trimmedEnd start stop }

def step (s : Source) (a : Assembly) (m : Marked) : Assembly :=
  match m.event with
  | .start tag => a.startTag s tag m.start m.stop
  | .finish => a.finishTag s m.stop
  | .text t => a.gather s t (.text t) m.start m.stop
  | .html t => a.gather s t (.htmlInline t) m.start m.stop
  | .code t => a.leafInline s (.code t) m.start m.stop
  | .inlineHtml t => a.leafInline s (.htmlInline t) m.start m.stop
  | .softBreak => a.leafInline s .softBreak m.start m.stop
  | .hardBreak => a.leafInline s .lineBreak m.start m.stop
  | .rule => a.rule s m.start m.stop
  | .math _ t => a.leafInline s (.text t) m.start m.stop
  | .footnoteReference label =>
    a.leafInline s (.text ("[^".toList ++ label ++ "]".toList)) m.start m.stop
  -- task lists are never switched on
  | .taskMarker _ => a

/-- The tree of a stack, with every construct that is still open closed where
it stands. -/
def collapse (top : Frame) : List Frame → Tree
  | [] => top.tree
  | f :: fs => collapse (f.push top.tree) fs

def finish (s : Source) (a : Assembly) : Document :=
  let a := a.leaveImplied s
  let t := collapse a.top a.below
  let root := { t.node with stop := s.endPosition 0 s.bytes.length }
  ⟨.cons root t.children .nil⟩

def run (s : Source) (events : List Marked) (a : Assembly) : Assembly := events.foldl (step s) a

end Assembly

/-- The document that the events of a source describe. -/
def Document.ofEvents (s : Source) (events : List Marked) : Document :=
  (Assembly.begin.run s events).finish s

end MarkupTree
