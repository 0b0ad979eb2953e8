-- The kind of a node together with what nodes of that kind carry, and how it
-- is read. A property that a kind does not carry reads as `none`.
import MarkupTree.Node.Kind

namespace MarkupTree

/-! ## Lists -/

inductive ListKind
  | bullet
  | ordered
  deriving DecidableEq, Repr

/-- What follows the number of an ordered item. -/
inductive Delimiter
  | period
  | paren
  deriving DecidableEq, Repr

namespace ListKind

def name : ListKind → Text
  | .bullet => "bullet".toList
  | .ordered => "ordered".toList

end ListKind

namespace Delimiter

def name : Delimiter → Text
  | .period => "period".toList
  | .paren => "paren".toList

def char : Delimiter → Char
  | .period => '.'
  | .paren => ')'

end Delimiter

structure ListStyle where
  kind : ListKind := .bullet
  /-- The number of the first item. -/
  start : Nat := 0
  /-- The delimiter of an ordered list. -/
  delimiter : Option Delimiter := none
  /-- The marker of the items while the list is a bullet list. -/
  bullet : Char := '-'
  /-- Whether the paragraphs of the items are set without space between them. -/
  tight : Bool := true
  deriving DecidableEq, Repr

/-! ## Content -/

inductive Content
  | document
  | blockQuote
  | list (style : ListStyle)
  | item
  /-- An info string stands for a fenced block, none for an indented one. -/
  | codeBlock (info : Option Text) (literal : Text)
  | htmlBlock (literal : Text)
  | customBlock (onEnter onExit : Text)
  | paragraph
  | heading (level : Nat)
  | thematicBreak
  | text (literal : Text)
  | softBreak
  | lineBreak
  | code (literal : Text)
  | htmlInline (literal : Text)
  | customInline (onEnter onExit : Text)
  | emphasis
  | strong
  | link (url title : Text)
  | image (url title : Text)
  deriving DecidableEq, Repr

namespace Content

def kind : Content → Kind
  | .document => .document
  | .blockQuote => .blockQuote
  | .list _ => .list
  | .item => .item
  | .codeBlock _ _ => .codeBlock
  | .htmlBlock _ => .htmlBlock
  | .customBlock _ _ => .customBlock
  | .paragraph => .paragraph
  | .heading _ => .heading
  | .thematicBreak => .thematicBreak
  | .text _ => .text
  | .softBreak => .softBreak
  | .lineBreak => .lineBreak
  | .code _ => .code
  | .htmlInline _ => .htmlInline
  | .customInline _ _ => .customInline
  | .emphasis => .emphasis
  | .strong => .strong
  | .link _ _ => .link
  | .image _ _ => .image

/-- The content of a new node of the kind. -/
def ofKind : Kind → Content
  | .document => .document
  | .blockQuote => .blockQuote
  | .list => .list {}
  | .item => .item
  | .codeBlock => .codeBlock none []
  | .htmlBlock => .htmlBlock []
  | .customBlock => .customBlock [] []
  | .paragraph => .paragraph
  | .heading => .heading 1
  | .thematicBreak => .thematicBreak
  | .text => .text []
  | .softBreak => .softBreak
  | .lineBreak => .lineBreak
  | .code => .code []
  | .htmlInline => .htmlInline []
  | .customInline => .customInline [] []
  | .emphasis => .emphasis
  | .strong => .strong
  | .link => .link [] []
  | .image => .image [] []

theorem kind_ofKind (k : Kind) : (ofKind k).kind = k := by cases k <;> rfl

/-! ## Reading properties -/

def literal? : Content → Option Text
  | .codeBlock _ t | .htmlBlock t | .text t | .code t | .htmlInline t => some t
  | _ => none

def headingLevel? : Content → Option Nat
  | .heading level => some level
  | _ => none

def style? : Content → Option ListStyle
  | .list style => some style
  | _ => none

def listKind? (c : Content) : Option ListKind := c.style?.map (·.kind)

def listStart? (c : Content) : Option Nat := c.style?.map (·.start)

def listDelimiter? (c : Content) : Option Delimiter := c.style?.bind (·.delimiter)

/-- The marker shows while the list is a bullet list. -/
def listBullet? (c : Content) : Option Char :=
  (c.style?.filter fun s => s.kind == .bullet).map (·.bullet)

def listTight? (c : Content) : Option Bool := c.style?.map (·.tight)

def fenceInfo? : Content → Option Text
  | .codeBlock info _ => info
  | _ => none

def url? : Content → Option Text
  | .link url _ | .image url _ => some url
  | _ => none

def title? : Content → Option Text
  | .link _ title | .image _ title => some title
  | _ => none

def onEnter? : Content → Option Text
  | .customBlock t _ | .customInline t _ => some t
  | _ => none

def onExit? : Content → Option Text
  | .customBlock _ t | .customInline _ t => some t
  | _ => none

/-- The literal, empty where the kind has none. -/
def literal (c : Content) : Text := c.literal?.getD []

def url (c : Content) : Text := c.url?.getD []

def title (c : Content) : Text := c.title?.getD []

def onEnter (c : Content) : Text := c.onEnter?.getD []

def onExit (c : Content) : Text := c.onExit?.getD []

def isOrdered (c : Content) : Bool := c.listKind? == some .ordered

def isTight (c : Content) : Bool := c.listTight?.getD false

end Content

end MarkupTree
