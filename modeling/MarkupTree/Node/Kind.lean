-- The twenty kinds of nodes, and which kind may stand directly in which.
import MarkupTree.Text.Basic

namespace MarkupTree

inductive Kind
  | document
  | blockQuote
  | list
  | item
  | codeBlock
  | htmlBlock
  | customBlock
  | paragraph
  | heading
  | thematicBreak
  | text
  | softBreak
  | lineBreak
  | code
  | htmlInline
  | customInline
  | emphasis
  | strong
  | link
  | image
  deriving DecidableEq, Repr

namespace Kind

/-- Every kind, the blocks first. -/
def all : List Kind :=
  [.document, .blockQuote, .list, .item, .codeBlock, .htmlBlock, .customBlock, .paragraph,
    .heading, .thematicBreak, .text, .softBreak, .lineBreak, .code, .htmlInline, .customInline,
    .emphasis, .strong, .link, .image]

def isBlock : Kind → Bool
  | .document | .blockQuote | .list | .item | .codeBlock | .htmlBlock | .customBlock
  | .paragraph | .heading | .thematicBreak => true
  | _ => false

def isInline (k : Kind) : Bool := !k.isBlock

/-- Whether nodes of the kind hold a literal text. -/
def hasLiteral : Kind → Bool
  | .codeBlock | .htmlBlock | .text | .code | .htmlInline => true
  | _ => false

/-- Whether a node of kind `parent` may hold one of kind `child` directly. No
node holds a document. -/
def canContain (parent child : Kind) : Bool :=
  if child = .document then false
  else
    match parent with
    | .document | .blockQuote | .item => child.isBlock && child != .item
    | .list => child = .item
    | .customBlock => true
    | .paragraph | .heading | .emphasis | .strong | .link | .image | .customInline =>
      child.isInline
    | _ => false

/-- The name of the kind, also as the element name in XML. -/
def name : Kind → Text
  | .document => "document".toList
  | .blockQuote => "block_quote".toList
  | .list => "list".toList
  | .item => "item".toList
  | .codeBlock => "code_block".toList
  | .htmlBlock => "html_block".toList
  | .customBlock => "custom_block".toList
  | .paragraph => "paragraph".toList
  | .heading => "heading".toList
  | .thematicBreak => "thematic_break".toList
  | .text => "text".toList
  | .softBreak => "softbreak".toList
  | .lineBreak => "linebreak".toList
  | .code => "code".toList
  | .htmlInline => "html_inline".toList
  | .customInline => "custom_inline".toList
  | .emphasis => "emph".toList
  | .strong => "strong".toList
  | .link => "link".toList
  | .image => "image".toList

def ofName? (name : Text) : Option Kind := all.find? fun k => k.name == name

/-- The name of the kind in a description of a node. -/
def title : Kind → Text
  | .document => "Document".toList
  | .blockQuote => "BlockQuote".toList
  | .list => "List".toList
  | .item => "Item".toList
  | .codeBlock => "CodeBlock".toList
  | .htmlBlock => "HtmlBlock".toList
  | .customBlock => "CustomBlock".toList
  | .paragraph => "Paragraph".toList
  | .heading => "Heading".toList
  | .thematicBreak => "ThematicBreak".toList
  | .text => "Text".toList
  | .softBreak => "SoftBreak".toList
  | .lineBreak => "LineBreak".toList
  | .code => "Code".toList
  | .htmlInline => "HtmlInline".toList
  | .customInline => "CustomInline".toList
  | .emphasis => "Emphasis".toList
  | .strong => "Strong".toList
  | .link => "Link".toList
  | .image => "Image".toList

end Kind

end MarkupTree
