-- The elements that a node becomes in HTML. Raw HTML and dangerous addresses
-- are written only if the options allow it.
import MarkupTree.Html.Piece
import MarkupTree.Options
import MarkupTree.Visitor

namespace MarkupTree

namespace Html

/-! ## Parts of an element -/

/-- The source position of a node, if the options ask for it. -/
def sourceAttribute (o : Options) (n : Node) : List Attribute :=
  if o.sourcePos then [⟨"data-sourcepos".toList, n.span⟩] else []

/-- The value of an attribute that holds an address. -/
def addressValue (e : Encoder) (o : Options) (url : Text) : Text :=
  if o.allowUnsafe || !isDangerous url then address e url else []

/-- A title, if there is one. -/
def titleAttribute (title : Text) : List Attribute :=
  if title.isEmpty then [] else [⟨"title".toList, escape title⟩]

/-- Raw HTML of the document. -/
def rawPiece (o : Options) (t : Text) : Piece := if o.allowUnsafe then .raw t else .omitted

/-- The part of one node in the description of an image. -/
def plainText (n : Node) : Text :=
  match n.kind with
  | .text | .code | .htmlInline => escape n.content.literal
  | .softBreak | .lineBreak => [' ']
  | _ => []

/-- The description of an image: the text below it without any markup. -/
def description (below : Forest) : Text := below.nodes.flatMap plainText

/-- Whether the node is a paragraph of a tight list, which has no element. -/
def inTightList (s : Site) : Bool :=
  match s.ancestors with
  | item :: list :: _ => item.kind == .item && list.content.isTight
  | _ => false

def headingName (level : Nat) : Text := 'h' :: Text.ofNat level

def listName (c : Content) : Text := if c.isOrdered then "ol".toList else "ul".toList

/-- The first number of an ordered list, unless it is one. -/
def startAttribute (c : Content) : List Attribute :=
  match c.style? with
  | some style =>
    if style.kind = .ordered ∧ style.start ≠ 1 then [⟨"start".toList, Text.ofNat style.start⟩]
    else []
  | none => []

/-- The language of a code block: the first word of its info string. -/
def languageAttribute (info : Option Text) : List Attribute :=
  let word := Text.firstWord (info.getD [])
  if word.isEmpty then []
  else [⟨"class".toList, "language-".toList ++ escape word⟩]

/-! ## The visitor -/

def enter (e : Encoder) (o : Options) (s : Site) : List Piece :=
  let source := sourceAttribute o s.node
  match s.content with
  | .document => []
  | .blockQuote => [.freshLine, .opening "blockquote".toList source, .newline]
  | .list _ =>
    [.freshLine, .opening (listName s.content) (source ++ startAttribute s.content), .newline]
  | .item => [.freshLine, .opening "li".toList source]
  | .heading level => [.freshLine, .opening (headingName level) source]
  | .codeBlock info literal =>
    [.freshLine, .opening "pre".toList source,
      .opening "code".toList (languageAttribute info), .chars literal,
      .closing "code".toList, .closing "pre".toList, .newline]
  | .htmlBlock literal => [.freshLine, rawPiece o literal, .freshLine]
  | .customBlock onEnter _ => [.freshLine, .raw onEnter, .freshLine]
  | .thematicBreak => [.freshLine, .void "hr".toList source, .newline]
  | .paragraph => if inTightList s then [] else [.freshLine, .opening "p".toList source]
  | .text literal => [.chars literal]
  | .lineBreak => [.void "br".toList [], .newline]
  | .softBreak =>
    if o.hardBreaks then [.void "br".toList [], .newline]
    else if o.noBreaks then [.raw [' ']]
    else [.newline]
  | .code literal => [.opening "code".toList [], .chars literal, .closing "code".toList]
  | .htmlInline literal => [rawPiece o literal]
  | .customInline onEnter _ => [.raw onEnter]
  | .strong => [.opening "strong".toList []]
  | .emphasis => [.opening "em".toList []]
  | .link url title =>
    [.opening "a".toList (⟨"href".toList, addressValue e o url⟩ :: titleAttribute title)]
  | .image url _ =>
    [.tagStart "img".toList
      [⟨"src".toList, addressValue e o url⟩, ⟨"alt".toList, description s.children⟩]]

def exit (s : Site) : List Piece :=
  match s.content with
  | .blockQuote => [.freshLine, .closing "blockquote".toList, .newline]
  | .list _ => [.freshLine, .closing (listName s.content), .newline]
  | .item => [.closing "li".toList, .newline]
  | .heading level => [.closing (headingName level), .newline]
  | .customBlock _ onExit => [.freshLine, .raw onExit, .freshLine]
  | .paragraph => if inTightList s then [] else [.closing "p".toList, .newline]
  | .customInline _ onExit => [.raw onExit]
  | .strong => [.closing "strong".toList]
  | .emphasis => [.closing "em".toList]
  | .link _ _ => [.closing "a".toList]
  | .image _ title => [.tagEnd (titleAttribute title)]
  | _ => []

/-- What is below an image is written as its description and not visited. -/
def visitor (e : Encoder) (o : Options) : Visitor Piece where
  enter := enter e o
  exit := exit
  descends s := s.kind != .image

/-- The HTML of a node and all below it. -/
def render (e : Encoder) (o : Options) (s : Site) : Text := print true (s.visit (visitor e o))

end Html

end MarkupTree
