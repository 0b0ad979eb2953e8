-- The XML of a tree: one element for each node, named for its kind, with its
-- properties as attributes. What is inside an element is indented.
import MarkupTree.Options
import MarkupTree.Visitor
import MarkupTree.Xml.Piece

namespace MarkupTree

namespace Xml

/-! ## Attributes -/

/-- An attribute with a value that is written as it is. -/
def plain (name value : Text) : Text := ' ' :: name ++ "=\"".toList ++ value ++ "\"".toList

/-- An attribute with a text of the document. -/
def property (e : Escaper) (name value : Text) : Text := plain name (e value)

/-- The source position of a node that has one, if the options ask for it. -/
def sourceAttribute (o : Options) (n : Node) : Text :=
  if o.sourcePos && n.start.known then plain "sourcepos".toList n.span else []

def boolName (b : Bool) : Text := if b then "true".toList else "false".toList

def listAttributes (style : ListStyle) : Text :=
  (match style.kind with
    | .ordered =>
      plain "type".toList style.kind.name ++ plain "start".toList (Text.ofNat style.start) ++
        (match style.delimiter with
          | some d => plain "delim".toList d.name
          | none => [])
    | .bullet => plain "type".toList style.kind.name) ++
    plain "tight".toList (boolName style.tight)

/-! ## Elements -/

def header : Text :=
  "<?xml version=\"1.0\" encoding=\"UTF-8\"?>\n".toList ++
    "<!DOCTYPE document SYSTEM \"CommonMark.dtd\">\n".toList

/-- The name space of the root element. -/
def nameSpace : Text := "http://commonmark.org/xml/1.0".toList

/-- The attributes of an element that tell the properties of the node. An
empty info string is not told from none. -/
def attributes (e : Escaper) : Content → Text
  | .document => property e "xmlns".toList nameSpace
  | .codeBlock info _ =>
    if (info.getD []).isEmpty then [] else property e "info".toList (info.getD [])
  | .list style => listAttributes style
  | .heading level => plain "level".toList (Text.ofNat level)
  | .customBlock onEnter onExit | .customInline onEnter onExit =>
    property e "on_enter".toList onEnter ++ property e "on_exit".toList onExit
  | .link url title | .image url title =>
    property e "destination".toList url ++ property e "title".toList title
  | _ => []

/-- The literal of a node with the end tag after it. A literal keeps its
blanks. -/
def literalBody (e : Escaper) (c : Content) : Text :=
  match c.literal? with
  | some t =>
    plain "xml:space".toList "preserve".toList ++ '>' :: e t ++ "</".toList ++ c.kind.name
  | none => []

/-! ## The visitor -/

/-- What entering a node writes up to the end of its last tag. -/
def startTag (e : Escaper) (o : Options) (s : Site) : Text :=
  '<' :: s.kind.name ++ sourceAttribute o s.node ++ attributes e s.content ++ literalBody e s.content

/-- An element that has neither children nor a literal closes itself. -/
def enter (e : Escaper) (o : Options) (s : Site) : List Piece :=
  [.indent, .text (startTag e o s)] ++
    (if !s.children.isEmpty then [.deeper]
      else if s.content.literal?.isNone then [.text " /".toList]
      else []) ++
    [.text ">\n".toList]

def exit (s : Site) : List Piece :=
  if s.children.isEmpty then []
  else [.back, .indent, .text ("</".toList ++ s.kind.name ++ ">\n".toList)]

def visitor (e : Escaper) (o : Options) : Visitor Piece where
  enter := enter e o
  exit := exit
  descends _ := true

/-- The XML of a node and all below it, with the header of a whole file. -/
def render (e : Escaper) (o : Options) (s : Site) : Text :=
  header ++ print 0 (s.visit (visitor e o))

end Xml

end MarkupTree
