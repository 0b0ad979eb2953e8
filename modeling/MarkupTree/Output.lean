-- Writing a node in one of the four formats.
import MarkupTree.CommonMark.Instructions
import MarkupTree.Document
import MarkupTree.Html.Elements
import MarkupTree.Latex.Instructions
import MarkupTree.Xml.Elements

namespace MarkupTree

inductive Output
  | html
  | xml
  | commonMark
  | latex
  deriving DecidableEq, Repr

namespace Output

def name : Output → Text
  | .html => "html".toList
  | .xml => "xml".toList
  | .commonMark => "commonmark".toList
  | .latex => "latex".toList

def ofName? (name : Text) : Option Output :=
  [html, xml, commonMark, latex].find? fun f => f.name == name

/-- The width of lines where none is asked for. -/
def defaultWidth : Nat := 80

end Output

/-- The text of a node and all below it. CommonMark and LaTeX have lines of
the width, or of any length if it is zero. -/
def Site.render (s : Site) (f : Output) (o : Options) (width : Nat) : Text :=
  match f with
  | .html => Html.render Html.percentEncode o s
  | .xml => Xml.render Xml.escape o s
  | .commonMark => CommonMark.render o width s
  | .latex => Latex.render o width s

/-- The text of one node of a document, if the document has it. -/
def Document.render? (d : Document) (id : NodeId) (f : Output) (o : Options) (width : Nat) :
    Option Text :=
  (d.site? id).map fun s => s.render f o width

end MarkupTree
