-- A node is the label of a place in a tree: its number, its content and
-- where it stood in the source.
import MarkupTree.Node.Content
import MarkupTree.Position

namespace MarkupTree

/-- Nodes are numbered in the order of their making, the root of a document
from zero. -/
abbrev NodeId := Nat

/-- A place next to a node or to a row of nodes. -/
inductive Side
  | before
  | after
  deriving DecidableEq, Repr

def Side.opposite : Side → Side
  | .before => .after
  | .after => .before

structure Node where
  id : NodeId
  content : Content
  start : Position := .unknown
  stop : Position := .unknown
  deriving DecidableEq, Repr

namespace Node

def kind (n : Node) : Kind := n.content.kind

def span (n : Node) : Text := Position.span n.start n.stop

/-- A number as messages show it. -/
def idText (id : NodeId) : Text := '#' :: Text.ofNat id

def positionText (p : Position) : Text :=
  "Position \x7b line: ".toList ++ Text.ofNat p.line ++ ", column: ".toList ++
    Text.ofNat p.column ++ " \x7d".toList

/-- The description of a node for the reader of a log. -/
def describe (n : Node) : Text :=
  "NodeRef \x7b id: NodeId(".toList ++ Text.ofNat n.id ++ "), type: ".toList ++ n.kind.title ++
    ", start: ".toList ++ positionText n.start ++ ", end: ".toList ++ positionText n.stop ++
    " \x7d".toList

end Node

end MarkupTree
