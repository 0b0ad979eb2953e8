-- Why an edit is refused, and the words of the refusal.
import MarkupTree.Node

namespace MarkupTree

inductive Property
  | literal
  | headingLevel
  | listType
  | listStart
  | listDelim
  | listTight
  | fenceInfo
  | url
  | title
  | onEnter
  | onExit
  deriving DecidableEq, Repr

def Property.name : Property → Text
  | .literal => "literal".toList
  | .headingLevel => "heading_level".toList
  | .listType => "list_type".toList
  | .listStart => "list_start".toList
  | .listDelim => "list_delim".toList
  | .listTight => "list_tight".toList
  | .fenceInfo => "fence_info".toList
  | .url => "url".toList
  | .title => "title".toList
  | .onEnter => "on_enter".toList
  | .onExit => "on_exit".toList

inductive EditError
  /-- Nodes of the kind do not carry the property. -/
  | notApplicable (kind : Kind) (property : Property)
  /-- A heading level is one of 1 to 6. -/
  | levelOutOfRange (level : Nat)
  /-- A bullet list has no delimiter. -/
  | delimiterOfBullets
  | cannotContain (parent child : Kind)
  /-- The parent lies in the subtree of the node. -/
  | ownSubtree (id : NodeId)
  /-- The root of the document neither moves nor has siblings. -/
  | rootFixed
  /-- The node has no parent, so it takes no siblings. -/
  | detachedAnchor (id : NodeId)
  | unknownNode (id : NodeId)
  deriving DecidableEq, Repr

def EditError.message : EditError → Text
  | .notApplicable kind property =>
    "property `".toList ++ property.name ++ "` is not applicable to ".toList ++ kind.name ++
      " nodes".toList
  | .levelOutOfRange level =>
    "invalid value for `heading_level`: ".toList ++ Text.ofNat level ++ " is outside 1-6".toList
  | .delimiterOfBullets =>
    "invalid value for `list_delim`: bullet lists have no delimiter".toList
  | .cannotContain parent child =>
    parent.name ++ " nodes cannot contain ".toList ++ child.name ++ " nodes".toList
  | .ownSubtree id =>
    "node ".toList ++ Node.idText id ++ " cannot be inserted into its own subtree".toList
  | .rootFixed => "the document root cannot be moved or given siblings".toList
  | .detachedAnchor id =>
    "node ".toList ++ Node.idText id ++ " is detached and cannot take siblings".toList
  | .unknownNode id => "unknown node ".toList ++ Node.idText id

end MarkupTree
