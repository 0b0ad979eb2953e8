-- A document is a forest. Its first tree is the document proper, with the
-- root as node 0. The trees after it are detached: they belong to no parent,
-- and no order among them means anything.
import MarkupTree.Forest.Site
import MarkupTree.Node.Change

namespace MarkupTree

structure Document where
  trees : Forest
  deriving DecidableEq, Repr

namespace Document

def rootId : NodeId := 0

/-- The document with nothing but a root. -/
def new : Document :=
  ⟨.cons { id := rootId, content := .document, start := ⟨1, 1⟩, stop := ⟨1, 1⟩ } .nil .nil⟩

/-! ## Views -/

/-- How many nodes the document has, detached ones included. -/
def nodeCount (d : Document) : Nat := d.trees.size

def tree? (d : Document) (id : NodeId) : Option Tree := d.trees.tree? id

def node? (d : Document) (id : NodeId) : Option Node := (d.tree? id).map (·.node)

def contains (d : Document) (id : NodeId) : Bool := (d.tree? id).isSome

def site? (d : Document) (id : NodeId) : Option Site := d.trees.siteAmong? id

def parent? (d : Document) (id : NodeId) : Option NodeId :=
  (d.site? id).bind fun s => s.parent?.map (·.id)

def firstChild? (d : Document) (id : NodeId) : Option NodeId :=
  (d.site? id).bind fun s => s.children.first?.map (·.id)

def lastChild? (d : Document) (id : NodeId) : Option NodeId :=
  (d.site? id).bind fun s => s.children.roots.getLast?.map (·.id)

def next? (d : Document) (id : NodeId) : Option NodeId :=
  (d.site? id).bind fun s => s.after.first?.map (·.id)

def previous? (d : Document) (id : NodeId) : Option NodeId :=
  (d.site? id).bind fun s => s.before.head?.map (·.id)

/-- The numbers of the children, in their order. -/
def children (d : Document) (id : NodeId) : List NodeId :=
  match d.tree? id with
  | some t => t.children.roots.map (·.id)
  | none => []

/-- The nodes met by following a link, at most `limit` of them. -/
def follow (link : NodeId → Option NodeId) : Nat → Option NodeId → List NodeId
  | 0, _ => []
  | _ + 1, none => []
  | limit + 1, some id => id :: follow link limit (link id)

/-- The children from the first on, each reached from the one before it. -/
def childrenForward (d : Document) (id : NodeId) : List NodeId :=
  follow d.next? d.nodeCount (d.firstChild? id)

/-- The children from the last back, each reached from the one after it. -/
def childrenBackward (d : Document) (id : NodeId) : List NodeId :=
  follow d.previous? d.nodeCount (d.lastChild? id)

/-- The parentless nodes with their subtrees, by number. -/
def standing (d : Document) : List Tree :=
  d.trees.trees.mergeSort fun t u => decide (t.node.id ≤ u.node.id)

/-! ## New nodes and new properties -/

/-- A new node without parent or children. A document has one node of kind
document, so no second one is made. -/
def create (d : Document) (k : Kind) : Except EditError (NodeId × Document) :=
  if k = .document then .error (.cannotContain .document .document)
  else
    .ok (d.nodeCount,
      ⟨d.trees.append (.cons { id := d.nodeCount, content := .ofKind k } .nil .nil)⟩)

/-- Changes one property of one node. -/
def set (d : Document) (id : NodeId) (change : Change) : Except EditError Document :=
  match d.node? id with
  | none => .error (.unknownNode id)
  | some n =>
    match n.content.apply change with
    | .error e => .error e
    | .ok content => .ok ⟨d.trees.modify id fun n => { n with content }⟩

end Document

end MarkupTree
