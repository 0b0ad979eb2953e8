-- A traversal goes over a subtree by the links of the document. It keeps the
-- edge that it told last and the one that it tells next, and no record of the
-- way it came: the links of one node lead from each edge to the one after it.
import MarkupTree.Document
import MarkupTree.Forest.Walk

namespace MarkupTree

structure Traversal where
  /-- The node at which the traversal begins and ends. -/
  root : NodeId
  last : Option Edge := none
  next : Option Edge
  deriving DecidableEq, Repr

namespace Document

/-- The node to which a link of the node leads. -/
def linked? (d : Document) (link : NodeId → Option NodeId) (n : Node) : Option Node :=
  (link n.id).bind d.node?

/-- The edge after the given one, in a traversal that began at `root`. The root
may have siblings and a parent of its own, so leaving it ends the traversal. -/
def successor? (d : Document) (root : NodeId) : Edge → Option Edge
  | .enter n =>
    match d.linked? d.firstChild? n with
    | some c => some (.enter c)
    | none => some (.exit n)
  | .exit n =>
    if n.id = root then none
    else
      match d.linked? d.next? n with
      | some s => some (.enter s)
      | none => (d.linked? d.parent? n).map .exit

end Document

namespace Traversal

def ofNode (n : Node) : Traversal := { root := n.id, next := some (.enter n) }

/-- The next edge and the traversal after it. -/
def step? (d : Document) (t : Traversal) : Option (Edge × Traversal) :=
  t.next.map fun e => (e, { t with last := some e, next := d.successor? t.root e })

/-- Passes over the children of the node just entered. After an exit there are
none to pass over. -/
def skipChildren (t : Traversal) : Traversal :=
  match t.last with
  | some (.enter n) => { t with next := some (.exit n) }
  | _ => t

/-- The edges from here on, at most `limit` of them. After each edge, `rule`
decides from all edges so far, the last one last, whether to skip. -/
def edges (d : Document) (rule : List Edge → Bool) :
    Nat → List Edge → Traversal → List Edge
  | 0, _, _ => []
  | limit + 1, seen, t =>
    match t.step? d with
    | none => []
    | some (e, t') =>
      e :: edges d rule limit (seen ++ [e]) (if rule (seen ++ [e]) then t'.skipChildren else t')

end Traversal

namespace Document

/-- The edges of the traversal that begins at the node. Each node of the
document has two of them at most. -/
def traverse (d : Document) (rule : List Edge → Bool) (n : Node) : List Edge :=
  (Traversal.ofNode n).edges d rule (2 * d.nodeCount) []

/-- The nodes in the order in which a traversal without skips enters them. -/
def descendants (d : Document) (n : Node) : List Node :=
  (d.traverse (fun _ => false) n).filterMap Edge.entered?

end Document

end MarkupTree
