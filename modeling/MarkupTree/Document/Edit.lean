-- Moving nodes. A move first takes the node with its subtree out of the row
-- it stands in, then puts it into its new place. It is refused, and nothing
-- changes, if the new place does not suit the node.
import MarkupTree.Document

namespace MarkupTree

namespace Document

/-! ## Whether a move is allowed -/

/-- Refuses the first of the numbers that the document does not have. -/
def checkKnown (d : Document) : List NodeId → Except EditError Unit
  | [] => .ok ()
  | id :: ids => if d.contains id then d.checkKnown ids else .error (.unknownNode id)

/-- The numbers of a node and of the nodes above it, from the node upward. -/
def lineage (d : Document) (id : NodeId) : List NodeId :=
  match d.site? id with
  | some s => id :: s.ancestors.map (·.id)
  | none => []

/-- Whether `child` may become a child of `parent`. -/
def checkInsert (d : Document) (parent child : NodeId) : Except EditError Unit := do
  d.checkKnown [parent, child]
  if child = rootId then throw .rootFixed
  match d.node? parent, d.node? child with
  | some p, some c =>
    if !p.kind.canContain c.kind then throw (.cannotContain p.kind c.kind)
  | _, _ => pure ()
  if child ∈ d.lineage parent then throw (.ownSubtree child)

/-- The parent that a sibling of `anchor` gets. -/
def siblingParent (d : Document) (anchor node : NodeId) : Except EditError NodeId := do
  d.checkKnown [anchor, node]
  if anchor = rootId ∨ node = rootId then throw .rootFixed
  match d.parent? anchor with
  | some p => pure p
  | none => throw (.detachedAnchor anchor)

/-! ## Moves -/

/-- Takes a subtree out and puts it back by `put`. -/
def move (d : Document) (id : NodeId) (put : Tree → Forest → Forest) : Document :=
  match d.tree? id with
  | some t => ⟨put t (d.trees.erase id)⟩
  | none => d

/-- Makes `child` the last child of `parent`. -/
def appendChild (d : Document) (parent child : NodeId) : Except EditError Document := do
  d.checkInsert parent child
  pure (d.move child fun t f => f.modifyChildren parent fun cs => cs.append t.alone)

/-- Makes `child` the first child of `parent`. -/
def prependChild (d : Document) (parent child : NodeId) : Except EditError Document := do
  d.checkInsert parent child
  pure (d.move child fun t f => f.modifyChildren parent fun cs => .cons t.node t.children cs)

/-- Moves `node` directly before `anchor`. -/
def insertBefore (d : Document) (anchor node : NodeId) : Except EditError Document := do
  let parent ← d.siblingParent anchor node
  if anchor = node then pure d
  else
    d.checkInsert parent node
    pure (d.move node fun t f => f.putBefore anchor t)

/-- Moves `node` directly after `anchor`. -/
def insertAfter (d : Document) (anchor node : NodeId) : Except EditError Document := do
  let parent ← d.siblingParent anchor node
  if anchor = node then pure d
  else
    d.checkInsert parent node
    pure (d.move node fun t f => f.putAfter anchor t)

/-- Takes a node with its subtree away from its parent. -/
def detach (d : Document) (id : NodeId) : Except EditError Document := do
  d.checkKnown [id]
  if id = rootId then throw .rootFixed
  pure (d.move id fun t f => f.append t.alone)

end Document

end MarkupTree
