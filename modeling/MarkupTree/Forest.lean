-- A forest is an ordered row of trees: the first tree, as a node and the
-- forest of its children, then the rest of the row. All that a document
-- holds is one forest, so most rules on it are plain recursions here.
import MarkupTree.Node

namespace MarkupTree

inductive Forest
  | nil
  | cons (node : Node) (children next : Forest)
  deriving DecidableEq, Repr

structure Tree where
  node : Node
  children : Forest
  deriving DecidableEq, Repr

namespace Forest

/-! ## Views -/

def append : Forest → Forest → Forest
  | .nil, g => g
  | .cons n cs rest, g => .cons n cs (rest.append g)

/-- Every node, each before its children. -/
def nodes : Forest → List Node
  | .nil => []
  | .cons n cs rest => n :: (cs.nodes ++ rest.nodes)

def ids (f : Forest) : List NodeId := f.nodes.map (·.id)

def size : Forest → Nat
  | .nil => 0
  | .cons _ cs rest => cs.size + rest.size + 1

/-- The roots of the trees. -/
def roots : Forest → List Node
  | .nil => []
  | .cons n _ rest => n :: rest.roots

def trees : Forest → List Tree
  | .nil => []
  | .cons n cs rest => ⟨n, cs⟩ :: rest.trees

def ofTrees : List Tree → Forest
  | [] => .nil
  | t :: ts => .cons t.node t.children (ofTrees ts)

def isEmpty : Forest → Bool
  | .nil => true
  | .cons _ _ _ => false

/-- The root of the first tree. -/
def first? : Forest → Option Node
  | .nil => none
  | .cons n _ _ => some n

theorem nodes_append (f g : Forest) : (f.append g).nodes = f.nodes ++ g.nodes := by
  induction f with
  | nil => rfl
  | cons n cs rest _ ih => simp [append, nodes, ih]

theorem roots_append (f g : Forest) : (f.append g).roots = f.roots ++ g.roots := by
  induction f with
  | nil => rfl
  | cons n cs rest _ ih => simp [append, roots, ih]

theorem append_nil (f : Forest) : f.append .nil = f := by
  induction f with
  | nil => rfl
  | cons n cs rest _ ih => rw [append, ih]

theorem append_assoc (f g h : Forest) : (f.append g).append h = f.append (g.append h) := by
  induction f with
  | nil => rfl
  | cons n cs rest _ ih => simp only [append, ih]

theorem length_nodes (f : Forest) : f.nodes.length = f.size := by
  induction f with
  | nil => rfl
  | cons n cs rest ihc ihr => simp [nodes, size, ihc, ihr]

/-- The subtree of the node with the number. -/
def tree? (id : NodeId) : Forest → Option Tree
  | .nil => none
  | .cons n cs rest => if n.id = id then some ⟨n, cs⟩ else (cs.tree? id).or (rest.tree? id)

/-! ## Changes -/

/-- The forest without the subtree of the node. -/
def erase (id : NodeId) : Forest → Forest
  | .nil => .nil
  | .cons n cs rest => if n.id = id then rest.erase id else .cons n (cs.erase id) (rest.erase id)

/-- The forest with the label of one node changed. -/
def modify (id : NodeId) (f : Node → Node) : Forest → Forest
  | .nil => .nil
  | .cons n cs rest => .cons (if n.id = id then f n else n) (cs.modify id f) (rest.modify id f)

/-- The forest with the children of one node changed. -/
def modifyChildren (id : NodeId) (f : Forest → Forest) : Forest → Forest
  | .nil => .nil
  | .cons n cs rest =>
    let cs' := cs.modifyChildren id f
    .cons n (if n.id = id then f cs' else cs') (rest.modifyChildren id f)

/-- The forest with a tree put directly before a node. -/
def putBefore (anchor : NodeId) (t : Tree) : Forest → Forest
  | .nil => .nil
  | .cons n cs rest =>
    if n.id = anchor then .cons t.node t.children (.cons n cs rest)
    else .cons n (cs.putBefore anchor t) (rest.putBefore anchor t)

/-- The forest with a tree put directly after a node. -/
def putAfter (anchor : NodeId) (t : Tree) : Forest → Forest
  | .nil => .nil
  | .cons n cs rest =>
    if n.id = anchor then .cons n cs (.cons t.node t.children rest)
    else .cons n (cs.putAfter anchor t) (rest.putAfter anchor t)

/-! ## Display -/

/-- The trees with their kinds and literals, one nested in the other. -/
def display : Forest → Text
  | .nil => []
  | .cons n cs rest =>
    n.kind.name ++ " \x7b\n ".toList ++ n.content.literal ++ '[' :: cs.display ++
      "] \n\x7d".toList ++ (if rest.isEmpty then [] else ", ".toList ++ rest.display)

end Forest

namespace Tree

/-- The tree as a forest of its own. -/
def alone (t : Tree) : Forest := .cons t.node t.children .nil

def ids (t : Tree) : List NodeId := t.node.id :: t.children.ids

def display (t : Tree) : Text := t.alone.display

end Tree

end MarkupTree
