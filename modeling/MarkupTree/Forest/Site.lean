-- A site is a node in its place: what stands below it, above it, before it
-- and after it. A writer that has the site of a node needs no other view of
-- the document.
import MarkupTree.Forest

namespace MarkupTree

structure Site where
  node : Node
  children : Forest
  /-- The nodes above, the parent first. -/
  ancestors : List Node := []
  /-- The siblings before the node, the nearest first. -/
  before : List Node := []
  /-- The siblings after the node with their subtrees. -/
  after : Forest := .nil
  /-- How many of the ancestors belong to the tree that is being written. -/
  depth : Nat := 0
  deriving DecidableEq, Repr

namespace Site

def content (s : Site) : Content := s.node.content

def kind (s : Site) : Kind := s.node.kind

def parent? (s : Site) : Option Node := s.ancestors.head?

/-- Whether the parent has the kind. -/
def isIn (s : Site) (k : Kind) : Bool :=
  match s.ancestors with
  | [] => false
  | p :: _ => p.kind == k

def tree (s : Site) : Tree := ⟨s.node, s.children⟩

end Site

/-- The site of a node in a row of siblings, given what stands above the row
and before it. -/
def Forest.site? (id : NodeId) (ancestors before : List Node) : Forest → Option Site
  | .nil => none
  | .cons n cs rest =>
    if n.id = id then some { node := n, children := cs, ancestors, before, after := rest }
    else (cs.site? id (n :: ancestors) []).or (rest.site? id ancestors (n :: before))

/-- The site of a node among trees that stand alone: the root of such a tree
has neither parent nor siblings. -/
def Forest.siteAmong? (id : NodeId) : Forest → Option Site
  | .nil => none
  | .cons n cs rest =>
    if n.id = id then some { node := n, children := cs }
    else (cs.site? id [n] []).or (rest.siteAmong? id)

end MarkupTree
