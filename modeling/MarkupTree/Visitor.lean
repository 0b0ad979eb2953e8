-- A visitor writes a tree by one walk over it: something on entering a node,
-- something on leaving it, and in between the children, if it descends.
import MarkupTree.Forest.Site

namespace MarkupTree

structure Visitor (α : Type) where
  enter : Site → List α
  exit : Site → List α
  descends : Site → Bool

/-- What the visitor writes for a row of siblings, given what stands above
the row and before it. -/
def Forest.visit {α : Type} (v : Visitor α) (ancestors before : List Node) (depth : Nat) :
    Forest → List α
  | .nil => []
  | .cons n cs rest =>
    let site : Site := { node := n, children := cs, ancestors, before, after := rest, depth }
    v.enter site ++
      (if v.descends site then cs.visit v (n :: ancestors) [] (depth + 1) else []) ++
      v.exit site ++ rest.visit v ancestors (n :: before) depth

/-- What the visitor writes for a node and all below it. -/
def Site.visit {α : Type} (v : Visitor α) (s : Site) : List α :=
  v.enter s ++
    (if v.descends s then s.children.visit v (s.node :: s.ancestors) [] (s.depth + 1) else []) ++
    v.exit s

end MarkupTree
