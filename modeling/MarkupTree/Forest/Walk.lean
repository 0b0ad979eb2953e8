-- The walk over a tree enters each node before its children and leaves it
-- after them. The walker stands between two edges: it knows what is next
-- inside the innermost open node, and for each open node what follows it.
import MarkupTree.Forest

namespace MarkupTree

inductive Edge
  | enter (node : Node)
  | exit (node : Node)
  deriving DecidableEq, Repr

/-- The node that the edge enters. -/
def Edge.entered? : Edge → Option Node
  | .enter n => some n
  | .exit _ => none

structure Walk where
  /-- What is to be entered next, a row of siblings. -/
  inside : Forest
  /-- The nodes entered and not left, the innermost first, each with its
  siblings that are still to come. -/
  opened : List (Node × Forest)
  /-- Whether the last edge entered a node. -/
  fresh : Bool
  deriving DecidableEq, Repr

namespace Walk

def ofTree (t : Tree) : Walk := ⟨t.alone, [], false⟩

/-- The next edge and the walk after it. -/
def next (w : Walk) : Option (Edge × Walk) :=
  match w.inside with
  | .cons n cs rest => some (.enter n, ⟨cs, (n, rest) :: w.opened, true⟩)
  | .nil =>
    match w.opened with
    | [] => none
    | (n, rest) :: o => some (.exit n, ⟨rest, o, false⟩)

/-- Passes over the children of the node just entered. After an exit there
are none to pass over. -/
def skipChildren (w : Walk) : Walk := if w.fresh then { w with inside := .nil } else w

/-- The edges that a walk without skips still has. -/
def remaining (w : Walk) : Nat :=
  2 * w.inside.size + w.opened.foldr (fun o rest => 2 * o.2.size + 1 + rest) 0

theorem remaining_next {w w' : Walk} {e : Edge} (h : w.next = some (e, w')) :
    w'.remaining + 1 = w.remaining := by
  obtain ⟨inside, opened, fresh⟩ := w
  cases inside with
  | cons n cs rest =>
    simp only [next, Option.some.injEq, Prod.mk.injEq] at h
    obtain ⟨-, rfl⟩ := h
    simp [remaining, Forest.size]
    omega
  | nil =>
    cases opened with
    | nil => simp [next] at h
    | cons o os =>
      simp only [next, Option.some.injEq, Prod.mk.injEq] at h
      obtain ⟨-, rfl⟩ := h
      simp [remaining, Forest.size]
      omega

theorem remaining_skipChildren (w : Walk) : w.skipChildren.remaining ≤ w.remaining := by
  unfold skipChildren
  split
  · simp [remaining, Forest.size]
  · exact Nat.le_refl _

/-- The edges from here on. After each edge, `rule` decides from all edges so
far, the last one last, whether the walk then skips. -/
def edges (rule : List Edge → Bool) (seen : List Edge) (w : Walk) : List Edge :=
  match _h : w.next with
  | none => []
  | some (e, w') =>
    e :: edges rule (seen ++ [e]) (if rule (seen ++ [e]) then w'.skipChildren else w')
termination_by w.remaining
decreasing_by
  have h1 := remaining_next _h
  have h2 := remaining_skipChildren w'
  split <;> omega

end Walk

namespace Tree

/-- The edges of the walk over the tree. -/
def edges (t : Tree) (rule : List Edge → Bool) : List Edge := (Walk.ofTree t).edges rule []

/-- The nodes in the order in which a walk without skips enters them. -/
def descendants (t : Tree) : List Node := (t.edges fun _ => false).filterMap Edge.entered?

end Tree

end MarkupTree
