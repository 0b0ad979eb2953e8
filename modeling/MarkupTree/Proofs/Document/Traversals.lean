-- Traversals of sessions. A traversal keeps no record of its way and finds the
-- next edge by links alone, yet whatever it skips it tells the same edges as
-- the walk by recursion, and it ends where it began: at a root of its own,
-- among siblings, or in a detached tree.
import MarkupTree.Document.Traversal
import MarkupTree.Proofs.Document.Sessions
import MarkupTree.Proofs.Forest.Walks

namespace MarkupTree

namespace Traversal

variable {d : Document} {rule : List Edge → Bool}

/-! ## What a traversal tells -/

/-- The traversal, after the edges `seen`, tells exactly these edges and ends. -/
inductive Tells (d : Document) (rule : List Edge → Bool) :
    List Edge → Traversal → List Edge → Prop
  | done {seen : List Edge} {t : Traversal} (h : t.step? d = none) : Tells d rule seen t []
  | step {seen es : List Edge} {t u : Traversal} {e : Edge} (h : t.step? d = some (e, u))
    (rest : Tells d rule (seen ++ [e]) (if rule (seen ++ [e]) then u.skipChildren else u) es) :
    Tells d rule seen t (e :: es)

/-- A limit that the traversal does not reach changes nothing. -/
theorem edges_of_tells {seen es : List Edge} {t : Traversal} {limit : Nat}
    (h : t.Tells d rule seen es) (hlen : es.length ≤ limit) : t.edges d rule limit seen = es := by
  induction h generalizing limit with
  | done h =>
    cases limit with
    | zero => rfl
    | succ limit => rw [edges, h]
  | step h _ ih =>
    cases limit with
    | zero => simp at hlen
    | succ limit => simp only [edges, h, ih (by simpa using hlen)]

/-- One traversal tells one row of edges. -/
theorem tells_unique {seen es es' : List Edge} {t : Traversal} (h : t.Tells d rule seen es)
    (h' : t.Tells d rule seen es') : es = es' := by
  have hes := edges_of_tells h (Nat.le_max_left es.length es'.length)
  have hes' := edges_of_tells h' (Nat.le_max_right es.length es'.length)
  rw [← hes, hes']

/-- Leaving a node goes on to the edge after it. A skip after it skips nothing. -/
theorem tells_exit {root : NodeId} {last next : Option Edge} {n : Node} {seen es : List Edge}
    (hnext : d.successor? root (.exit n) = next)
    (h : Tells d rule (seen ++ [.exit n]) ⟨root, some (.exit n), next⟩ es) :
    Tells d rule seen ⟨root, last, some (.exit n)⟩ (.exit n :: es) := by
  refine Tells.step (u := ⟨root, some (.exit n), next⟩) ?_ ?_
  · rw [← hnext]
    rfl
  · rwa [skipChildren, ite_self]

end Traversal

/-! ## Where links lead -/

namespace Forest

/-- The edge at a place among the children of `p`, given the siblings that are
still to come. -/
def arrival (p : Node) : Forest → Edge
  | .nil => .exit p
  | .cons n _ _ => .enter n

end Forest

namespace Document

variable {d : Document}

theorem linked?_eq {link : NodeId → Option NodeId} {n m : Node} (hd : d.trees.Distinct)
    (hm : m ∈ d.trees.nodes) (h : link n.id = some m.id) : d.linked? link n = some m := by
  rw [linked?, h, Option.bind_some, node?_of_mem_nodes hd hm]

theorem linked?_none {link : NodeId → Option NodeId} {n : Node} (h : link n.id = none) :
    d.linked? link n = none := by
  rw [linked?, h, Option.bind_none]

theorem successor?_enter (hd : d.trees.Distinct) {n : Node} {cs : Forest}
    (hn : ⟨n, cs⟩ ∈ d.trees.subtrees) (root : NodeId) :
    d.successor? root (.enter n) = some (cs.arrival n) := by
  have hfirst : d.firstChild? n.id = (cs.roots.map (·.id)).head? := by
    rw [firstChild?_eq]
    exact congrArg List.head? (children_of_mem_subtrees hd hn)
  cases cs with
  | nil => rw [successor?, linked?_none hfirst, Forest.arrival]
  | cons m ms rest =>
    have hm : m ∈ d.trees.nodes := Forest.nodes_subset hn (by simp [Tree.alone, Forest.nodes])
    rw [successor?, linked?_eq hd hm hfirst, Forest.arrival]

/-- From a child, the traversal goes on to the next sibling, or back to the
parent. -/
theorem successor?_exit (hd : d.trees.Distinct) {p n : Node} {xs : List NodeId} {rest : Forest}
    {root : NodeId} (hp : p ∈ d.trees.nodes) (hrest : rest.trees ⊆ d.trees.subtrees)
    (hrow : d.children p.id = xs ++ n.id :: rest.roots.map (·.id)) (hne : n.id ≠ root) :
    d.successor? root (.exit n) = some (rest.arrival p) := by
  have hnext := (neighbours_of_split hd hrow).2
  cases rest with
  | nil =>
    have hparent : d.parent? n.id = some p.id :=
      (parent?_eq_some_iff hd).mpr (by rw [hrow]; simp)
    rw [successor?, if_neg hne, linked?_none hnext, linked?_eq hd hp hparent]
    rfl
  | cons m ms others =>
    have hm : m ∈ d.trees.nodes := Forest.mem_nodes_of_mem_subtrees (hrest List.mem_cons_self)
    rw [successor?, if_neg hne, linked?_eq hd hm hnext]
    rfl

end Document

/-! ## The walk by links -/

namespace Traversal

open Document

variable {d : Document} {rule : List Edge → Bool}

/-- The edges between the entry and the exit of a node. -/
def between (rule : List Edge → Bool) (seen : List Edge) (n : Node) (cs : Forest) : List Edge :=
  if rule (seen ++ [.enter n]) then [] else cs.edges rule (seen ++ [.enter n])

/-- What holds of the walk through the children, from the first one to the exit
of their parent, gives the walk from the entry of the parent on. -/
theorem tells_enter {root : NodeId} {last : Option Edge} {n : Node} {cs : Forest}
    {seen es : List Edge} (hnext : d.successor? root (.enter n) = some (cs.arrival n))
    (hrow : (∀ last, Tells d rule (seen ++ [.enter n] ++ cs.edges rule (seen ++ [.enter n]))
        ⟨root, last, some (.exit n)⟩ es) →
      Tells d rule (seen ++ [.enter n]) ⟨root, some (.enter n), some (cs.arrival n)⟩
        (cs.edges rule (seen ++ [.enter n]) ++ es))
    (hexit : ∀ last, Tells d rule (seen ++ .enter n :: between rule seen n cs)
      ⟨root, last, some (.exit n)⟩ es) :
    Tells d rule seen ⟨root, last, some (.enter n)⟩ (.enter n :: (between rule seen n cs ++ es)) := by
  refine Tells.step (u := ⟨root, some (.enter n), some (cs.arrival n)⟩) ?_ ?_
  · rw [← hnext]
    rfl
  · unfold between at hexit ⊢
    split
    · rw [if_pos ‹_›] at hexit
      exact hexit _
    · rw [if_neg ‹_›] at hexit
      exact hrow (by simpa using hexit)

/-- A traversal that stands before the siblings `f`, the last children of `p`,
walks through them and comes to the exit of `p`. -/
theorem tells_row (hd : d.trees.Distinct) {f : Forest} {p : Node} {root : NodeId}
    {l : List NodeId} {seen es : List Edge} {last : Option Edge} (hp : p ∈ d.trees.nodes)
    (hsub : f.trees ⊆ d.trees.subtrees) (hrow : d.children p.id = l ++ f.roots.map (·.id))
    (hroot : root ∉ f.ids)
    (h : ∀ last, Tells d rule (seen ++ f.edges rule seen) ⟨root, last, some (.exit p)⟩ es) :
    Tells d rule seen ⟨root, last, some (f.arrival p)⟩ (f.edges rule seen ++ es) := by
  induction f generalizing p l seen last es with
  | nil => simpa [Forest.edges, Forest.arrival] using h last
  | cons n cs rest ihc ihr =>
    have hn : (⟨n, cs⟩ : Tree) ∈ d.trees.subtrees := hsub List.mem_cons_self
    have hrest : rest.trees ⊆ d.trees.subtrees := fun t ht => hsub (List.mem_cons_of_mem _ ht)
    rw [Forest.ids_cons, List.mem_cons, List.mem_append, not_or, not_or] at hroot
    obtain ⟨hroot, hrootc, hrootr⟩ := hroot
    have hedges : (Forest.cons n cs rest).edges rule seen =
        .enter n :: (between rule seen n cs ++ .exit n ::
          rest.edges rule (seen ++ .enter n :: (between rule seen n cs ++ [.exit n]))) := by
      simp [Forest.edges, between]
    rw [hedges, List.cons_append, List.append_assoc, List.cons_append]
    apply tells_enter (successor?_enter hd hn root)
    · exact ihc (l := []) (Forest.mem_nodes_of_mem_subtrees hn) (Forest.children_subset_subtrees hn)
        (children_of_mem_subtrees hd hn) hrootc
    · intro last
      apply tells_exit (successor?_exit hd hp hrest hrow (Ne.symm hroot))
      rw [List.append_assoc, List.cons_append]
      refine ihr (l := l ++ [n.id]) hp hrest ?_ hrootr fun last => ?_
      · rw [hrow]
        simp [Forest.roots]
      · rw [hedges] at h
        simpa using h last

/-- The traversal of a subtree tells the edges of the walk over it, and ends. -/
theorem tells_tree (hd : d.trees.Distinct) {t : Tree} (ht : t ∈ d.trees.subtrees) :
    (ofNode t.node).Tells d rule [] (t.alone.edges rule []) := by
  obtain ⟨n, cs⟩ := t
  have hroot : n.id ∉ cs.ids := (Forest.distinct_cons.mp (Forest.distinct_of_mem_subtrees hd ht)).1
  have hedges : (Forest.cons n cs .nil).edges rule [] =
      .enter n :: (between rule [] n cs ++ [.exit n]) := by
    simp [Forest.edges, between]
  rw [Tree.alone, hedges]
  apply tells_enter (successor?_enter hd ht n.id)
  · exact tells_row hd (l := []) (Forest.mem_nodes_of_mem_subtrees ht)
      (Forest.children_subset_subtrees ht) (children_of_mem_subtrees hd ht) hroot
  · intro last
    exact tells_exit (if_pos rfl) (Tells.done rfl)

end Traversal

/-! ## Traversals of sessions -/

namespace Document

variable {d : Document}

/-- What traversals of the subtree `t` tell, whatever the rule for skipping. -/
structure WalksOver (d : Document) (t : Tree) : Prop where
  /-- A traversal tells the edges of the walk by recursion, and ends. -/
  ends : ∀ rule es, (Traversal.ofNode t.node).Tells d rule [] es ↔ es = t.alone.edges rule []
  traverse : ∀ rule, d.traverse rule t.node = t.alone.edges rule []
  /-- A walker that keeps a record of its way tells the same. -/
  recorded : ∀ rule, d.traverse rule t.node = t.edges rule
  /-- What the rule says after an exit changes nothing. -/
  exits : ∀ rule rule' : List Edge → Bool,
    (∀ seen n, rule (seen ++ [.enter n]) = rule' (seen ++ [.enter n])) →
      d.traverse rule t.node = d.traverse rule' t.node
  inside : ∀ rule, ∀ e ∈ d.traverse rule t.node, d.Below t.node.id e.node.id
  /-- Without skips each node of the subtree is entered once and left once. -/
  once : ∀ id, d.Below t.node.id id → ∃ n, d.node? id = some n ∧
    (d.traverse (fun _ => false) t.node).count (.enter n) = 1 ∧
    (d.traverse (fun _ => false) t.node).count (.exit n) = 1
  descendants : d.descendants t.node = t.alone.nodes

theorem size_le_nodeCount (hd : d.trees.Distinct) {t : Tree} (ht : t ∈ d.trees.subtrees) :
    t.alone.size ≤ d.nodeCount := by
  have hids : t.alone.ids ⊆ d.trees.ids := List.map_subset _ (Forest.nodes_subset ht)
  have hnodup : t.alone.ids.Nodup := Forest.distinct_of_mem_subtrees hd ht
  have hlen := (hnodup.subperm hids).length_le
  rwa [Forest.length_ids, Forest.length_ids] at hlen

theorem traverse_eq (hd : d.trees.Distinct) {t : Tree} (ht : t ∈ d.trees.subtrees)
    (rule : List Edge → Bool) : d.traverse rule t.node = t.alone.edges rule [] := by
  apply Traversal.edges_of_tells (Traversal.tells_tree hd ht)
  have hedges : (t.alone.edges rule []).length ≤ 2 * t.alone.size := t.alone.length_edges_le []
  have hsize := size_le_nodeCount hd ht
  omega

theorem below_of_mem_nodes (hd : d.trees.Distinct) {t : Tree} (ht : t ∈ d.trees.subtrees) {n : Node}
    (hn : n ∈ t.alone.nodes) : d.Below t.node.id n.id := by
  rw [below_iff hd, Forest.below_iff_mem_ids hd ht, ← Forest.ids_alone]
  exact List.mem_map_of_mem hn

theorem node_of_below (hd : d.trees.Distinct) {t : Tree} (ht : t ∈ d.trees.subtrees) {id : NodeId}
    (h : d.Below t.node.id id) : ∃ n ∈ t.alone.nodes, d.node? id = some n := by
  rw [below_iff hd, Forest.below_iff_mem_ids hd ht, ← Forest.ids_alone] at h
  obtain ⟨n, hn, rfl⟩ := List.mem_map.mp h
  exact ⟨n, hn, node?_of_mem_nodes hd (Forest.nodes_subset ht hn)⟩

theorem walksOver (hd : d.trees.Distinct) {t : Tree} (ht : t ∈ d.trees.subtrees) : WalksOver d t where
  ends rule es := by
    have htells : (Traversal.ofNode t.node).Tells d rule [] (t.alone.edges rule []) :=
      Traversal.tells_tree hd ht
    constructor
    · intro h
      exact Traversal.tells_unique h htells
    · rintro rfl
      exact htells
  traverse := traverse_eq hd ht
  recorded rule := by rw [traverse_eq hd ht, Tree.edges_eq]
  exits rule rule' h := by
    rw [traverse_eq hd ht, traverse_eq hd ht]
    exact Forest.edges_congr _ h
  inside rule e he := by
    rw [traverse_eq hd ht] at he
    exact below_of_mem_nodes hd ht (Forest.node_mem_of_mem_edges he)
  once id h := by
    obtain ⟨n, hn, hnode⟩ := node_of_below hd ht h
    rw [traverse_eq hd ht]
    exact ⟨n, hnode, Forest.count_edges (Forest.distinct_of_mem_subtrees hd ht) hn⟩
  descendants := by
    unfold descendants
    rw [traverse_eq hd ht, Forest.entered_edges]

/-- In every session, a traversal from any node by links is the walk over its
subtree, with what the rule skips left out. -/
theorem Session.traversals_are_walks (x : Session) {id : NodeId} {t : Tree}
    (ht : x.document.tree? id = some t) : WalksOver x.document t :=
  walksOver x.sound.distinct (Forest.mem_subtrees_of_tree? ht).1

/-- An emphasis between two texts of a paragraph: the traversal of the emphasis
alone comes to neither of its neighbours. -/
theorem traversals_are_walks_emphasis :
    let x : Session := ⟨.new, [.create .paragraph, .appendChild 0 1, .create .text,
      .appendChild 1 2, .create .emphasis, .appendChild 1 3, .create .text, .appendChild 1 4,
      .create .code, .appendChild 3 5]⟩
    let t : Tree := ⟨{ id := 3, content := .emphasis },
      .cons { id := 5, content := .code [] } .nil .nil⟩
    x.document.tree? 3 = some t ∧ WalksOver x.document t := by
  intro x t
  have ht : x.document.tree? 3 = some t := by decide +kernel
  exact ⟨ht, x.traversals_are_walks ht⟩

end Document

end MarkupTree
