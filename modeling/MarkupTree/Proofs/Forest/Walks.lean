-- The walk over a tree, told by recursion: enter a node, walk through its
-- children unless the rule skips them, leave the node, go on with its siblings.
-- The walker keeps no more than the siblings to come, and comes to the same.
import MarkupTree.Forest.Walk
import MarkupTree.Proofs.Forest.Rows

namespace MarkupTree

namespace Forest

/-- The edges of a walk through a row of siblings that has seen the edges
`seen` before. -/
def edges (rule : List Edge → Bool) (seen : List Edge) : Forest → List Edge
  | .nil => []
  | .cons n cs rest =>
    let inner := if rule (seen ++ [.enter n]) then [] else cs.edges rule (seen ++ [.enter n])
    let whole := .enter n :: (inner ++ [.exit n])
    whole ++ rest.edges rule (seen ++ whole)

end Forest

/-- The node that the edge enters or leaves. -/
def Edge.node : Edge → Node
  | .enter n => n
  | .exit n => n

namespace Walk

variable {rule : List Edge → Bool} {seen : List Edge}

theorem edges_of_next_none {w : Walk} (h : w.next = none) : w.edges rule seen = [] := by
  rw [edges]
  split
  · rfl
  · simp_all

theorem edges_of_next_some {w w' : Walk} {e : Edge} (h : w.next = some (e, w')) :
    w.edges rule seen =
      e :: (if rule (seen ++ [e]) then w'.skipChildren else w').edges rule (seen ++ [e]) := by
  rw [edges]
  split
  · simp_all
  · simp_all

/-- Leaving a node goes on with its siblings. A skip after it skips nothing. -/
theorem edges_exit (n : Node) (rest : Forest) (opened : List (Node × Forest)) (fresh : Bool) :
    (Walk.mk .nil ((n, rest) :: opened) fresh).edges rule seen =
      .exit n :: (Walk.mk rest opened false).edges rule (seen ++ [.exit n]) := by
  rw [edges_of_next_some rfl]
  simp [skipChildren]

/-- The walk goes through the row of siblings, and then on as from its end. -/
theorem edges_append (f : Forest) (opened : List (Node × Forest)) (fresh : Bool) :
    (Walk.mk f opened fresh).edges rule seen =
      f.edges rule seen ++ (Walk.mk .nil opened false).edges rule (seen ++ f.edges rule seen) := by
  induction f generalizing opened fresh seen with
  | nil =>
    rw [Forest.edges, List.nil_append, List.append_nil]
    cases opened with
    | nil => rw [edges_of_next_none rfl, edges_of_next_none rfl]
    | cons o os => rw [edges_exit, edges_exit]
  | cons n cs rest ihc ihr =>
    rw [edges_of_next_some rfl]
    by_cases hskip : rule (seen ++ [.enter n]) = true
    · simp [Forest.edges, hskip, skipChildren, edges_exit, ihr]
    · simp [Forest.edges, hskip, ihc, edges_exit, ihr]

end Walk

namespace Tree

theorem edges_eq (t : Tree) (rule : List Edge → Bool) : t.edges rule = t.alone.edges rule [] := by
  rw [edges, Walk.ofTree, Walk.edges_append, Walk.edges_of_next_none rfl, List.append_nil]

end Tree

namespace Forest

/-- A walk that skips nothing enters every node, each before its children. -/
theorem entered_edges (seen : List Edge) (f : Forest) :
    (f.edges (fun _ => false) seen).filterMap Edge.entered? = f.nodes := by
  induction f generalizing seen with
  | nil => rfl
  | cons n cs rest ihc ihr =>
    simp [edges, nodes, List.filterMap_cons, Edge.entered?, ihc, ihr]

/-! ## The edges of a row of siblings -/

variable {rule : List Edge → Bool} {seen : List Edge}

/-- A walk comes to no node outside its row of trees. -/
theorem node_mem_of_mem_edges {f : Forest} {e : Edge} (he : e ∈ f.edges rule seen) :
    e.node ∈ f.nodes := by
  induction f generalizing seen with
  | nil => cases he
  | cons n cs rest ihc ihr =>
    simp only [edges, List.mem_append, List.mem_cons, List.not_mem_nil, or_false] at he
    rcases he with (rfl | he | rfl) | he
    · exact List.mem_cons_self
    · split at he
      · cases he
      · exact List.mem_cons_of_mem _ (List.mem_append_left _ (ihc he))
    · exact List.mem_cons_self
    · exact List.mem_cons_of_mem _ (List.mem_append_right _ (ihr he))

theorem length_edges_le (f : Forest) (seen : List Edge) :
    (f.edges rule seen).length ≤ 2 * f.size := by
  induction f generalizing seen with
  | nil => simp [edges]
  | cons n cs rest ihc ihr =>
    have hinner : (if rule (seen ++ [.enter n]) then [] else
        cs.edges rule (seen ++ [.enter n])).length ≤ 2 * cs.size := by
      split
      · simp
      · exact ihc _
    have hrest := ihr (seen ++ .enter n ::
      ((if rule (seen ++ [.enter n]) then [] else cs.edges rule (seen ++ [.enter n])) ++ [.exit n]))
    simp only [edges, size, List.length_append, List.length_cons, List.length_nil]
    omega

/-- What the rule says after an exit changes nothing. -/
theorem edges_congr {rule' : List Edge → Bool} (f : Forest)
    (h : ∀ seen n, rule (seen ++ [.enter n]) = rule' (seen ++ [.enter n])) :
    f.edges rule seen = f.edges rule' seen := by
  induction f generalizing seen with
  | nil => rfl
  | cons n cs rest ihc ihr => simp only [edges, h, ihc, ihr]

/-- A walk that skips nothing does not look back. -/
theorem edges_seen (f : Forest) (seen seen' : List Edge) :
    f.edges (fun _ => false) seen = f.edges (fun _ => false) seen' := by
  induction f generalizing seen seen' with
  | nil => rfl
  | cons n cs rest ihc ihr => simp only [edges, Bool.false_eq_true, if_false, ihc _ [], ihr _ []]

/-- A walk that skips nothing has two edges for each node. -/
theorem edges_perm (f : Forest) (seen : List Edge) :
    (f.edges (fun _ => false) seen).Perm (f.nodes.flatMap fun n => [.enter n, .exit n]) := by
  induction f generalizing seen with
  | nil => exact List.Perm.refl _
  | cons n cs rest ihc ihr =>
    simp only [edges, nodes, List.flatMap_cons, List.flatMap_append, List.cons_append,
      List.nil_append, List.append_assoc, Bool.false_eq_true, if_false]
    refine List.Perm.cons _ (List.perm_middle.trans (List.Perm.cons _ ?_))
    exact (ihc _).append (ihr _)

/-- A walk that skips nothing enters each node once and leaves it once. -/
theorem count_edges {f : Forest} (hd : f.Distinct) {n : Node} (hn : n ∈ f.nodes) :
    (f.edges (fun _ => false) seen).count (.enter n) = 1 ∧
      (f.edges (fun _ => false) seen).count (.exit n) = 1 := by
  have hnodup : (f.nodes.flatMap fun n => [Edge.enter n, Edge.exit n]).Nodup := by
    refine List.nodup_flatMap.mpr ⟨fun m _ => by simp, ?_⟩
    refine (List.Nodup.of_map _ hd).imp fun {a b} hab => ?_
    simp [Function.onFun, List.Disjoint, hab]
  rw [(edges_perm f seen).count_eq, (edges_perm f seen).count_eq]
  constructor
  · exact List.count_eq_one_of_mem hnodup (List.mem_flatMap.mpr ⟨n, hn, by simp⟩)
  · exact List.count_eq_one_of_mem hnodup (List.mem_flatMap.mpr ⟨n, hn, by simp⟩)

end Forest

/-! ## What a walk tells -/

section

variable {α : Type} {mark : Edge → List α} {f : Forest}

/-- What the edges of a walk that skips nothing tell, one after the other. -/
def Forest.told (mark : Edge → List α) (f : Forest) : List α := (f.edges (fun _ => false) []).flatMap mark

theorem Tree.told_eq (t : Tree) : (t.edges fun _ => false).flatMap mark = t.alone.told mark := by
  rw [edges_eq]
  rfl

namespace Forest

theorem told_cons (n : Node) (cs rest : Forest) : (Forest.cons n cs rest).told mark =
    mark (.enter n) ++ cs.told mark ++ mark (.exit n) ++ rest.told mark := by
  simp only [told, edges, Bool.false_eq_true, if_false, List.flatMap_append, List.flatMap_cons, List.flatMap_nil,
    List.append_nil, List.append_assoc, edges_seen cs _ [], edges_seen rest _ []]

theorem told_alone (t : Tree) : t.alone.told mark =
    mark (.enter t.node) ++ t.children.told mark ++ mark (.exit t.node) := by
  rw [Tree.alone, told_cons]
  exact List.append_nil _

theorem told_congr {mark' : Edge → List α} (h : ∀ e : Edge, e.node ∈ f.nodes → mark e = mark' e) :
    f.told mark = f.told mark' := List.flatMap_congr fun e he => h e (node_mem_of_mem_edges he)

theorem told_eq_nil (h : ∀ e : Edge, e.node ∈ f.nodes → mark e = []) : f.told mark = [] :=
  List.flatMap_eq_nil_iff.mpr fun e he => h e (node_mem_of_mem_edges he)

end Forest

end

end MarkupTree
