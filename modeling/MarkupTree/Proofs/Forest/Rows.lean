-- A forest as a table. Each node has one row: the node with its children, in
-- their order. Where no two nodes share a number, the table says all that
-- looking up a node can show, and a change of the forest is a change of each
-- row, whatever becomes of the order of the rows.
import MarkupTree.Forest
import Mathlib.Data.List.Perm.Basic
import Mathlib.Data.List.Nodup

namespace MarkupTree

/-! ## The table -/

/-- A node with its children. -/
structure Row where
  node : Node
  children : List Node
  deriving DecidableEq, Repr

def Tree.row (t : Tree) : Row := ⟨t.node, t.children.roots⟩

namespace Forest

/-- Every node with all that stands below it, each before its children. -/
def subtrees : Forest → List Tree
  | .nil => []
  | .cons n cs rest => ⟨n, cs⟩ :: (cs.subtrees ++ rest.subtrees)

def rows (f : Forest) : List Row := f.subtrees.map Tree.row

/-- No two nodes have the same number. -/
def Distinct (f : Forest) : Prop := f.ids.Nodup

@[simp] theorem rows_nil : rows .nil = [] := rfl

@[simp] theorem rows_cons (n : Node) (cs rest : Forest) :
    (Forest.cons n cs rest).rows = ⟨n, cs.roots⟩ :: (cs.rows ++ rest.rows) := by
  simp [rows, subtrees, Tree.row]

@[simp] theorem ids_nil : ids .nil = [] := rfl

@[simp] theorem ids_cons (n : Node) (cs rest : Forest) :
    (Forest.cons n cs rest).ids = n.id :: (cs.ids ++ rest.ids) := by
  simp [ids, nodes]

theorem ids_append (f g : Forest) : (f.append g).ids = f.ids ++ g.ids := by
  simp [ids, nodes_append]

theorem subtrees_append (f g : Forest) : (f.append g).subtrees = f.subtrees ++ g.subtrees := by
  induction f with
  | nil => rfl
  | cons n cs rest _ ih => simp [append, subtrees, ih]

theorem rows_append (f g : Forest) : (f.append g).rows = f.rows ++ g.rows := by
  rw [rows, subtrees_append, List.map_append]
  rfl

theorem rows_alone (t : Tree) : t.alone.rows = t.row :: t.children.rows := by
  simp [Tree.alone, Tree.row]

theorem ids_alone (t : Tree) : t.alone.ids = t.ids := by
  simp [Tree.alone, Tree.ids]

theorem map_node_rows (f : Forest) : f.rows.map Row.node = f.nodes := by
  induction f with
  | nil => rfl
  | cons n cs rest ihc ihr => simp [nodes, ihc, ihr]

theorem map_id_rows (f : Forest) : f.rows.map (·.node.id) = f.ids := by
  rw [ids, ← map_node_rows, List.map_map]
  rfl

theorem length_ids (f : Forest) : f.ids.length = f.size := by
  rw [ids, List.length_map, length_nodes]

theorem distinct_cons {n : Node} {cs rest : Forest} :
    (Forest.cons n cs rest).Distinct ↔
      n.id ∉ cs.ids ∧ n.id ∉ rest.ids ∧ cs.Distinct ∧ rest.Distinct ∧ cs.ids.Disjoint rest.ids := by
  unfold Distinct
  rw [ids_cons, List.nodup_cons, List.mem_append, List.nodup_append']
  tauto

theorem roots_subset_nodes (f : Forest) : f.roots ⊆ f.nodes := by
  induction f with
  | nil => exact List.Subset.refl _
  | cons n cs rest _ ih =>
    intro m hm
    rcases List.mem_cons.mp hm with rfl | hm
    · exact List.mem_cons_self
    · exact List.mem_cons_of_mem _ (List.mem_append_right _ (ih hm))

/-- A node is the root of a tree or the child of one row, and only once. -/
theorem nodes_perm (f : Forest) : f.nodes.Perm (f.roots ++ f.rows.flatMap Row.children) := by
  induction f with
  | nil => exact List.Perm.refl _
  | cons n cs rest ihc ihr =>
    simp only [nodes, roots, rows_cons, List.flatMap_cons, List.flatMap_append, List.cons_append]
    refine List.Perm.cons n ((ihc.append ihr).trans ?_)
    refine List.Perm.trans ?_ (List.perm_append_comm_assoc _ _ _)
    simp only [List.append_assoc]
    exact List.Perm.append_left _ (List.perm_append_comm_assoc _ _ _)

theorem node_mem_nodes {f : Forest} {r : Row} (hr : r ∈ f.rows) : r.node ∈ f.nodes := by
  rw [← map_node_rows]
  exact List.mem_map_of_mem hr

theorem child_mem_nodes {f : Forest} {r : Row} {c : Node} (hr : r ∈ f.rows)
    (hc : c ∈ r.children) : c ∈ f.nodes :=
  (nodes_perm f).symm.subset (List.mem_append_right _ (List.mem_flatMap.mpr ⟨r, hr, hc⟩))

theorem eq_nil_of_roots {f : Forest} (h : f.roots = []) : f = .nil := by
  cases f with
  | nil => rfl
  | cons n cs rest => cases h

theorem first?_eq (f : Forest) : f.first? = f.roots.head? := by
  cases f <;> rfl

/-! ## Looking up a node -/

theorem tree?_append (f g : Forest) (id : NodeId) :
    (f.append g).tree? id = (f.tree? id).or (g.tree? id) := by
  induction f with
  | nil => rfl
  | cons n cs rest _ ih =>
    rw [append, tree?, tree?]
    split
    · rfl
    · rw [ih, Option.or_assoc]

theorem tree?_eq_none_iff {f : Forest} {id : NodeId} : f.tree? id = none ↔ id ∉ f.ids := by
  induction f with
  | nil => simp [tree?]
  | cons n cs rest ihc ihr =>
    unfold tree?
    by_cases h : n.id = id
    · simp [h]
    · simp [h, ihc, ihr, Ne.symm h]

theorem mem_ids_of_tree? {f : Forest} {id : NodeId} {t : Tree} (h : f.tree? id = some t) :
    id ∈ f.ids := by
  by_contra hn
  rw [tree?_eq_none_iff.mpr hn] at h
  cases h

theorem exists_tree?_of_mem_ids {f : Forest} {id : NodeId} (h : id ∈ f.ids) :
    ∃ t, f.tree? id = some t := by
  rcases ht : f.tree? id with _ | t
  · exact absurd h (tree?_eq_none_iff.mp ht)
  · exact ⟨t, rfl⟩

theorem mem_subtrees_of_tree? {f : Forest} {id : NodeId} {t : Tree} (h : f.tree? id = some t) :
    t ∈ f.subtrees ∧ t.node.id = id := by
  induction f with
  | nil => cases h
  | cons n cs rest ihc ihr =>
    unfold tree? at h
    by_cases hn : n.id = id
    · rw [if_pos hn] at h
      cases h
      exact ⟨List.mem_cons_self, hn⟩
    · rw [if_neg hn] at h
      rcases Option.or_eq_some_iff.mp h with h | ⟨-, h⟩
      · exact ⟨List.mem_cons_of_mem _ (List.mem_append_left _ (ihc h).1), (ihc h).2⟩
      · exact ⟨List.mem_cons_of_mem _ (List.mem_append_right _ (ihr h).1), (ihr h).2⟩

theorem mem_ids_of_mem_subtrees {f : Forest} {t : Tree} (h : t ∈ f.subtrees) :
    t.node.id ∈ f.ids := by
  rw [← map_id_rows, rows, List.map_map]
  exact List.mem_map_of_mem h

theorem tree?_of_mem_subtrees {f : Forest} (hd : f.Distinct) {t : Tree} (h : t ∈ f.subtrees) :
    f.tree? t.node.id = some t := by
  induction f with
  | nil => cases h
  | cons n cs rest ihc ihr =>
    obtain ⟨hnc, hnr, hdc, hdr, hdisj⟩ := distinct_cons.mp hd
    unfold tree?
    rcases List.mem_cons.mp h with rfl | h
    · simp
    · rcases List.mem_append.mp h with h | h
      · have hid := mem_ids_of_mem_subtrees h
        have hne : n.id ≠ t.node.id := fun he => hnc (he ▸ hid)
        rw [if_neg hne, ihc hdc h]
        rfl
      · have hid := mem_ids_of_mem_subtrees h
        have hne : n.id ≠ t.node.id := fun he => hnr (he ▸ hid)
        rw [if_neg hne, tree?_eq_none_iff.mpr (fun hc => hdisj hc hid), ihr hdr h]
        rfl

/-- What stands below a subtree stands in the forest. -/
theorem subtrees_subset {f : Forest} {t : Tree} (h : t ∈ f.subtrees) :
    t.alone.subtrees ⊆ f.subtrees := by
  induction f with
  | nil => cases h
  | cons n cs rest ihc ihr =>
    rcases List.mem_cons.mp h with rfl | h
    · intro u hu
      simp only [Tree.alone, subtrees, List.append_nil] at hu
      rcases List.mem_cons.mp hu with rfl | hu
      · exact List.mem_cons_self
      · exact List.mem_cons_of_mem _ (List.mem_append_left _ hu)
    · rcases List.mem_append.mp h with h | h
      · exact fun u hu => List.mem_cons_of_mem _ (List.mem_append_left _ (ihc h hu))
      · exact fun u hu => List.mem_cons_of_mem _ (List.mem_append_right _ (ihr h hu))

theorem rows_subset {f : Forest} {t : Tree} (h : t ∈ f.subtrees) : t.alone.rows ⊆ f.rows :=
  List.map_subset _ (subtrees_subset h)

theorem nodes_subset {f : Forest} {t : Tree} (h : t ∈ f.subtrees) : t.alone.nodes ⊆ f.nodes := by
  rw [← map_node_rows, ← map_node_rows]
  exact List.map_subset _ (rows_subset h)

theorem mem_nodes_of_mem_subtrees {f : Forest} {t : Tree} (h : t ∈ f.subtrees) : t.node ∈ f.nodes :=
  nodes_subset h List.mem_cons_self

theorem trees_subset_subtrees (f : Forest) : f.trees ⊆ f.subtrees := by
  induction f with
  | nil => exact List.Subset.refl _
  | cons n cs rest _ ih =>
    intro t ht
    rcases List.mem_cons.mp ht with rfl | ht
    · exact List.mem_cons_self
    · exact List.mem_cons_of_mem _ (List.mem_append_right _ (ih ht))

theorem map_node_trees (f : Forest) : f.trees.map (·.node) = f.roots := by
  induction f with
  | nil => rfl
  | cons n cs rest _ ih => rw [trees, roots, List.map_cons, ih]

theorem children_subset_subtrees {f : Forest} {t : Tree} (h : t ∈ f.subtrees) :
    t.children.trees ⊆ f.subtrees := fun _ hu =>
  subtrees_subset h (List.mem_cons_of_mem _ (List.mem_append_left _ (trees_subset_subtrees _ hu)))

theorem distinct_of_mem_subtrees {f : Forest} (hd : f.Distinct) {t : Tree} (h : t ∈ f.subtrees) :
    t.alone.Distinct := by
  induction f with
  | nil => cases h
  | cons n cs rest ihc ihr =>
    obtain ⟨hnc, hnr, hdc, hdr, hdisj⟩ := distinct_cons.mp hd
    rcases List.mem_cons.mp h with rfl | h
    · exact distinct_cons.mpr ⟨hnc, by simp, hdc, List.nodup_nil, by simp⟩
    · rcases List.mem_append.mp h with h | h
      · exact ihc hdc h
      · exact ihr hdr h

theorem mem_rows_iff {f : Forest} (hd : f.Distinct) {r : Row} :
    r ∈ f.rows ↔ ∃ t, f.tree? r.node.id = some t ∧ t.row = r := by
  constructor
  · intro h
    obtain ⟨t, ht, rfl⟩ := List.mem_map.mp h
    exact ⟨t, tree?_of_mem_subtrees hd ht, rfl⟩
  · rintro ⟨t, ht, rfl⟩
    exact List.mem_map_of_mem (mem_subtrees_of_tree? ht).1

/-- Two rows of the table with one number are the same row. -/
theorem row_unique {f : Forest} (hd : f.Distinct) {r s : Row} (hr : r ∈ f.rows) (hs : s ∈ f.rows)
    (h : r.node.id = s.node.id) : r = s := by
  obtain ⟨t, ht, rfl⟩ := (mem_rows_iff hd).mp hr
  obtain ⟨u, hu, rfl⟩ := (mem_rows_iff hd).mp hs
  rw [h, hu] at ht
  cases ht
  rfl

/-! ## Leaves -/

/-- Below the nodes of the row for which `p` holds stands nothing. -/
def AreLeaves (p : Node → Bool) (f : Forest) : Prop :=
  ∀ r ∈ f.rows, p r.node = true → r.children = []

theorem areLeaves_cons {p : Node → Bool} {n : Node} {cs rest : Forest}
    (h : (cons n cs rest).AreLeaves p) :
    (p n = true → cs = .nil) ∧ cs.AreLeaves p ∧ rest.AreLeaves p := by
  unfold AreLeaves at *
  rw [rows_cons, List.forall_mem_cons, List.forall_mem_append] at h
  exact ⟨fun hn => eq_nil_of_roots (h.1 hn), h.2⟩

end Forest

end MarkupTree
