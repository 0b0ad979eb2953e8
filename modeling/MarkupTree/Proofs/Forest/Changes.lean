-- What each change of a forest does to its table: to take a tree out or to
-- put one in edits one list of siblings and leaves every other row alone.
import MarkupTree.Proofs.Forest.Rows

namespace MarkupTree

/-! ## Edits of a list of siblings -/

/-- The nodes `n` and `m`, with `n` on that side of `m`. -/
def Side.pair (side : Side) (n m : Node) : List Node :=
  match side with
  | .before => [n, m]
  | .after => [m, n]

namespace Siblings

def without (id : NodeId) (l : List Node) : List Node := l.filter fun n => n.id != id

/-- The list with `n` directly beside the sibling `anchor`. -/
def beside (side : Side) (anchor : NodeId) (n : Node) : List Node → List Node
  | [] => []
  | m :: ms => if m.id = anchor then side.pair n m ++ ms else m :: beside side anchor n ms

/-- The list with `n` at its end on that side. -/
def around {α : Type} (side : Side) (n : α) (l : List α) : List α :=
  match side with
  | .before => n :: l
  | .after => l ++ [n]

theorem without_of_not_mem {id : NodeId} {l : List Node} (h : id ∉ l.map (·.id)) :
    without id l = l := by
  unfold without
  rw [List.filter_eq_self]
  intro n hn
  have hne : n.id ≠ id := fun he => h (he ▸ List.mem_map_of_mem hn)
  simpa using hne

theorem beside_of_not_mem {side : Side} {anchor : NodeId} {n : Node} {l : List Node}
    (h : anchor ∉ l.map (·.id)) : beside side anchor n l = l := by
  induction l with
  | nil => rfl
  | cons m ms ih =>
    simp only [List.map_cons, List.mem_cons, not_or] at h
    rw [beside, if_neg (Ne.symm h.1), ih h.2]

theorem map_id_without (id : NodeId) (l : List Node) :
    (without id l).map (·.id) = (l.map (·.id)).filter (· != id) := by
  unfold without
  rw [List.filter_map]
  rfl

theorem map_around {α β : Type} (f : α → β) (side : Side) (n : α) (l : List α) :
    (around side n l).map f = around side (f n) (l.map f) := by
  cases side <;> simp [around]

/-- The anchor splits the list, and the new sibling stands at the split. -/
theorem beside_split (side : Side) {anchor : NodeId} {n : Node} {l : List Node}
    (h : anchor ∈ l.map (·.id)) :
    ∃ xs a ys, l = xs ++ a :: ys ∧ a.id = anchor ∧
      beside side anchor n l = xs ++ (side.pair n a ++ ys) := by
  induction l with
  | nil => cases h
  | cons m ms ih =>
    by_cases hm : m.id = anchor
    · exact ⟨[], m, ms, rfl, hm, by rw [beside, if_pos hm]; rfl⟩
    · obtain ⟨xs, a, ys, rfl, ha, hb⟩ :=
        ih ((List.mem_cons.mp h).resolve_left (Ne.symm hm))
      exact ⟨m :: xs, a, ys, rfl, ha, by rw [beside, if_neg hm, hb]; rfl⟩

theorem mem_without {id : NodeId} {l : List Node} {x : Node} (h : x ∈ without id l) : x ∈ l :=
  (List.mem_filter.mp h).1

theorem mem_around {side : Side} {n x : Node} {l : List Node} (h : x ∈ around side n l) :
    x ∈ l ∨ x = n := by
  cases side with
  | before => exact (List.mem_cons.mp h).symm
  | after => exact (List.mem_append.mp h).imp_right List.mem_singleton.mp

/-- Only beside its anchor is a node new. -/
theorem mem_beside {side : Side} {anchor : NodeId} {n x : Node} {l : List Node}
    (h : x ∈ beside side anchor n l) : x ∈ l ∨ x = n ∧ anchor ∈ l.map (·.id) := by
  by_cases ha : anchor ∈ l.map (·.id)
  · obtain ⟨xs, b, ys, rfl, -, hs⟩ := beside_split side (n := n) ha
    rw [hs] at h
    cases side <;> simp only [Side.pair, List.mem_append, List.mem_cons] at h ⊢ <;> tauto
  · rw [beside_of_not_mem ha] at h
    exact Or.inl h

end Siblings

/-- The row with its list of children edited. -/
def Row.edit (g : List Node → List Node) (r : Row) : Row := { r with children := g r.children }

/-- The row, edited if it is the row of the node `id`. -/
def Row.editAt (id : NodeId) (g : List Node → List Node) (r : Row) : Row :=
  if r.node.id = id then r.edit g else r

/-- The row with every node in it relabelled. -/
def Row.relabel (g : Node → Node) (r : Row) : Row := ⟨g r.node, r.children.map g⟩

@[simp] theorem Row.node_edit (g : List Node → List Node) (r : Row) : (r.edit g).node = r.node :=
  rfl

@[simp] theorem Row.node_editAt (id : NodeId) (g : List Node → List Node) (r : Row) :
    (r.editAt id g).node = r.node := by
  unfold Row.editAt
  split <;> rfl

theorem Row.children_editAt (id : NodeId) (g : List Node → List Node) (r : Row) :
    (r.editAt id g).children = if r.node.id = id then g r.children else r.children := by
  unfold Row.editAt
  split <;> rfl

namespace Forest

/-! ## A change at one place -/

theorem children_subset_ids {f : Forest} {r : Row} (h : r ∈ f.rows) :
    r.children.map (·.id) ⊆ f.ids := by
  intro id hid
  obtain ⟨c, hc, rfl⟩ := List.mem_map.mp hid
  exact List.mem_map_of_mem (child_mem_nodes h hc)

/-- An edit that acts only on lists with the number `id` leaves a table
without that number as it is. -/
theorem map_edit_of_not_mem {f : Forest} {id : NodeId} {g : List Node → List Node}
    (hg : ∀ l : List Node, id ∉ l.map (·.id) → g l = l) (h : id ∉ f.ids) :
    f.rows.map (Row.edit g) = f.rows := by
  refine (List.map_congr_left fun r hr => ?_).trans (List.map_id _)
  have hr' := hg r.children fun hm => h (children_subset_ids hr hm)
  rw [Row.edit, hr']
  rfl

/-- A change of the forest at one node, told by what it does to lists of
siblings. `op` is the change, `g` the same change on a list, and the table
loses the rows `out` and gains the rows `new`. -/
theorem rows_change (op : Forest → Forest) (g : List Node → List Node) {id : NodeId}
    (out new : List Row) (hroots : ∀ f, (op f).roots = g f.roots)
    (hsame : ∀ f : Forest, id ∉ f.ids → op f = f)
    (hg : ∀ l : List Node, id ∉ l.map (·.id) → g l = l)
    (hstep : ∀ n cs rest, n.id ≠ id → op (.cons n cs rest) = .cons n (op cs) (op rest))
    {f : Forest} {t : Tree} (hd : f.Distinct) (ht : f.tree? id = some t)
    (hhere : ∀ rest, (Forest.cons t.node t.children rest).Distinct → t.node.id = id →
      ((op (.cons t.node t.children rest)).rows ++ out).Perm
        ((Forest.cons t.node t.children rest).rows.map (Row.edit g) ++ new)) :
    ((op f).rows ++ out).Perm (f.rows.map (Row.edit g) ++ new) := by
  induction f with
  | nil => cases ht
  | cons n cs rest ihc ihr =>
    obtain ⟨-, -, hdc, hdr, hdisj⟩ := distinct_cons.mp hd
    unfold tree? at ht
    by_cases hn : n.id = id
    · rw [if_pos hn] at ht
      cases ht
      exact hhere rest hd hn
    · rw [if_neg hn] at ht
      have hhead : Row.edit g ⟨n, cs.roots⟩ = ⟨n, (op cs).roots⟩ := by rw [Row.edit, hroots]
      rw [hstep n cs rest hn, rows_cons, rows_cons, List.map_cons, List.map_append, hhead,
        List.cons_append, List.cons_append]
      apply List.Perm.cons _
      rcases Option.or_eq_some_iff.mp ht with ht | ⟨-, ht⟩
      · have hnot : id ∉ rest.ids := fun hm => hdisj (mem_ids_of_tree? ht) hm
        rw [hsame rest hnot, map_edit_of_not_mem hg hnot]
        have h := (ihc hdc ht).append_right rest.rows
        simp only [List.append_assoc] at h ⊢
        refine ((List.perm_append_comm).append_left _).trans (h.trans ?_)
        exact (List.perm_append_comm).append_left _
      · have hnot : id ∉ cs.ids := fun hm => hdisj hm (mem_ids_of_tree? ht)
        rw [hsame cs hnot, map_edit_of_not_mem hg hnot, List.append_assoc, List.append_assoc]
        exact (ihr hdr ht).append_left _

/-! ## Taking a tree out -/

theorem roots_erase (id : NodeId) (f : Forest) :
    (f.erase id).roots = Siblings.without id f.roots := by
  induction f with
  | nil => rfl
  | cons n cs rest _ ih =>
    unfold erase
    by_cases hn : n.id = id
    · simp [hn, ih, roots, Siblings.without]
    · simp [hn, ih, roots, Siblings.without]

theorem erase_of_not_mem {id : NodeId} {f : Forest} (h : id ∉ f.ids) : f.erase id = f := by
  induction f with
  | nil => rfl
  | cons n cs rest ihc ihr =>
    simp only [ids_cons, List.mem_cons, List.mem_append, not_or] at h
    rw [erase, if_neg (Ne.symm h.1), ihc h.2.1, ihr h.2.2]

/-- Taking a tree out removes its rows and takes its root from the one list
that has it. -/
theorem rows_erase {f : Forest} {id : NodeId} {t : Tree} (hd : f.Distinct)
    (ht : f.tree? id = some t) :
    ((f.erase id).rows ++ t.alone.rows).Perm (f.rows.map (Row.edit (Siblings.without id))) := by
  have h := rows_change (erase id) (Siblings.without id) t.alone.rows [] (roots_erase id)
    (fun f => erase_of_not_mem) (fun l => Siblings.without_of_not_mem)
    (fun n cs rest hn => by rw [erase, if_neg hn]) hd ht ?_
  · rwa [List.append_nil] at h
  · intro rest hd' hid
    obtain ⟨hnc, hnr, -, -, -⟩ := distinct_cons.mp hd'
    rw [hid] at hnc hnr
    have hroots : id ∉ t.children.roots.map (·.id) :=
      fun hm => hnc (List.map_subset _ (roots_subset_nodes _) hm)
    rw [erase, if_pos hid, erase_of_not_mem hnr, List.append_nil, rows_cons, List.map_cons,
      List.map_append, map_edit_of_not_mem (fun l => Siblings.without_of_not_mem) hnc,
      map_edit_of_not_mem (fun l => Siblings.without_of_not_mem) hnr, Row.edit,
      Siblings.without_of_not_mem hroots, rows_alone]
    exact List.perm_append_comm

theorem ids_erase {f : Forest} {id : NodeId} {t : Tree} (hd : f.Distinct)
    (ht : f.tree? id = some t) : ((f.erase id).ids ++ t.ids).Perm f.ids := by
  have h := (rows_erase hd ht).map (·.node.id)
  rw [List.map_append, map_id_rows, map_id_rows, ids_alone, List.map_map] at h
  exact h.trans (List.Perm.of_eq (map_id_rows f))

/-! ## Putting a tree in -/

/-- The forest with a tree put directly beside a node. -/
def putBeside (side : Side) (anchor : NodeId) (t : Tree) (f : Forest) : Forest :=
  match side with
  | .before => f.putBefore anchor t
  | .after => f.putAfter anchor t

/-- The forest with a tree put at its end on that side. -/
def putAround (side : Side) (t : Tree) (f : Forest) : Forest :=
  match side with
  | .before => .cons t.node t.children f
  | .after => f.append t.alone

theorem putBeside_nil (side : Side) (anchor : NodeId) (t : Tree) :
    putBeside side anchor t .nil = .nil := by
  cases side <;> rfl

theorem putBeside_other (side : Side) {anchor : NodeId} (t : Tree) {n : Node} (cs rest : Forest)
    (hn : n.id ≠ anchor) :
    putBeside side anchor t (.cons n cs rest) =
      .cons n (cs.putBeside side anchor t) (rest.putBeside side anchor t) := by
  cases side <;> exact if_neg hn

theorem roots_putBeside_here (side : Side) {anchor : NodeId} (t : Tree) {n : Node}
    (cs rest : Forest) (hn : n.id = anchor) :
    (putBeside side anchor t (.cons n cs rest)).roots = side.pair t.node n ++ rest.roots := by
  cases side with
  | before => rw [putBeside, putBefore, if_pos hn]; rfl
  | after => rw [putBeside, putAfter, if_pos hn]; rfl

theorem rows_putBeside_here (side : Side) {anchor : NodeId} (t : Tree) {n : Node}
    (cs rest : Forest) (hn : n.id = anchor) :
    (putBeside side anchor t (.cons n cs rest)).rows.Perm
      ((Forest.cons n cs rest).rows ++ t.alone.rows) := by
  cases side with
  | before =>
    rw [putBeside, putBefore, if_pos hn, rows_cons, rows_alone, ← List.cons_append]
    exact List.perm_append_comm
  | after =>
    have hnew : (Forest.cons t.node t.children rest).rows = t.alone.rows ++ rest.rows := by
      rw [rows_cons, rows_alone]
      rfl
    rw [putBeside, putAfter, if_pos hn, rows_cons, hnew, rows_cons n cs rest, List.cons_append,
      List.append_assoc]
    exact (List.perm_append_comm.append_left _).cons _

theorem roots_putBeside (side : Side) (anchor : NodeId) (t : Tree) (f : Forest) :
    (f.putBeside side anchor t).roots = Siblings.beside side anchor t.node f.roots := by
  induction f with
  | nil => rw [putBeside_nil]; rfl
  | cons n cs rest _ ih =>
    rw [roots, Siblings.beside]
    by_cases hn : n.id = anchor
    · rw [roots_putBeside_here side t cs rest hn, if_pos hn]
    · rw [putBeside_other side t cs rest hn, roots, ih, if_neg hn]

theorem putBeside_of_not_mem {side : Side} {anchor : NodeId} {t : Tree} {f : Forest}
    (h : anchor ∉ f.ids) : f.putBeside side anchor t = f := by
  induction f with
  | nil => exact putBeside_nil side anchor t
  | cons n cs rest ihc ihr =>
    simp only [ids_cons, List.mem_cons, List.mem_append, not_or] at h
    rw [putBeside_other side t cs rest (Ne.symm h.1), ihc h.2.1, ihr h.2.2]

/-- Putting a tree beside a node edits the one list that has the node. -/
theorem rows_putBeside {f : Forest} {side : Side} {anchor : NodeId} {t : Tree} (hd : f.Distinct)
    (ha : anchor ∈ f.ids) :
    (f.putBeside side anchor t).rows.Perm
      (f.rows.map (Row.edit (Siblings.beside side anchor t.node)) ++ t.alone.rows) := by
  obtain ⟨u, hu⟩ := exists_tree?_of_mem_ids ha
  have hkeep : ∀ l : List Node, anchor ∉ l.map (·.id) → Siblings.beside side anchor t.node l = l :=
    fun l => Siblings.beside_of_not_mem
  have h := rows_change (putBeside side anchor t) (Siblings.beside side anchor t.node) []
    t.alone.rows (roots_putBeside side anchor t) (fun f => putBeside_of_not_mem) hkeep
    (fun n cs rest hn => putBeside_other side t cs rest hn) hd hu ?_
  · rwa [List.append_nil] at h
  · intro rest hd' hid
    obtain ⟨hnc, hnr, -, -, -⟩ := distinct_cons.mp hd'
    rw [hid] at hnc hnr
    have hroots : anchor ∉ u.children.roots.map (·.id) :=
      fun hm => hnc (List.map_subset _ (roots_subset_nodes _) hm)
    have hsame : (Forest.cons u.node u.children rest).rows.map
        (Row.edit (Siblings.beside side anchor t.node)) =
          (Forest.cons u.node u.children rest).rows := by
      rw [rows_cons, List.map_cons, List.map_append, map_edit_of_not_mem hkeep hnc,
        map_edit_of_not_mem hkeep hnr, Row.edit, hkeep _ hroots]
    rw [hsame, List.append_nil]
    exact rows_putBeside_here side t u.children rest hid

theorem roots_putAround (side : Side) (t : Tree) (f : Forest) :
    (f.putAround side t).roots = Siblings.around side t.node f.roots := by
  cases side with
  | before => rfl
  | after => exact roots_append f t.alone

theorem rows_putAround (side : Side) (t : Tree) (f : Forest) :
    (f.putAround side t).rows.Perm (f.rows ++ t.alone.rows) := by
  cases side with
  | before =>
    rw [putAround, rows_cons, rows_alone, ← List.cons_append]
    exact List.perm_append_comm
  | after => rw [putAround, rows_append]

/-! ## A change among the children of one node -/

theorem modifyChildren_of_not_mem {id : NodeId} {g : Forest → Forest} {f : Forest}
    (h : id ∉ f.ids) : f.modifyChildren id g = f := by
  induction f with
  | nil => rfl
  | cons n cs rest ihc ihr =>
    simp only [ids_cons, List.mem_cons, List.mem_append, not_or] at h
    rw [modifyChildren, ihc h.2.1, ihr h.2.2, if_neg (Ne.symm h.1)]

theorem roots_modifyChildren (id : NodeId) (g : Forest → Forest) (f : Forest) :
    (f.modifyChildren id g).roots = f.roots := by
  induction f with
  | nil => rfl
  | cons n cs rest _ ih => simp [modifyChildren, roots, ih]

theorem map_editAt_of_not_mem {f : Forest} {id : NodeId} {g : List Node → List Node}
    (h : id ∉ f.ids) : f.rows.map (Row.editAt id g) = f.rows := by
  refine (List.map_congr_left fun r hr => ?_).trans (List.map_id _)
  have hne : r.node.id ≠ id := by
    rintro rfl
    rw [← map_id_rows] at h
    exact h (List.mem_map_of_mem hr)
  rw [Row.editAt, if_neg hne]
  rfl

/-- To add a tree to the children of a node edits the row of that node. -/
theorem rows_modifyChildren {g : Forest → Forest} {edit : List Node → List Node} {new : List Row}
    (hroots : ∀ cs, (g cs).roots = edit cs.roots) (hrows : ∀ cs, (g cs).rows.Perm (cs.rows ++ new))
    {f : Forest} {id : NodeId} (hd : f.Distinct) (hid : id ∈ f.ids) :
    (f.modifyChildren id g).rows.Perm (f.rows.map (Row.editAt id edit) ++ new) := by
  induction f with
  | nil => cases hid
  | cons n cs rest ihc ihr =>
    obtain ⟨hnc, hnr, hdc, hdr, hdisj⟩ := distinct_cons.mp hd
    rw [modifyChildren, rows_cons, rows_cons, List.map_cons, List.map_append]
    by_cases hn : n.id = id
    · rw [hn] at hnc hnr
      rw [if_pos hn, modifyChildren_of_not_mem hnc, modifyChildren_of_not_mem hnr,
        map_editAt_of_not_mem hnc, map_editAt_of_not_mem hnr, Row.editAt, if_pos hn, Row.edit,
        hroots, List.cons_append]
      refine List.Perm.cons _ (((hrows cs).append_right _).trans ?_)
      rw [List.append_assoc, List.append_assoc]
      exact (List.perm_append_comm).append_left _
    · rw [if_neg hn, roots_modifyChildren, Row.editAt, if_neg hn, List.cons_append]
      apply List.Perm.cons _
      rw [ids_cons, List.mem_cons, List.mem_append] at hid
      rcases hid with hid | hid | hid
      · exact absurd hid.symm hn
      · have hnot : id ∉ rest.ids := fun hm => hdisj hid hm
        rw [modifyChildren_of_not_mem hnot, map_editAt_of_not_mem hnot]
        refine ((ihc hdc hid).append_right _).trans ?_
        rw [List.append_assoc, List.append_assoc]
        exact (List.perm_append_comm).append_left _
      · have hnot : id ∉ cs.ids := fun hm => hdisj hm hid
        rw [modifyChildren_of_not_mem hnot, map_editAt_of_not_mem hnot, List.append_assoc]
        exact (ihr hdr hid).append_left _

/-! ## A change of labels -/

theorem roots_modify (id : NodeId) (g : Node → Node) (f : Forest) :
    (f.modify id g).roots = f.roots.map fun n => if n.id = id then g n else n := by
  induction f with
  | nil => rfl
  | cons n cs rest _ ih => simp [modify, roots, ih]

theorem rows_modify (id : NodeId) (g : Node → Node) (f : Forest) :
    (f.modify id g).rows = f.rows.map (Row.relabel fun n => if n.id = id then g n else n) := by
  induction f with
  | nil => rfl
  | cons n cs rest ihc ihr => simp [modify, roots_modify, Row.relabel, ihc, ihr]

theorem size_modify (id : NodeId) (g : Node → Node) (f : Forest) :
    (f.modify id g).size = f.size := by
  induction f with
  | nil => rfl
  | cons n cs rest ihc ihr => rw [modify, size, size, ihc, ihr]

theorem tree?_modify {id : NodeId} {g : Node → Node} (hg : ∀ n, (g n).id = n.id) (f : Forest)
    (other : NodeId) :
    (f.modify id g).tree? other = (f.tree? other).map fun t =>
      ⟨if other = id then g t.node else t.node, t.children.modify id g⟩ := by
  induction f with
  | nil => rfl
  | cons n cs rest ihc ihr =>
    have hn : (if n.id = id then g n else n).id = n.id := by
      split
      · exact hg n
      · rfl
    rw [modify, tree?, tree?, hn]
    by_cases ho : n.id = other
    · rw [if_pos ho, if_pos ho, Option.map_some, ho]
    · rw [if_neg ho, if_neg ho, ihc, ihr, Option.map_or]

theorem nodes_of_relabelled {f f' : Forest} {g : Node → Node}
    (h : f'.rows = f.rows.map (Row.relabel g)) : f'.nodes = f.nodes.map g := by
  rw [← map_node_rows, h, List.map_map, ← map_node_rows, List.map_map]
  rfl

/-- Labels that keep the numbers of the nodes keep their order too. -/
theorem ids_of_relabelled {f f' : Forest} {g : Node → Node}
    (h : f'.rows = f.rows.map (Row.relabel g)) (hid : ∀ n, (g n).id = n.id) : f'.ids = f.ids := by
  rw [ids, nodes_of_relabelled h, List.map_map]
  exact List.map_congr_left fun n _ => hid n

end Forest

end MarkupTree
