-- Normalising, told by the lists of children. Under the root each run of
-- texts becomes its first text, the others of the run become trees of their
-- own, and nothing else happens.
import MarkupTree.Proofs.Document.Sessions

namespace MarkupTree

namespace Document

/-- The children of a node with their labels. -/
def childNodes (d : Document) (id : NodeId) : List Node :=
  match d.tree? id with
  | some t => t.children.roots
  | none => []

variable {d : Document}

/-! ## Children with their labels -/

theorem map_id_childNodes (d : Document) (id : NodeId) :
    (d.childNodes id).map (·.id) = d.children id := by
  unfold childNodes children
  cases d.tree? id <;> rfl

theorem childNodes_of_mem_rows (hd : d.trees.Distinct) {r : Row} (hr : r ∈ d.trees.rows) :
    d.childNodes r.node.id = r.children := by
  obtain ⟨t, ht, htr⟩ := (Forest.mem_rows_iff hd).mp hr
  unfold childNodes tree?
  rw [ht, ← htr]
  rfl

theorem row_of_mem_childNodes {p : NodeId} {n : Node} (h : n ∈ d.childNodes p) :
    ∃ r ∈ d.trees.rows, r.node.id = p ∧ n ∈ r.children := by
  rcases ht : d.tree? p with _ | t
  · simp [childNodes, ht] at h
  · obtain ⟨hm, hid⟩ := Forest.mem_subtrees_of_tree? ht
    rw [childNodes, ht] at h
    exact ⟨t.row, List.mem_map_of_mem hm, hid, h⟩

theorem mem_nodes_of_mem_childNodes {p : NodeId} {n : Node} (h : n ∈ d.childNodes p) :
    n ∈ d.trees.nodes := by
  obtain ⟨r, hr, -, hn⟩ := row_of_mem_childNodes h
  exact Forest.child_mem_nodes hr hn

/-- A text holds nothing. -/
theorem Sound.leaf (h : Sound d) : d.trees.AreLeaves Node.isText := by
  refine h.areLeaves fun n hn k => ?_
  rw [show n.kind = .text from beq_iff_eq.mp hn]
  simp [Kind.canContain]

theorem Sound.leaf_body (h : Sound d) {root : Node} {body rest : Forest}
    (ht : d.trees = .cons root body rest) : body.AreLeaves Node.isText :=
  (Forest.areLeaves_cons (ht ▸ h.leaf)).2.1

/-! ## What becomes of the lists of children -/

/-- Under the root, each list of children is merged. -/
theorem childNodes_normalize (h : Sound d) {p : NodeId} (hp : d.Below rootId p) :
    d.normalize.childNodes p = Siblings.merged (d.childNodes p) := by
  obtain ⟨root, body, rest, ht, hid⟩ := h.exists_root
  have hd := h.distinct
  have hd' := (sound_normalize h).distinct
  have hrows := congrArg Forest.rows (trees_normalize ht)
  rw [Forest.rows_cons, Forest.rows_append] at hrows
  rcases (below_root_iff ht hd hid).mp hp with rfl | hp
  · have hr : (⟨root, body.roots⟩ : Row) ∈ d.trees.rows := by simp [ht]
    have hs : (⟨root, (body.kept false).roots⟩ : Row) ∈ d.normalize.trees.rows := by simp [hrows]
    have hold := childNodes_of_mem_rows hd hr
    have hnew := childNodes_of_mem_rows hd' hs
    rw [hold, hnew, Forest.roots_kept]
    rfl
  · have hmem := (Forest.ids_kept_absorbed false body).symm.subset hp
    rw [List.mem_append, ← Forest.map_id_rows, ← Forest.map_id_rows, List.mem_map,
      List.mem_map] at hmem
    rcases hmem with ⟨s, hs, rfl⟩ | ⟨s, hs, rfl⟩
    · obtain ⟨r, hr, hrid, -, -, hc⟩ := Forest.row_of_kept hs
      have hold := childNodes_of_mem_rows hd (r := r) (by simp [ht, hr])
      rw [childNodes_of_mem_rows hd' (by simp [hrows, hs]), ← hrid, hold, hc]
    · -- an absorbed text has no children before and after
      have hb : s ∈ body.rows := List.map_subset _ (Forest.subtrees_absorbed false body) hs
      have hold : s ∈ d.trees.rows := by simp [ht, hb]
      have htext := Forest.isText_of_absorbed (h.leaf_body ht) hs
      rw [childNodes_of_mem_rows hd' (by simp [hrows, hs]), childNodes_of_mem_rows hd hold,
        h.leaf s hold htext]
      rfl

/-- What does not stand under the root stays. -/
theorem tree?_normalize (h : Sound d) {id : NodeId} (hout : ¬ d.Below rootId id) :
    d.normalize.tree? id = d.tree? id := by
  obtain ⟨root, body, rest, ht, hid⟩ := h.exists_root
  rw [below_root_iff ht h.distinct hid, not_or] at hout
  unfold tree?
  by_cases hm : id ∈ d.trees.ids
  · obtain ⟨t, htree⟩ := Forest.exists_tree?_of_mem_ids hm
    obtain ⟨hsub, rfl⟩ := Forest.mem_subtrees_of_tree? htree
    rw [htree]
    apply Forest.tree?_of_mem_subtrees (sound_normalize h).distinct
    rw [ht, Forest.subtrees, List.mem_cons, List.mem_append] at hsub
    rcases hsub with rfl | hsub | hsub
    · exact absurd rfl hout.1
    · exact absurd (Forest.mem_ids_of_mem_subtrees hsub) hout.2
    · rw [trees_normalize ht, Forest.subtrees, Forest.subtrees_append]
      simp [hsub]
  · have hm' : id ∉ d.normalize.trees.ids := fun hn => hm ((ids_normalize ht).subset hn)
    rw [Forest.tree?_eq_none_iff.mpr hm, Forest.tree?_eq_none_iff.mpr hm']

theorem childNodes_normalize_outside (h : Sound d) {id : NodeId} (hout : ¬ d.Below rootId id) :
    d.normalize.childNodes id = d.childNodes id := by
  unfold childNodes
  rw [tree?_normalize h hout]

theorem children_normalize_outside (h : Sound d) {id : NodeId} (hout : ¬ d.Below rootId id) :
    d.normalize.children id = d.children id := by
  rw [← map_id_childNodes, childNodes_normalize_outside h hout, map_id_childNodes]

/-- No node gets a new parent. -/
theorem children_normalize_subset (h : Sound d) (p : NodeId) :
    d.normalize.children p ⊆ d.children p := by
  by_cases hp : d.Below rootId p
  · rw [← map_id_childNodes, ← map_id_childNodes, childNodes_normalize h hp]
    intro c hc
    obtain ⟨x, hx, rfl⟩ := List.mem_map.mp hc
    obtain ⟨y, hy, hid, -⟩ := Siblings.mem_merged hx
    exact List.mem_map.mpr ⟨y, hy, hid⟩
  · rw [children_normalize_outside h hp]
    exact List.Subset.refl _

theorem mem_childNodes_normalize (h : Sound d) {p : NodeId} {n : Node} (hn : n ∈ d.childNodes p)
    (ht : n.isText = false) : n ∈ d.normalize.childNodes p := by
  by_cases hp : d.Below rootId p
  · rw [childNodes_normalize h hp]
    exact Siblings.mem_merged_of_other hn ht
  · rwa [childNodes_normalize_outside h hp]

/-- A node keeps its parent if the parent keeps it. -/
theorem parent?_normalize (h : Sound d) {c : NodeId}
    (hkeep : ∀ p, c ∈ d.children p → c ∈ d.normalize.children p) :
    d.normalize.parent? c = d.parent? c := by
  ext p
  rw [parent?_eq_some_iff h.distinct, parent?_eq_some_iff (sound_normalize h).distinct]
  exact ⟨fun hc => children_normalize_subset h p hc, hkeep p⟩

/-- A node that is no text stays in its place. -/
theorem node?_normalize_other (h : Sound d) {id : NodeId} {n : Node} (hn : d.node? id = some n)
    (ht : n.isText = false) : d.normalize.node? id = some n := by
  obtain ⟨hm, rfl⟩ := (node?_eq_some_iff h.distinct).mp hn
  obtain ⟨root, body, rest, hroot, -⟩ := h.exists_root
  refine (node?_eq_some_iff (sound_normalize h).distinct).mpr ⟨?_, rfl⟩
  rcases List.mem_append.mp ((Forest.nodes_perm _).subset hm) with hm | hm
  · apply Forest.roots_subset_nodes _
    rw [hroot, Forest.roots, List.mem_cons] at hm
    rw [trees_normalize hroot, Forest.roots, Forest.roots_append, List.mem_cons, List.mem_append]
    tauto
  · obtain ⟨r, hr, hn⟩ := List.mem_flatMap.mp hm
    rw [← childNodes_of_mem_rows h.distinct hr] at hn
    exact mem_nodes_of_mem_childNodes (mem_childNodes_normalize h hn ht)

theorem parent?_normalize_other (h : Sound d) {id : NodeId} {n : Node} (hn : d.node? id = some n)
    (ht : n.isText = false) : d.normalize.parent? id = d.parent? id := by
  obtain ⟨hm, rfl⟩ := (node?_eq_some_iff h.distinct).mp hn
  refine parent?_normalize h fun p hp => ?_
  rw [← map_id_childNodes] at hp ⊢
  obtain ⟨x, hx, hid⟩ := List.mem_map.mp hp
  have hxn : d.node? n.id = some x :=
    (node?_eq_some_iff h.distinct).mpr ⟨mem_nodes_of_mem_childNodes hx, hid⟩
  rw [hn, Option.some.injEq] at hxn
  subst hxn
  exact List.mem_map_of_mem (mem_childNodes_normalize h hx ht)

/-- A node that is no text keeps its label and the nodes above it. What stands
below it is merged, or stays if the node does not stand under the root. -/
theorem site?_normalize (h : Sound d) {id : NodeId} {s : Site} (hs : d.site? id = some s)
    (ht : s.node.isText = false) :
    ∃ u, d.normalize.site? id = some u ∧ u.node = s.node ∧ u.ancestors = s.ancestors ∧
      (u.children = s.children.mergeTexts ∨ u.children = s.children) := by
  obtain ⟨root, body, rest, htrees, -⟩ := h.exists_root
  unfold site? at hs ⊢
  rw [trees_normalize htrees, Forest.siteAmong?]
  rw [htrees, Forest.siteAmong?] at hs
  by_cases hr : root.id = id
  · rw [if_pos hr] at hs ⊢
    cases hs
    exact ⟨_, rfl, rfl, rfl, Or.inl rfl⟩
  · rw [if_neg hr] at hs ⊢
    rcases Option.or_eq_some_iff.mp hs with hs | ⟨hnone, hs⟩
    · obtain ⟨u, hu, hnode, hancestors, hchildren⟩ :=
        Forest.site?_kept (h.leaf_body htrees) hs ht false []
      rw [hu]
      exact ⟨u, rfl, hnode, hancestors, Or.inl hchildren⟩
    · have hkept : id ∉ (body.kept false).ids := fun hi =>
        Forest.site?_eq_none_iff.mp hnone (Forest.kept_ids_subset false body hi)
      rw [Forest.site?_none hkept, Option.none_or, Forest.siteAmong?_append, hs]
      exact ⟨s, rfl, rfl, rfl, Or.inr rfl⟩

/-- The later texts of a run become trees of their own. -/
theorem absorbed_normalize (h : Sound d) {p : NodeId} (hp : d.Below rootId p)
    {xs ys : List Node} {m n : Node} (hsplit : d.childNodes p = xs ++ m :: n :: ys)
    (hm : m.isText = true) (hn : n.isText = true) :
    d.normalize.node? n.id = some n ∧ d.normalize.parent? n.id = none ∧
      d.normalize.children n.id = [] := by
  obtain ⟨root, body, rest, ht, hid⟩ := h.exists_root
  have h' := sound_normalize h
  have habs := Siblings.mem_absorbed false hsplit hm hn
  have hroot : n ∈ d.normalize.trees.roots := by
    rw [trees_normalize ht, Forest.roots, Forest.roots_append, List.mem_cons, List.mem_append]
    refine Or.inr (Or.inr (Forest.mem_roots_absorbed (h.leaf_body ht) false ?_))
    rcases (below_root_iff ht h.distinct hid).mp hp with rfl | hp
    · have hr : (⟨root, body.roots⟩ : Row) ∈ d.trees.rows := by simp [ht]
      have hold := childNodes_of_mem_rows h.distinct hr
      rw [hold] at habs
      exact Or.inl habs
    · rw [← Forest.map_id_rows] at hp
      obtain ⟨r, hr, rfl⟩ := List.mem_map.mp hp
      rw [childNodes_of_mem_rows h.distinct (by simp [ht, hr])] at habs
      exact Or.inr ⟨r, hr, habs⟩
  have hnode := Forest.roots_subset_nodes _ hroot
  refine ⟨node?_of_mem_nodes h'.distinct hnode, ?_, ?_⟩
  · rw [parent?_eq_none_iff h'.distinct]
    intro q hq
    rw [mem_children_iff h'.distinct] at hq
    exact Forest.root_not_child h'.distinct hroot hq
  · rw [← Forest.map_node_rows] at hnode
    obtain ⟨r, hr, rfl⟩ := List.mem_map.mp hnode
    rw [children_of_mem_rows h'.distinct hr, h'.leaf r hr hn]
    rfl

theorem below_of_normalize (h : Sound d) {p : NodeId} (hp : d.normalize.Below rootId p) :
    d.Below rootId p :=
  Relation.ReflTransGen.mono (fun q _ hc => children_normalize_subset h q hc) _ _ hp

/-- No two neighbours under the root are texts any more. -/
theorem calm_normalize (h : Sound d) {p : NodeId} (hp : d.normalize.Below rootId p) :
    Siblings.Calm (d.normalize.childNodes p) := by
  rw [childNodes_normalize h (below_of_normalize h hp)]
  exact Siblings.calm_merged _

theorem normalize_normalize (h : Sound d) : d.normalize.normalize = d.normalize := by
  obtain ⟨root, body, rest, ht, -⟩ := h.exists_root
  obtain ⟨hroots, hrows⟩ := Forest.calm_kept false body
  obtain ⟨hk, ha⟩ := Forest.kept_of_calm false hroots hrows (by simp)
  have ht' := trees_normalize ht
  have ht'' := trees_normalize ht'
  rw [hk, ha, Forest.append_nil, ← ht'] at ht''
  exact congrArg Document.mk ht''

end Document

end MarkupTree
