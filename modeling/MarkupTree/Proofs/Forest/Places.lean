-- Where a node stands. The site of a node agrees with the table: its siblings
-- are the children of one row, the node of that row is its parent, and the
-- nodes above it are its parent and the nodes above that one.
import MarkupTree.Forest.Site
import MarkupTree.Proofs.Forest.Rows
import Mathlib.Data.List.Pairwise
import Mathlib.Logic.Relation

namespace MarkupTree

/-- The row of siblings in which the site stands, itself included. -/
def Site.siblings (s : Site) : List Node := s.before.reverse ++ s.node :: s.after.roots

namespace Forest

/-! ## Parent and child -/

/-- The table has `c` among the children of `p`. -/
def IsChild (f : Forest) (p c : NodeId) : Prop :=
  ∃ r ∈ f.rows, r.node.id = p ∧ c ∈ r.children.map (·.id)

/-- `b` is `a`, or stands somewhere below it. -/
def Below (f : Forest) : NodeId → NodeId → Prop := Relation.ReflTransGen f.IsChild

theorem ids_perm (f : Forest) :
    f.ids.Perm (f.roots.map (·.id) ++ f.rows.flatMap fun r => r.children.map (·.id)) := by
  have h := (nodes_perm f).map (·.id)
  rwa [List.map_append, List.map_flatMap] at h

theorem children_nodup {f : Forest} (hd : f.Distinct) {r : Row} (hr : r ∈ f.rows) :
    (r.children.map (·.id)).Nodup := by
  have h := (List.nodup_append'.mp ((ids_perm f).nodup_iff.mp hd)).2.1
  exact (List.nodup_flatMap.mp h).1 r hr

/-- A node is the child of one row only. -/
theorem row_of_child_unique {f : Forest} (hd : f.Distinct) {r s : Row} {c : NodeId}
    (hr : r ∈ f.rows) (hs : s ∈ f.rows) (hrc : c ∈ r.children.map (·.id))
    (hsc : c ∈ s.children.map (·.id)) : r = s := by
  by_contra hne
  have h := (List.nodup_append'.mp ((ids_perm f).nodup_iff.mp hd)).2.1
  have : Std.Symm (Function.onFun List.Disjoint fun r : Row => r.children.map (·.id)) :=
    ⟨fun _ _ h _ ha hb => h hb ha⟩
  exact (List.nodup_flatMap.mp h).2.forall hr hs hne hrc hsc

theorem isChild_unique {f : Forest} (hd : f.Distinct) {p q c : NodeId} (hp : f.IsChild p c)
    (hq : f.IsChild q c) : p = q := by
  obtain ⟨r, hr, rfl, hrc⟩ := hp
  obtain ⟨s, hs, rfl, hsc⟩ := hq
  rw [row_of_child_unique hd hr hs hrc hsc]

/-- The root of a tree is nobody's child. -/
theorem root_not_child {f : Forest} (hd : f.Distinct) {n : Node} {p : NodeId} (hn : n ∈ f.roots) :
    ¬ f.IsChild p n.id := by
  rintro ⟨r, hr, -, hc⟩
  have h := (List.nodup_append'.mp ((ids_perm f).nodup_iff.mp hd)).2.2
  exact h (List.mem_map_of_mem hn) (List.mem_flatMap.mpr ⟨r, hr, hc⟩)

theorem isChild_mem {f : Forest} {p c : NodeId} (h : f.IsChild p c) : p ∈ f.ids ∧ c ∈ f.ids := by
  obtain ⟨r, hr, rfl, hc⟩ := h
  obtain ⟨n, hn, rfl⟩ := List.mem_map.mp hc
  exact ⟨List.mem_map_of_mem (node_mem_nodes hr), List.mem_map_of_mem (child_mem_nodes hr hn)⟩

/-! ## What stands below a node -/

theorem below_of_mem_row {f g : Forest} {a : NodeId} (hsub : g.trees ⊆ f.subtrees)
    (hch : ∀ n ∈ g.roots, f.IsChild a n.id) {b : NodeId} (hb : b ∈ g.ids) : f.Below a b := by
  induction g generalizing a with
  | nil => cases hb
  | cons m ms rest ihc ihr =>
    have hm : (⟨m, ms⟩ : Tree) ∈ f.subtrees := hsub List.mem_cons_self
    have hstep : f.IsChild a m.id := hch m List.mem_cons_self
    rw [ids_cons, List.mem_cons, List.mem_append] at hb
    rcases hb with rfl | hb | hb
    · exact Relation.ReflTransGen.single hstep
    · refine Relation.ReflTransGen.head hstep (ihc ?_ ?_ hb)
      · intro u hu
        refine subtrees_subset hm (List.mem_cons_of_mem _ (List.mem_append_left _ ?_))
        exact trees_subset_subtrees ms hu
      · intro n hn
        exact ⟨⟨m, ms.roots⟩, List.mem_map_of_mem hm, rfl, List.mem_map_of_mem hn⟩
    · exact ihr (fun u hu => hsub (List.mem_cons_of_mem _ hu))
        (fun n hn => hch n (List.mem_cons_of_mem _ hn)) hb

/-- The nodes of a subtree are the nodes below its root. -/
theorem below_iff_mem_ids {f : Forest} (hd : f.Distinct) {t : Tree} (ht : t ∈ f.subtrees)
    {b : NodeId} : f.Below t.node.id b ↔ b ∈ t.ids := by
  constructor
  · intro h
    induction h with
    | refl => exact List.mem_cons_self
    | @tail b c _ hbc ih =>
      obtain ⟨r, hr, rfl, hc⟩ := hbc
      obtain ⟨u, hu, rfl⟩ := List.mem_map.mp hr
      rw [← ids_alone] at ih ⊢
      obtain ⟨v, hv⟩ := exists_tree?_of_mem_ids ih
      obtain ⟨hv, hvid⟩ := mem_subtrees_of_tree? hv
      have hvu : v.row = u.row := by
        apply row_unique hd (List.mem_map_of_mem (subtrees_subset ht hv)) hr
        exact hvid
      refine (ids_perm t.alone).symm.subset (List.mem_append_right _ ?_)
      exact List.mem_flatMap.mpr ⟨v.row, List.mem_map_of_mem hv, hvu ▸ hc⟩
  · intro h
    rcases List.mem_cons.mp h with rfl | h
    · exact Relation.ReflTransGen.refl
    · refine below_of_mem_row ?_ ?_ h
      · intro u hu
        refine subtrees_subset ht (List.mem_cons_of_mem _ (List.mem_append_left _ ?_))
        exact trees_subset_subtrees _ hu
      · intro n hn
        exact ⟨t.row, List.mem_map_of_mem ht, rfl, List.mem_map_of_mem hn⟩

/-! ## Sites -/

theorem map_tree_site? (f : Forest) (id : NodeId) (ancestors before : List Node) :
    (f.site? id ancestors before).map Site.tree = f.tree? id := by
  induction f generalizing ancestors before with
  | nil => rfl
  | cons n cs rest ihc ihr =>
    unfold site? tree?
    by_cases hn : n.id = id
    · rw [if_pos hn, if_pos hn]
      rfl
    · rw [if_neg hn, if_neg hn, Option.map_or, ihc, ihr]

theorem map_tree_siteAmong? (f : Forest) (id : NodeId) :
    (f.siteAmong? id).map Site.tree = f.tree? id := by
  induction f with
  | nil => rfl
  | cons n cs rest _ ihr =>
    unfold siteAmong? tree?
    by_cases hn : n.id = id
    · rw [if_pos hn, if_pos hn]
      rfl
    · rw [if_neg hn, if_neg hn, Option.map_or, map_tree_site?, ihr]

theorem site?_eq_none_iff {f : Forest} {id : NodeId} {ancestors before : List Node} :
    f.site? id ancestors before = none ↔ id ∉ f.ids := by
  rw [← tree?_eq_none_iff, ← map_tree_site? f id ancestors before, Option.map_eq_none_iff]

theorem site?_none {f : Forest} {id : NodeId} {ancestors before : List Node} (h : id ∉ f.ids) :
    f.site? id ancestors before = none := site?_eq_none_iff.mpr h

theorem siteAmong?_append (f g : Forest) (id : NodeId) :
    (f.append g).siteAmong? id = (f.siteAmong? id).or (g.siteAmong? id) := by
  induction f with
  | nil => rfl
  | cons n cs rest _ ih =>
    rw [append, siteAmong?, siteAmong?]
    split
    · rfl
    · rw [ih, Option.or_assoc]

theorem mem_ids_of_site? {f : Forest} {s : Site} {id : NodeId} {ancestors before : List Node}
    (h : f.site? id ancestors before = some s) : id ∈ f.ids := by
  by_contra hn
  rw [site?_none hn] at h
  cases h

/-- A site that is looked up is at the top of what is written. -/
theorem depth_of_site? {f : Forest} {s : Site} {id : NodeId} {ancestors before : List Node}
    (h : f.site? id ancestors before = some s) : s.depth = 0 := by
  induction f generalizing ancestors before with
  | nil => cases h
  | cons n cs rest ihc ihr =>
    unfold site? at h
    split at h
    · cases h
      rfl
    · rcases Option.or_eq_some_iff.mp h with h | ⟨-, h⟩
      · exact ihc h
      · exact ihr h

theorem depth_of_siteAmong? {f : Forest} {s : Site} {id : NodeId}
    (h : f.siteAmong? id = some s) : s.depth = 0 := by
  induction f with
  | nil => cases h
  | cons n cs rest _ ihr =>
    unfold siteAmong? at h
    split at h
    · cases h
      rfl
    · rcases Option.or_eq_some_iff.mp h with h | ⟨-, h⟩
      · exact depth_of_site? h
      · exact ihr h

/-- A site stands in the row that it was looked for in, or among the children
of its parent. -/
theorem siblings_of_site? {f : Forest} {id : NodeId} {ancestors before : List Node} {s : Site}
    (h : f.site? id ancestors before = some s) :
    (s.ancestors = ancestors ∧ s.siblings = before.reverse ++ f.roots) ∨
      ∃ r ∈ f.rows, s.parent? = some r.node ∧ r.children = s.siblings := by
  induction f generalizing ancestors before with
  | nil => cases h
  | cons n cs rest ihc ihr =>
    unfold site? at h
    by_cases hn : n.id = id
    · rw [if_pos hn] at h
      cases h
      exact Or.inl ⟨rfl, rfl⟩
    · rw [if_neg hn] at h
      rcases Option.or_eq_some_iff.mp h with h | ⟨-, h⟩
      · apply Or.inr
        rcases ihc h with ⟨ha, hs⟩ | ⟨r, hr, hp⟩
        · refine ⟨⟨n, cs.roots⟩, by simp, ?_, ?_⟩
          · rw [Site.parent?, ha]
            rfl
          · rw [hs]
            rfl
        · exact ⟨r, by simp [hr], hp⟩
      · rcases ihr h with ⟨ha, hs⟩ | ⟨r, hr, hp⟩
        · exact Or.inl ⟨ha, by simpa [roots] using hs⟩
        · exact Or.inr ⟨r, by simp [hr], hp⟩

theorem siblings_of_siteAmong? {f : Forest} {id : NodeId} {s : Site}
    (h : f.siteAmong? id = some s) :
    (s.ancestors = [] ∧ s.siblings = [s.node] ∧ s.node ∈ f.roots) ∨
      ∃ r ∈ f.rows, s.parent? = some r.node ∧ r.children = s.siblings := by
  induction f with
  | nil => cases h
  | cons n cs rest _ ihr =>
    unfold siteAmong? at h
    by_cases hn : n.id = id
    · rw [if_pos hn] at h
      cases h
      exact Or.inl ⟨rfl, rfl, List.mem_cons_self⟩
    · rw [if_neg hn] at h
      rcases Option.or_eq_some_iff.mp h with h | ⟨-, h⟩
      · apply Or.inr
        rcases siblings_of_site? h with ⟨ha, hs⟩ | ⟨r, hr, hp⟩
        · refine ⟨⟨n, cs.roots⟩, by simp, ?_, ?_⟩
          · rw [Site.parent?, ha]
            rfl
          · rw [hs]
            rfl
        · exact ⟨r, by simp [hr], hp⟩
      · rcases ihr h with ⟨ha, hs, hm⟩ | ⟨r, hr, hp⟩
        · exact Or.inl ⟨ha, hs, List.mem_cons_of_mem _ hm⟩
        · exact Or.inr ⟨r, by simp [hr], hp⟩

/-- The nodes above a site are its parent and the nodes above the parent. -/
theorem ancestors_of_site? {f : Forest} (hd : f.Distinct) {id : NodeId}
    {ancestors before : List Node} {s : Site} (h : f.site? id ancestors before = some s) :
    s.ancestors = ancestors ∨
      ∃ u, f.site? u.node.id ancestors before = some u ∧ s.ancestors = u.node :: u.ancestors := by
  induction f generalizing ancestors before with
  | nil => cases h
  | cons n cs rest ihc ihr =>
    obtain ⟨hnc, hnr, hdc, hdr, hdisj⟩ := distinct_cons.mp hd
    unfold site? at h ⊢
    by_cases hn : n.id = id
    · rw [if_pos hn] at h
      cases h
      exact Or.inl rfl
    · rw [if_neg hn] at h
      rcases Option.or_eq_some_iff.mp h with h | ⟨-, h⟩
      · apply Or.inr
        rcases ihc hdc h with ha | ⟨u, hu, ha⟩
        · exact ⟨{ node := n, children := cs, ancestors, before, after := rest },
            by rw [if_pos rfl], ha⟩
        · have hne : n.id ≠ u.node.id := fun he => hnc (he ▸ mem_ids_of_site? hu)
          exact ⟨u, by rw [if_neg hne, hu, Option.some_or], ha⟩
      · rcases ihr hdr h with ha | ⟨u, hu, ha⟩
        · exact Or.inl ha
        · have hmem := mem_ids_of_site? hu
          have hne : n.id ≠ u.node.id := fun he => hnr (he ▸ hmem)
          have hnot : u.node.id ∉ cs.ids := fun hm => hdisj hm hmem
          exact Or.inr ⟨u, by rw [if_neg hne, site?_none hnot, Option.none_or, hu], ha⟩

theorem ancestors_of_siteAmong? {f : Forest} (hd : f.Distinct) {id : NodeId} {s : Site}
    (h : f.siteAmong? id = some s) :
    s.ancestors = [] ∨
      ∃ u, f.siteAmong? u.node.id = some u ∧ s.ancestors = u.node :: u.ancestors := by
  induction f with
  | nil => cases h
  | cons n cs rest _ ihr =>
    obtain ⟨hnc, hnr, hdc, hdr, hdisj⟩ := distinct_cons.mp hd
    unfold siteAmong? at h ⊢
    by_cases hn : n.id = id
    · rw [if_pos hn] at h
      cases h
      exact Or.inl rfl
    · rw [if_neg hn] at h
      rcases Option.or_eq_some_iff.mp h with h | ⟨-, h⟩
      · apply Or.inr
        rcases ancestors_of_site? hdc h with ha | ⟨u, hu, ha⟩
        · exact ⟨{ node := n, children := cs }, by rw [if_pos rfl], ha⟩
        · have hne : n.id ≠ u.node.id := fun he => hnc (he ▸ mem_ids_of_site? hu)
          exact ⟨u, by rw [if_neg hne, hu, Option.some_or], ha⟩
      · rcases ihr hdr h with ha | ⟨u, hu, ha⟩
        · exact Or.inl ha
        · have hmem : u.node.id ∈ rest.ids := by
            apply mem_ids_of_tree? (t := u.tree)
            rw [← map_tree_siteAmong?, hu]
            rfl
          have hne : n.id ≠ u.node.id := fun he => hnr (he ▸ hmem)
          have hnot : u.node.id ∉ cs.ids := fun hm => hdisj hm hmem
          exact Or.inr ⟨u, by rw [if_neg hne, site?_none hnot, Option.none_or, hu], ha⟩

end Forest

end MarkupTree
