-- The sites of a document. Each node has one, with its own subtree, and above
-- a child stand its parent and the nodes above the parent.
import MarkupTree.Proofs.Document.Views

namespace MarkupTree

namespace Document

variable {d : Document}

theorem exists_site? {id : NodeId} {t : Tree} (ht : d.tree? id = some t) :
    ∃ s, d.site? id = some s ∧ s.tree = t := by
  unfold tree? at ht
  rw [← Forest.map_tree_siteAmong?] at ht
  exact Option.map_eq_some_iff.mp ht

theorem exists_site?_of_mem {id : NodeId} (h : id ∈ d.trees.ids) : ∃ s, d.site? id = some s :=
  Option.ne_none_iff_exists'.mp (mt site?_eq_none_iff.mp (not_not_intro h))

theorem site?_of_mem_subtrees (hd : d.trees.Distinct) {t : Tree} (ht : t ∈ d.trees.subtrees) :
    ∃ s, d.site? t.node.id = some s ∧ s.tree = t :=
  exists_site? (Forest.tree?_of_mem_subtrees hd ht)

theorem node?_of_site? {id : NodeId} {s : Site} (hs : d.site? id = some s) :
    d.node? id = some s.node := by
  rw [node?, tree?_of_site? hs]
  rfl

theorem exists_site?_of_node? {id : NodeId} {n : Node} (hn : d.node? id = some n) :
    ∃ s, d.site? id = some s ∧ s.node = n := by
  obtain ⟨t, ht, rfl⟩ := Option.map_eq_some_iff.mp hn
  obtain ⟨s, hs, rfl⟩ := exists_site? ht
  exact ⟨s, hs, rfl⟩

theorem ancestors_of_parentless {id : NodeId} {s : Site} (hs : d.site? id = some s)
    (hp : d.parent? id = none) : s.ancestors = [] := by
  rwa [parent?_eq_map hs, Option.map_eq_none_iff, List.head?_eq_none_iff] at hp

theorem ancestors_of_child (hd : d.trees.Distinct) {p c : NodeId} {s u : Site}
    (hs : d.site? c = some s) (hu : d.site? p = some u) (hp : d.parent? c = some p) :
    s.ancestors = u.node :: u.ancestors := by
  rw [parent?_eq_map hs] at hp
  rcases Forest.ancestors_of_siteAmong? hd hs with ha | ⟨v, hv, ha⟩
  · simp [ha] at hp
  · simp only [ha, List.head?_cons, Option.map_some, Option.some.injEq] at hp
    rw [hp] at hv
    have huv : some u = some v := hu.symm.trans hv
    cases huv
    exact ha

end Document

end MarkupTree
