-- Normalising a document, told by its table: the rows under the root are
-- merged, and the other rows stay. So a sound document stays sound.
import MarkupTree.Proofs.Document.Sound
import MarkupTree.Proofs.Forest.Merging

namespace MarkupTree

namespace Document

variable {d : Document}

theorem Grounded.exists_root (h : Grounded d) :
    ∃ root body rest, d.trees = .cons root body rest ∧ root.id = rootId := by
  obtain ⟨root, hroot, hid⟩ := h.rooted
  rcases ht : d.trees with _ | ⟨n, body, rest⟩
  · rw [ht] at hroot
    cases hroot
  · rw [ht] at hroot
    cases hroot
    exact ⟨_, body, rest, rfl, hid⟩

theorem Sound.exists_root (h : Sound d) :
    ∃ root body rest, d.trees = .cons root body rest ∧ root.id = rootId := h.grounded.exists_root

section

variable {root : Node} {body rest : Forest} (ht : d.trees = .cons root body rest)

include ht

theorem trees_normalize :
    d.normalize.trees = .cons root (body.kept false) (rest.append (body.absorbed false)) := by
  obtain ⟨trees⟩ := d
  subst ht
  rfl

theorem ids_normalize : d.normalize.trees.ids.Perm d.trees.ids := by
  rw [trees_normalize ht, ht, Forest.ids_cons, Forest.ids_cons, Forest.ids_append]
  refine List.Perm.cons _ (List.Perm.trans ?_ ((Forest.ids_kept_absorbed false body).append_right _))
  rw [List.append_assoc]
  exact (List.perm_append_comm).append_left _

theorem nodeCount_normalize : d.normalize.nodeCount = d.nodeCount :=
  nodeCount_of_perm (ids_normalize ht)

/-- The rows of the normalised document: the rows under the root are merged,
and those of other trees and of absorbed texts stay. -/
theorem row_of_normalize {s : Row} (hs : s ∈ d.normalize.trees.rows) :
    s ∈ d.trees.rows ∨
      ∃ r ∈ d.trees.rows, r.node.id = s.node.id ∧ r.node.kind = s.node.kind ∧
        s.children = Siblings.merged r.children ∧ (r.node.isText = false → r.node = s.node) := by
  rw [trees_normalize ht, Forest.rows_cons, Forest.rows_append] at hs
  simp only [List.mem_cons, List.mem_append] at hs
  rw [ht, Forest.rows_cons]
  rcases hs with rfl | hs | hs | hs
  · exact Or.inr ⟨⟨root, body.roots⟩, by simp, rfl, rfl, Forest.roots_kept false body,
      fun _ => rfl⟩
  · obtain ⟨r, hr, hid, hk, hother, hc⟩ := Forest.row_of_kept hs
    exact Or.inr ⟨r, by simp [hr], hid, hk, hc, hother⟩
  · exact Or.inl (by simp [hs])
  · apply Or.inl
    have hb : s ∈ body.rows := List.map_subset _ (Forest.subtrees_absorbed false body) hs
    simp [hb]

/-- Normalising makes no node, and none of another kind. -/
theorem node_of_normalize {n : Node} (hn : n ∈ d.normalize.trees.nodes) :
    ∃ m ∈ d.trees.nodes, m.id = n.id ∧ m.kind = n.kind := by
  rw [← Forest.map_node_rows] at hn ⊢
  obtain ⟨s, hs, rfl⟩ := List.mem_map.mp hn
  rcases row_of_normalize ht hs with hs | ⟨r, hr, hrid, hrk, -⟩
  · exact ⟨s.node, List.mem_map_of_mem hs, rfl, rfl⟩
  · exact ⟨r.node, List.mem_map_of_mem hr, hrid, hrk⟩

/-- Normalising changes no label but that of a text with texts after it. -/
theorem mem_nodes_normalize {n' : Node} (hn : n' ∈ d.normalize.trees.nodes) :
    ∃ n ∈ d.trees.nodes, n' = n ∨ ∃ r ∈ d.trees.rows, Siblings.Extends r.children n n' := by
  rw [trees_normalize ht, Forest.nodes, Forest.nodes_append] at hn
  simp only [List.mem_cons, List.mem_append] at hn
  rw [ht, Forest.nodes, Forest.rows_cons]
  rcases hn with rfl | hn | hn | hn
  · exact ⟨n', by simp, Or.inl rfl⟩
  · obtain ⟨n, hm, h⟩ := Forest.node_of_kept hn
    refine ⟨n, by simp [hm], h.imp_right ?_⟩
    rintro (hx | ⟨r, hr, hx⟩)
    · exact ⟨⟨root, body.roots⟩, by simp, hx⟩
    · exact ⟨r, by simp [hr], hx⟩
  · exact ⟨n', by simp [hn], Or.inl rfl⟩
  · have hb : n' ∈ body.nodes := by
      rw [← Forest.map_node_rows] at hn ⊢
      exact List.map_subset _ (List.map_subset _ (Forest.subtrees_absorbed false body)) hn
    exact ⟨n', by simp [hb], Or.inl rfl⟩

theorem below_root_iff (hd : d.trees.Distinct) (hid : root.id = rootId) {p : NodeId} :
    d.Below rootId p ↔ p = root.id ∨ p ∈ body.ids := by
  have hmem : (⟨root, body⟩ : Tree) ∈ d.trees.subtrees := by
    rw [ht]
    exact List.mem_cons_self
  rw [below_iff hd, ← hid]
  exact (Forest.below_iff_mem_ids hd hmem).trans List.mem_cons

end

theorem grounded_normalize (h : Grounded d) : Grounded d.normalize := by
  obtain ⟨root, body, rest, ht, hid⟩ := h.exists_root
  refine ⟨?_, root, ?_, hid⟩
  · rw [nodeCount_normalize ht]
    exact (ids_normalize ht).trans h.numbered
  · rw [trees_normalize ht]
    rfl

/-- Normalising keeps a document sound. -/
theorem sound_normalize (h : Sound d) : Sound d.normalize := by
  obtain ⟨root, body, rest, ht, hid⟩ := h.exists_root
  obtain ⟨root', hroot, -, hk⟩ := h.rooted
  rw [ht] at hroot
  cases hroot
  refine ⟨(grounded_normalize h.grounded).numbered, ⟨root, ?_, hid, hk⟩, ?_, ?_⟩
  · rw [trees_normalize ht]
    rfl
  · intro n hn hnk
    obtain ⟨m, hm, hmid, hmk⟩ := node_of_normalize ht hn
    rw [← hmid]
    exact h.one_document m hm (hmk.trans hnk)
  · intro s hs x hx
    rcases row_of_normalize ht hs with hs | ⟨r, hr, -, hrk, hc, -⟩
    · exact h.fits s hs x hx
    · rw [hc] at hx
      obtain ⟨y, hy, -, hyk, -⟩ := Siblings.mem_merged hx
      rw [← hrk, ← hyk]
      exact h.fits r hr y hy

end Document

end MarkupTree
