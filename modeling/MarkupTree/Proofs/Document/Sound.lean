-- The invariant of documents, and what each edit does to a document that has
-- it. A sound document numbers its nodes from zero without gaps or repeats,
-- starts with its root, and holds nothing where it does not fit.
import MarkupTree.Proofs.Document.Moves
import MarkupTree.Proofs.Node.Changes

namespace MarkupTree

namespace Document

/-! ## The invariant -/

structure Sound (d : Document) : Prop where
  /-- The numbers in use are those below the number of nodes, each once. -/
  numbered : d.trees.ids.Perm (List.range d.nodeCount)
  rooted : ∃ root, d.trees.first? = some root ∧ root.id = rootId ∧ root.kind = .document
  one_document : ∀ n ∈ d.trees.nodes, n.kind = .document → n.id = rootId
  fits : ∀ r ∈ d.trees.rows, ∀ c ∈ r.children, r.node.kind.canContain c.kind = true

/-- What the moves of a document rest on, whatever stands in what. -/
structure Grounded (d : Document) : Prop where
  numbered : d.trees.ids.Perm (List.range d.nodeCount)
  rooted : ∃ root, d.trees.first? = some root ∧ root.id = rootId

variable {d d' : Document}

theorem Grounded.distinct (h : Grounded d) : d.trees.Distinct :=
  h.numbered.nodup_iff.mpr List.nodup_range

namespace Sound

theorem grounded (h : Sound d) : Grounded d := by
  obtain ⟨root, hroot, hid, -⟩ := h.rooted
  exact ⟨h.numbered, root, hroot, hid⟩

theorem distinct (h : Sound d) : d.trees.Distinct := h.grounded.distinct

theorem mem_ids_iff (h : Sound d) {id : NodeId} : id ∈ d.trees.ids ↔ id < d.nodeCount := by
  rw [h.numbered.mem_iff, List.mem_range]

theorem contains_iff (h : Sound d) {id : NodeId} : d.contains id = true ↔ id < d.nodeCount := by
  rw [Document.contains_iff, h.mem_ids_iff]

theorem root_mem (h : Sound d) : rootId ∈ d.trees.ids := by
  obtain ⟨root, hroot, hid, -⟩ := h.rooted
  rw [Forest.first?_eq] at hroot
  rw [← hid]
  exact List.mem_map_of_mem (Forest.roots_subset_nodes _ (List.mem_of_mem_head? hroot))

theorem root_not_child (h : Sound d) (p : NodeId) : rootId ∉ d.children p := by
  obtain ⟨root, hroot, hid, -⟩ := h.rooted
  rw [Forest.first?_eq] at hroot
  rw [mem_children_iff h.distinct, ← hid]
  exact Forest.root_not_child h.distinct (List.mem_of_mem_head? hroot)

/-- The root is the one node of kind document. -/
theorem document_iff (h : Sound d) {id : NodeId} {n : Node} (hn : d.node? id = some n) :
    n.kind = .document ↔ id = rootId := by
  obtain ⟨hm, hid⟩ := (node?_eq_some_iff h.distinct).mp hn
  constructor
  · intro hk
    rw [← hid, h.one_document n hm hk]
  · intro hr
    obtain ⟨root, hroot, hrid, hk⟩ := h.rooted
    rw [Forest.first?_eq] at hroot
    have hroot' : d.node? rootId = some root := (node?_eq_some_iff h.distinct).mpr
      ⟨Forest.roots_subset_nodes _ (List.mem_of_mem_head? hroot), hrid⟩
    rw [hr, hroot', Option.some.injEq] at hn
    rw [← hn, hk]

/-- A child fits into its parent. -/
theorem fits_of_child (h : Sound d) {p c : NodeId} {m n : Node} (hp : d.node? p = some m)
    (hc : d.node? c = some n) (hpc : c ∈ d.children p) : m.kind.canContain n.kind = true := by
  obtain ⟨r, hr, rfl, hrc⟩ := (mem_children_iff h.distinct).mp hpc
  obtain ⟨x, hx, rfl⟩ := List.mem_map.mp hrc
  rw [node?_of_mem_nodes h.distinct (Forest.node_mem_nodes hr), Option.some.injEq] at hp
  rw [node?_of_mem_nodes h.distinct (Forest.child_mem_nodes hr hx), Option.some.injEq] at hc
  rw [← hp, ← hc]
  exact h.fits r hr x hx

/-- Nodes that cannot contain anything have no children. -/
theorem areLeaves (h : Sound d) {p : Node → Bool}
    (hp : ∀ n, p n = true → ∀ k, n.kind.canContain k = false) : d.trees.AreLeaves p := by
  intro r hr hpr
  refine List.eq_nil_iff_forall_not_mem.mpr fun c hc => ?_
  have hfit := h.fits r hr c hc
  rw [hp r.node hpr] at hfit
  cases hfit

end Sound

/-! ## Edits that move nodes -/

theorem Grounded.of_rearranged {edit : Row → Row} (h : Grounded d) (hr : Rearranged edit d d') :
    Grounded d' := by
  refine ⟨?_, ?_⟩
  · rw [hr.nodeCount]
    exact hr.ids.trans h.numbered
  · rw [hr.first]
    exact h.rooted

/-- Rearranging keeps a document sound if what stands in the edited rows fits
there. -/
theorem Sound.of_rearranged {edit : Row → Row} (h : Sound d) (hr : Rearranged edit d d')
    (hfits : ∀ r ∈ d.trees.rows, ∀ c ∈ (edit r).children, r.node.kind.canContain c.kind = true) :
    Sound d' := by
  refine ⟨(h.grounded.of_rearranged hr).numbered, ?_, ?_, ?_⟩
  · rw [hr.first]
    exact h.rooted
  · intro n hn
    exact h.one_document n (hr.nodes.subset hn)
  · intro r hm
    obtain ⟨r, hm', rfl⟩ := List.mem_map.mp (hr.rows.subset hm)
    rw [hr.node]
    exact hfits r hm'

/-- An edit that adds one node to the children of `p` keeps the document
sound if the node fits there. -/
theorem Sound.of_insert {edit : Row → Row} {p c : NodeId} {m n : Node} (h : Sound d)
    (hr : Rearranged edit d d') (hi : Insertable d p c m n)
    (hnew : ∀ r ∈ d.trees.rows, ∀ x ∈ (edit r).children, x ∈ r.children ∨ x = n ∧ r.node.id = p) :
    Sound d' := by
  refine h.of_rearranged hr fun r hm x hx => ?_
  rcases hnew r hm x hx with hx | ⟨rfl, hid⟩
  · exact h.fits r hm x hx
  · have hp := hi.parent
    rw [← hid, node?_of_mem_nodes h.distinct (Forest.node_mem_nodes hm), Option.some.injEq] at hp
    rw [hp]
    exact hi.fits

/-- The row that has the anchor among its children is the row of its parent. -/
theorem row_of_parent? (hd : d.trees.Distinct) {p a : NodeId} (hp : d.parent? a = some p) {r : Row}
    (hr : r ∈ d.trees.rows) (ha : a ∈ r.children.map (·.id)) : r.node.id = p :=
  Forest.isChild_unique hd ⟨r, hr, rfl, ha⟩
    ((mem_children_iff hd).mp ((parent?_eq_some_iff hd).mp hp))

theorem Grounded.movable (h : Grounded d) {c : NodeId} (hc : c ∈ d.trees.ids)
    (hr : c ≠ rootId) : ∃ t root, Movable d c t root ∧ root.id = rootId := by
  obtain ⟨root, hroot, hid⟩ := h.rooted
  obtain ⟨t, ht⟩ := Document.movable h.distinct hroot hc fun he => hr (he ▸ hid)
  exact ⟨t, root, ht, hid⟩

/-! ## What each move does -/

theorem insertInto_ok (h : Grounded d) (side : Side) {p c : NodeId}
    (hok : d.insertInto side p c = .ok d') :
    ∃ m n, Insertable d p c m n ∧
      Rearranged (Row.editAt p (Siblings.around side n) ∘ Row.edit (Siblings.without c)) d d' := by
  rw [insertInto_eq] at hok
  rcases hc : d.checkInsert p c with e | u
  · rw [hc] at hok
    cases hok
  · rw [hc] at hok
    cases hok
    obtain ⟨m, n, hi⟩ := insertable_of_checkInsert hc
    obtain ⟨t, root, hm, -⟩ := h.movable (mem_ids_of_node? hi.child) hi.notRoot
    exact ⟨m, n, hi, rearranged_into side h.distinct hm hi⟩

theorem insertBeside_ok (h : Grounded d) (side : Side) {a c : NodeId} (hne : a ≠ c)
    (hok : d.insertBeside side a c = .ok d') :
    ∃ p m n, d.parent? a = some p ∧ Insertable d p c m n ∧
      Rearranged (Row.edit (Siblings.beside side a n) ∘ Row.edit (Siblings.without c)) d d' := by
  rw [insertBeside_eq] at hok
  rcases hs : d.siblingParent a c with e | p
  · rw [hs] at hok
    cases hok
  · obtain ⟨har, hp⟩ := siblingParent_ok hs
    rcases hc : d.checkInsert p c with e | u
    · simp [hs, hne, hc, bind, Except.bind] at hok
    · obtain ⟨m, n, hi⟩ := insertable_of_checkInsert hc
      obtain ⟨t, root, hm, hid⟩ := h.movable (mem_ids_of_node? hi.child) hi.notRoot
      simp only [hs, hne, hc, bind, Except.bind, pure, Except.pure, if_false] at hok
      cases hok
      exact ⟨p, m, n, hp, hi, rearranged_beside side h.distinct hm hp hne (hid ▸ Ne.symm har) hi⟩

/-- A node beside itself, where that is allowed, is no move. -/
theorem insertBeside_self (side : Side) {a : NodeId} (hok : d.insertBeside side a a = .ok d') :
    d' = d := by
  rw [insertBeside_eq] at hok
  rcases hs : d.siblingParent a a with e | p
  · rw [hs] at hok
    cases hok
  · simp only [hs, bind, Except.bind, pure, Except.pure, if_true] at hok
    cases hok
    rfl

theorem detach_eq {c : NodeId} :
    d.detach c =
      if c ∉ d.trees.ids then .error (.unknownNode c)
      else if c = rootId then .error .rootFixed
      else .ok (d.move c fun t f => f.append t.alone) := by
  unfold detach
  simp only [checkKnown, Document.contains_iff]
  by_cases hc : c ∈ d.trees.ids
  · by_cases hr : c = rootId
    · subst hr
      simp [hc, bind, Except.bind, throw, throwThe, MonadExceptOf.throw]
    · simp [hc, hr, bind, Except.bind, pure, Except.pure]
  · simp [hc, bind, Except.bind]

theorem detach_ok (h : Grounded d) {c : NodeId} (hok : d.detach c = .ok d') :
    c ∈ d.trees.ids ∧ Rearranged (Row.edit (Siblings.without c)) d d' := by
  rw [detach_eq] at hok
  split at hok
  · cases hok
  · rename_i hc
    split at hok
    · cases hok
    · rename_i hr
      cases hok
      rw [not_not] at hc
      obtain ⟨t, root, hm, -⟩ := h.movable hc hr
      exact ⟨hc, rearranged_detach h.distinct hm⟩

/-! ## Each edit keeps the document sound -/

theorem sound_insertInto (h : Sound d) (side : Side) {p c : NodeId}
    (hok : d.insertInto side p c = .ok d') : Sound d' := by
  obtain ⟨m, n, hi, hr⟩ := insertInto_ok h.grounded side hok
  refine h.of_insert hr hi fun r _ x hx => ?_
  rw [Function.comp_apply, Row.children_editAt, Row.node_edit] at hx
  split at hx
  · rcases Siblings.mem_around hx with hx | hx
    · exact Or.inl (Siblings.mem_without hx)
    · exact Or.inr ⟨hx, ‹_›⟩
  · exact Or.inl (Siblings.mem_without hx)

theorem sound_insertBeside (h : Sound d) (side : Side) {a c : NodeId}
    (hok : d.insertBeside side a c = .ok d') : Sound d' := by
  by_cases hne : a = c
  · subst hne
    rwa [insertBeside_self side hok]
  · obtain ⟨p, m, n, hp, hi, hr⟩ := insertBeside_ok h.grounded side hne hok
    refine h.of_insert hr hi fun r hm x hx => ?_
    rcases Siblings.mem_beside hx with hx | ⟨hx, ha⟩
    · exact Or.inl (Siblings.mem_without hx)
    · refine Or.inr ⟨hx, row_of_parent? h.distinct hp hm ?_⟩
      obtain ⟨y, hy, rfl⟩ := List.mem_map.mp ha
      exact List.mem_map_of_mem (Siblings.mem_without hy)

theorem sound_detach (h : Sound d) {c : NodeId} (hok : d.detach c = .ok d') : Sound d' :=
  h.of_rearranged (detach_ok h.grounded hok).2 fun r hr x hx => h.fits r hr x (Siblings.mem_without hx)

/-- The node that `create` makes. -/
def newNode (d : Document) (k : Kind) : Node := { id := d.nodeCount, content := .ofKind k }

theorem create_ok {k : Kind} {id : NodeId} (hok : d.create k = .ok (id, d')) :
    k ≠ .document ∧ id = d.nodeCount ∧
      d'.trees = d.trees.append (.cons (d.newNode k) .nil .nil) := by
  unfold create at hok
  split at hok
  · cases hok
  · cases hok
    exact ⟨‹_›, rfl, rfl⟩

theorem nodeCount_create {k : Kind} {id : NodeId} (hok : d.create k = .ok (id, d')) :
    d'.nodeCount = d.nodeCount + 1 := by
  obtain ⟨-, -, ht⟩ := create_ok hok
  unfold nodeCount
  rw [← Forest.length_ids, ← Forest.length_ids, ht, Forest.ids_append, List.length_append]
  rfl

theorem grounded_create (h : Grounded d) {k : Kind} {id : NodeId}
    (hok : d.create k = .ok (id, d')) : Grounded d' := by
  obtain ⟨-, -, ht⟩ := create_ok hok
  obtain ⟨root, hroot, hid⟩ := h.rooted
  refine ⟨?_, root, ?_, hid⟩
  · rw [nodeCount_create hok, List.range_succ, ht, Forest.ids_append]
    exact h.numbered.append_right _
  · rw [ht]
    exact first?_append _ hroot

theorem sound_create (h : Sound d) {k : Kind} {id : NodeId} (hok : d.create k = .ok (id, d')) :
    Sound d' := by
  obtain ⟨hk, -, ht⟩ := create_ok hok
  obtain ⟨root, hroot, hid, hrk⟩ := h.rooted
  refine ⟨(grounded_create h.grounded hok).numbered, ⟨root, ?_, hid, hrk⟩, ?_, ?_⟩
  · rw [ht]
    exact first?_append _ hroot
  · intro n hn hnk
    rw [ht, Forest.nodes_append, List.mem_append] at hn
    rcases hn with hn | hn
    · exact h.one_document n hn hnk
    · simp only [Forest.nodes, List.append_nil, List.mem_singleton] at hn
      subst hn
      exact absurd ((Content.kind_ofKind k).symm.trans hnk) hk
  · intro r hr x hx
    rw [ht, Forest.rows_append, List.mem_append] at hr
    rcases hr with hr | hr
    · exact h.fits r hr x hx
    · simp only [Forest.rows_cons, Forest.rows_nil, Forest.roots, List.append_nil,
        List.mem_singleton] at hr
      subst hr
      cases hx

theorem set_ok {id : NodeId} {change : Change} (hok : d.set id change = .ok d') :
    ∃ n content, d.node? id = some n ∧ n.content.apply change = .ok content ∧
      d'.trees = d.trees.modify id fun n => { n with content } := by
  unfold set at hok
  split at hok
  · cases hok
  · split at hok
    · cases hok
    · cases hok
      exact ⟨_, _, ‹_›, ‹_›, rfl⟩

/-- New labels that keep the numbers keep the ground of a document. -/
theorem Grounded.of_relabelled (h : Grounded d) {g : Node → Node}
    (hrows : d'.trees.rows = d.trees.rows.map (Row.relabel g))
    (hroots : d'.trees.roots = d.trees.roots.map g) (hid : ∀ m, (g m).id = m.id) : Grounded d' := by
  obtain ⟨root, hroot, hrid⟩ := h.rooted
  have hids := Forest.ids_of_relabelled hrows hid
  refine ⟨?_, g root, ?_, (hid root).trans hrid⟩
  · rw [hids, nodeCount_of_perm (List.Perm.of_eq hids)]
    exact h.numbered
  · rw [Forest.first?_eq] at hroot ⊢
    rw [hroots, List.head?_map, hroot]
    rfl

/-- New labels that keep the number and the kind of each node keep the
document sound. -/
theorem Sound.of_relabelled (h : Sound d) {g : Node → Node}
    (hrows : d'.trees.rows = d.trees.rows.map (Row.relabel g))
    (hroots : d'.trees.roots = d.trees.roots.map g) (hid : ∀ m, (g m).id = m.id)
    (hkind : ∀ m ∈ d.trees.nodes, (g m).kind = m.kind) : Sound d' := by
  have hnodes := Forest.nodes_of_relabelled hrows
  obtain ⟨root, hroot, hrid, hrk⟩ := h.rooted
  rw [Forest.first?_eq] at hroot
  have hrm := Forest.roots_subset_nodes _ (List.mem_of_mem_head? hroot)
  refine ⟨(h.grounded.of_relabelled hrows hroots hid).numbered,
    ⟨g root, ?_, (hid root).trans hrid, (hkind root hrm).trans hrk⟩, ?_, ?_⟩
  · rw [Forest.first?_eq, hroots, List.head?_map, hroot]
    rfl
  · intro n hn hk
    rw [hnodes] at hn
    obtain ⟨m, hm, rfl⟩ := List.mem_map.mp hn
    rw [hid]
    exact h.one_document m hm ((hkind m hm).symm.trans hk)
  · intro s hs x hx
    rw [hrows] at hs
    obtain ⟨r, hr, rfl⟩ := List.mem_map.mp hs
    obtain ⟨c, hc, rfl⟩ := List.mem_map.mp hx
    have hfit := h.fits r hr c hc
    rw [← hkind r.node (Forest.node_mem_nodes hr), ← hkind c (Forest.child_mem_nodes hr hc)] at hfit
    exact hfit

theorem sound_set (h : Sound d) {id : NodeId} {change : Change} (hok : d.set id change = .ok d') :
    Sound d' := by
  obtain ⟨n, content, hn, hc, ht⟩ := set_ok hok
  refine h.of_relabelled (ht ▸ Forest.rows_modify _ _ _) (ht ▸ Forest.roots_modify _ _ _) ?_ ?_
  · intro m
    split <;> rfl
  · intro m hm
    split
    · have hmn : d.node? id = some m := (node?_eq_some_iff h.distinct).mpr ⟨hm, ‹_›⟩
      rw [hn, Option.some.injEq] at hmn
      rw [← hmn]
      exact Content.kind_apply hc
    · rfl

end Document

end MarkupTree
