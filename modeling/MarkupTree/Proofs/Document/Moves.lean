-- What a move does to the table of a document. When it is allowed, it takes
-- the node out of the list it stands in and puts it into one list. The table
-- keeps its rows otherwise, and the first tree stays first.
import MarkupTree.Proofs.Document.Views
import MarkupTree.Proofs.Forest.Changes

namespace MarkupTree

namespace Document

/-- The table of `d'` is that of `d` with each row edited. The rows keep their
nodes, but they may stand in another order. -/
structure Rearranged (edit : Row → Row) (d d' : Document) : Prop where
  rows : d'.trees.rows.Perm (d.trees.rows.map edit)
  node : ∀ r, (edit r).node = r.node
  first : d'.trees.first? = d.trees.first?

variable {d d' : Document}

/-! ## What a rearranged document shows -/

namespace Rearranged

variable {edit : Row → Row}

theorem nodes (h : Rearranged edit d d') : d'.trees.nodes.Perm d.trees.nodes := by
  have hr := h.rows.map Row.node
  have hnode : Row.node ∘ edit = Row.node := funext h.node
  rwa [List.map_map, hnode, Forest.map_node_rows, Forest.map_node_rows] at hr

theorem ids (h : Rearranged edit d d') : d'.trees.ids.Perm d.trees.ids := h.nodes.map _

theorem nodeCount (h : Rearranged edit d d') : d'.nodeCount = d.nodeCount :=
  nodeCount_of_perm h.ids

theorem distinct (h : Rearranged edit d d') (hd : d.trees.Distinct) : d'.trees.Distinct :=
  h.ids.nodup_iff.mpr hd

theorem node? (h : Rearranged edit d d') (hd : d.trees.Distinct) (id : NodeId) :
    d'.node? id = d.node? id := by
  ext n
  rw [node?_eq_some_iff hd, node?_eq_some_iff (h.distinct hd), h.nodes.mem_iff]

theorem children (h : Rearranged edit d d') (hd : d.trees.Distinct) {r : Row}
    (hr : r ∈ d.trees.rows) : d'.children r.node.id = (edit r).children.map (·.id) := by
  have hr' : edit r ∈ d'.trees.rows := h.rows.symm.subset (List.mem_map_of_mem hr)
  rw [← children_of_mem_rows (h.distinct hd) hr', h.node]

/-- The children of a node, by what the edit does to its list. -/
theorem children_eq (h : Rearranged edit d d') (hd : d.trees.Distinct)
    {g : List NodeId → List NodeId} {id : NodeId} (hnil : g [] = [])
    (hg : ∀ r ∈ d.trees.rows, r.node.id = id →
      (edit r).children.map (·.id) = g (r.children.map (·.id))) :
    d'.children id = g (d.children id) := by
  by_cases hid : id ∈ d.trees.ids
  · rw [← Forest.map_id_rows] at hid
    obtain ⟨r, hr, rfl⟩ := List.mem_map.mp hid
    rw [h.children hd hr, children_of_mem_rows hd hr, hg r hr rfl]
  · have hid' : id ∉ d'.trees.ids := fun hm => hid (h.ids.subset hm)
    rw [children_of_not_mem hid, children_of_not_mem hid', hnil]

end Rearranged

/-! ## Whether a move is allowed -/

theorem checkKnown_pair (a b : NodeId) :
    d.checkKnown [a, b] =
      if a ∉ d.trees.ids then .error (.unknownNode a)
      else if b ∉ d.trees.ids then .error (.unknownNode b) else .ok () := by
  simp only [checkKnown, contains_iff]
  by_cases ha : a ∈ d.trees.ids <;> by_cases hb : b ∈ d.trees.ids <;> simp [ha, hb]

theorem exists_node? {id : NodeId} (h : id ∈ d.trees.ids) : ∃ n, d.node? id = some n :=
  Option.isSome_iff_exists.mp (node?_isSome_iff.mpr h)

theorem mem_ids_of_node? {id : NodeId} {n : Node} (h : d.node? id = some n) : id ∈ d.trees.ids :=
  node?_isSome_iff.mp (by rw [h]; rfl)

theorem checkInsert_eq {p c : NodeId} {m n : Node} (hp : d.node? p = some m)
    (hc : d.node? c = some n) :
    d.checkInsert p c =
      if c = rootId then .error .rootFixed
      else if ¬ m.kind.canContain n.kind then .error (.cannotContain m.kind n.kind)
      else if c ∈ d.lineage p then .error (.ownSubtree c) else .ok () := by
  have hpm := mem_ids_of_node? hp
  have hcm := mem_ids_of_node? hc
  unfold checkInsert
  rw [checkKnown_pair, if_neg (not_not_intro hpm), if_neg (not_not_intro hcm)]
  simp only [bind, Except.bind, hp, hc]
  by_cases h1 : c = rootId
  · simp [h1, throw, throwThe, MonadExceptOf.throw]
  · rw [if_neg h1, if_neg h1]
    by_cases h2 : m.kind.canContain n.kind = true
    · by_cases h3 : c ∈ d.lineage p <;>
        simp [h2, h3, pure, Except.pure, throw, throwThe, MonadExceptOf.throw]
    · simp [h2, throw, throwThe, MonadExceptOf.throw]

theorem checkInsert_unknown {p c : NodeId} (h : p ∉ d.trees.ids ∨ c ∉ d.trees.ids) :
    d.checkInsert p c = .error (.unknownNode (if p ∈ d.trees.ids then c else p)) := by
  unfold checkInsert
  rw [checkKnown_pair]
  by_cases hp : p ∈ d.trees.ids
  · have hc := h.resolve_left (not_not_intro hp)
    simp [hp, hc, bind, Except.bind]
  · simp [hp, bind, Except.bind]

/-- What an allowed insertion has established. -/
structure Insertable (d : Document) (p c : NodeId) (m n : Node) : Prop where
  parent : d.node? p = some m
  child : d.node? c = some n
  notRoot : c ≠ rootId
  fits : m.kind.canContain n.kind = true
  outside : c ∉ d.lineage p

theorem insertable_of_checkInsert {p c : NodeId} (h : d.checkInsert p c = .ok ()) :
    ∃ m n, Insertable d p c m n := by
  by_cases hk : p ∉ d.trees.ids ∨ c ∉ d.trees.ids
  · rw [checkInsert_unknown hk] at h
    cases h
  · simp only [not_or, not_not] at hk
    obtain ⟨m, hm⟩ := exists_node? hk.1
    obtain ⟨n, hn⟩ := exists_node? hk.2
    rw [checkInsert_eq hm hn] at h
    split at h
    · cases h
    · split at h
      · cases h
      · split at h
        · cases h
        · exact ⟨m, n, hm, hn, ‹_›, not_not.mp ‹_›, ‹_›⟩

theorem siblingParent_eq {a n : NodeId} :
    d.siblingParent a n =
      if a ∉ d.trees.ids then .error (.unknownNode a)
      else if n ∉ d.trees.ids then .error (.unknownNode n)
      else if a = rootId ∨ n = rootId then .error .rootFixed
      else
        match d.parent? a with
        | some p => .ok p
        | none => .error (.detachedAnchor a) := by
  unfold siblingParent
  rw [checkKnown_pair]
  by_cases ha : a ∈ d.trees.ids
  · by_cases hn : n ∈ d.trees.ids
    · by_cases hr : a = rootId ∨ n = rootId
      · simp [ha, hn, hr, bind, Except.bind, throw, throwThe, MonadExceptOf.throw]
      · simp only [ha, hn, hr, bind, Except.bind, not_true_eq_false, if_false]
        cases d.parent? a <;> rfl
    · simp [ha, hn, bind, Except.bind]
  · simp [ha, bind, Except.bind]

/-- What a sibling insertion knows before it looks at the parent. -/
theorem siblingParent_ok {a n p : NodeId} (h : d.siblingParent a n = .ok p) :
    a ≠ rootId ∧ d.parent? a = some p := by
  rw [siblingParent_eq] at h
  split at h
  · cases h
  · split at h
    · cases h
    · split at h
      · cases h
      · rename_i hr
        split at h
        · rename_i q hq
          cases h
          exact ⟨fun he => hr (Or.inl he), hq⟩
        · cases h

/-! ## Moves to either side -/

/-- Makes `c` the first or the last child of `p`. -/
def insertInto (d : Document) (side : Side) (p c : NodeId) : Except EditError Document :=
  match side with
  | .before => d.prependChild p c
  | .after => d.appendChild p c

/-- Moves `n` directly before or after `a`. -/
def insertBeside (d : Document) (side : Side) (a n : NodeId) : Except EditError Document :=
  match side with
  | .before => d.insertBefore a n
  | .after => d.insertAfter a n

theorem insertInto_eq (side : Side) (p c : NodeId) :
    d.insertInto side p c = (do
      d.checkInsert p c
      pure (d.move c fun t f => f.modifyChildren p fun cs => cs.putAround side t)) := by
  cases side <;> rfl

theorem insertBeside_eq (side : Side) (a n : NodeId) :
    d.insertBeside side a n = (do
      let parent ← d.siblingParent a n
      if a = n then pure d
      else
        d.checkInsert parent n
        pure (d.move n fun t f => f.putBeside side a t)) := by
  cases side <;> rfl

/-! ## The first tree stays first -/

theorem first?_erase {f : Forest} {n : Node} {id : NodeId} (h : f.first? = some n)
    (hn : n.id ≠ id) : (f.erase id).first? = some n := by
  cases f with
  | nil => cases h
  | cons m ms rest =>
    cases h
    rw [Forest.erase, if_neg hn]
    rfl

theorem first?_append {f : Forest} {n : Node} (g : Forest) (h : f.first? = some n) :
    (f.append g).first? = some n := by
  cases f with
  | nil => cases h
  | cons m ms rest => exact h

theorem first?_modifyChildren {f : Forest} {n : Node} (id : NodeId) (g : Forest → Forest)
    (h : f.first? = some n) : (f.modifyChildren id g).first? = some n := by
  rw [Forest.first?_eq, Forest.roots_modifyChildren, ← Forest.first?_eq, h]

theorem first?_putBeside {f : Forest} {n : Node} {a : NodeId} (side : Side) (t : Tree)
    (h : f.first? = some n) (hn : n.id ≠ a) : (f.putBeside side a t).first? = some n := by
  cases f with
  | nil => cases h
  | cons m ms rest =>
    cases h
    rw [Forest.putBeside_other side t ms rest hn]
    rfl

/-! ## Moves -/

theorem mem_subtree_iff (hd : d.trees.Distinct) {c b : NodeId} {t : Tree}
    (ht : d.tree? c = some t) (hb : b ∈ d.trees.ids) : b ∈ t.ids ↔ c ∈ d.lineage b := by
  obtain ⟨hm, rfl⟩ := Forest.mem_subtrees_of_tree? ht
  rw [mem_lineage_iff hd hb, below_iff hd, Forest.below_iff_mem_ids hd hm]

/-- A move, by what putting the tree back does to the table without it. -/
theorem rearranged_move (edit : Row → Row) (hd : d.trees.Distinct) {c : NodeId} {t : Tree}
    {root : Node} {put : Tree → Forest → Forest} (ht : d.tree? c = some t)
    (hnode : ∀ r, (edit r).node = r.node)
    (hput : (put t (d.trees.erase c)).rows.Perm
      ((d.trees.erase c).rows.map edit ++ t.alone.rows))
    (hown : t.alone.rows.map edit = t.alone.rows)
    (hroot : d.trees.first? = some root) (hfirst : (put t (d.trees.erase c)).first? = some root) :
    Rearranged (edit ∘ Row.edit (Siblings.without c)) d (d.move c put) := by
  have hmove : d.move c put = ⟨put t (d.trees.erase c)⟩ := by rw [move, ht]
  rw [hmove]
  refine ⟨?_, fun r => hnode _, hfirst.trans hroot.symm⟩
  have h := (Forest.rows_erase hd ht).map edit
  rw [List.map_append, hown, List.map_map] at h
  exact hput.trans h

/-- What the checks before a move establish about the tree that moves. -/
structure Movable (d : Document) (c : NodeId) (t : Tree) (root : Node) : Prop where
  tree : d.tree? c = some t
  front : d.trees.first? = some root
  rest : (d.trees.erase c).Distinct
  first : (d.trees.erase c).first? = some root

theorem movable (hd : d.trees.Distinct) {c : NodeId} {root : Node}
    (hroot : d.trees.first? = some root) (hc : c ∈ d.trees.ids) (hne : root.id ≠ c) :
    ∃ t, Movable d c t root := by
  obtain ⟨t, ht⟩ := Forest.exists_tree?_of_mem_ids hc
  have h := (Forest.ids_erase hd ht).nodup_iff.mpr hd
  exact ⟨t, ht, hroot, (List.nodup_append'.mp h).1, first?_erase hroot hne⟩

/-- A node outside the subtree that moves is still there without it. -/
theorem Movable.mem_rest {c b : NodeId} {t : Tree} {root : Node} (hm : Movable d c t root)
    (hd : d.trees.Distinct) (hb : b ∈ d.trees.ids) (hout : c ∉ d.lineage b) :
    b ∉ t.alone.ids ∧ b ∈ (d.trees.erase c).ids := by
  have hnot : b ∉ t.ids := fun h => hout ((mem_subtree_iff hd hm.tree hb).mp h)
  rw [Forest.ids_alone]
  refine ⟨hnot, ?_⟩
  exact (List.mem_append.mp ((Forest.ids_erase hd hm.tree).symm.subset hb)).resolve_right hnot

theorem Movable.node_eq {c : NodeId} {t : Tree} {root n : Node} (hm : Movable d c t root)
    (hn : d.node? c = some n) : t.node = n := by
  rw [node?, hm.tree] at hn
  exact Option.some.inj hn

/-- Makes the node the first or the last of the children of `p`. -/
theorem rearranged_into (side : Side) (hd : d.trees.Distinct) {p c : NodeId} {t : Tree}
    {m n root : Node} (hm : Movable d c t root) (hi : Insertable d p c m n) :
    Rearranged (Row.editAt p (Siblings.around side n) ∘ Row.edit (Siblings.without c)) d
      (d.move c fun t f => f.modifyChildren p fun cs => cs.putAround side t) := by
  obtain ⟨hpt, hp⟩ := hm.mem_rest hd (mem_ids_of_node? hi.parent) hi.outside
  obtain rfl := hm.node_eq hi.child
  exact rearranged_move _ hd hm.tree (fun r => by simp)
    (Forest.rows_modifyChildren (Forest.roots_putAround side t) (Forest.rows_putAround side t)
      hm.rest hp)
    (Forest.map_editAt_of_not_mem hpt) hm.front (first?_modifyChildren _ _ hm.first)

theorem outside_of_sibling (hd : d.trees.Distinct) {p a c : NodeId} {m n : Node}
    (hp : d.parent? a = some p) (hne : a ≠ c) (hi : Insertable d p c m n) : c ∉ d.lineage a := by
  rw [lineage_of_parent? hd hp, List.mem_cons, not_or]
  exact ⟨Ne.symm hne, hi.outside⟩

/-- Makes the node a sibling of `a`, directly beside it. -/
theorem rearranged_beside (side : Side) (hd : d.trees.Distinct) {p a c : NodeId} {t : Tree}
    {m n root : Node} (hm : Movable d c t root) (hp : d.parent? a = some p) (hne : a ≠ c)
    (hra : root.id ≠ a) (hi : Insertable d p c m n) :
    Rearranged (Row.edit (Siblings.beside side a n) ∘ Row.edit (Siblings.without c)) d
      (d.move c fun t f => f.putBeside side a t) := by
  obtain ⟨hat, ha⟩ := hm.mem_rest hd (mem_ids_of_parent? hd hp).2 (outside_of_sibling hd hp hne hi)
  obtain rfl := hm.node_eq hi.child
  exact rearranged_move _ hd hm.tree (fun r => rfl) (Forest.rows_putBeside hm.rest ha)
    (Forest.map_edit_of_not_mem (fun l => Siblings.beside_of_not_mem) hat) hm.front
    (first?_putBeside side _ hm.first hra)

theorem rearranged_detach (hd : d.trees.Distinct) {c : NodeId} {t : Tree} {root : Node}
    (hm : Movable d c t root) :
    Rearranged (Row.edit (Siblings.without c)) d (d.move c fun t f => f.append t.alone) := by
  refine rearranged_move id hd hm.tree (fun r => rfl) ?_ (List.map_id _) hm.front
    (first?_append _ hm.first)
  rw [List.map_id, Forest.rows_append]

end Document

end MarkupTree
