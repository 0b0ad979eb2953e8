-- The links of a document. Where no two nodes share a number, the links from
-- node to node say the same as the lists of children: the parent of a node is
-- the node that has it among its children, its neighbours stand next to it in
-- that list, and the way upward ends.
import MarkupTree.Document.Edit
import MarkupTree.Proofs.Forest.Places
import Mathlib.Data.List.Perm.Subperm

namespace MarkupTree

namespace Document

/-- Some place below `a`, or `a` itself, is `b`. -/
def Below (d : Document) : NodeId → NodeId → Prop :=
  Relation.ReflTransGen fun p c => c ∈ d.children p

variable {d : Document}

/-! ## Nodes and children -/

theorem nodeCount_of_perm {d' : Document} (h : d'.trees.ids.Perm d.trees.ids) :
    d'.nodeCount = d.nodeCount := by
  unfold nodeCount
  rw [← Forest.length_ids, ← Forest.length_ids, h.length_eq]

theorem contains_iff {id : NodeId} : d.contains id = true ↔ id ∈ d.trees.ids := by
  unfold contains tree?
  rcases h : d.trees.tree? id with _ | t
  · simpa using Forest.tree?_eq_none_iff.mp h
  · simpa using Forest.mem_ids_of_tree? h

theorem node?_eq_some_iff (hd : d.trees.Distinct) {id : NodeId} {n : Node} :
    d.node? id = some n ↔ n ∈ d.trees.nodes ∧ n.id = id := by
  unfold node? tree?
  rw [Option.map_eq_some_iff, ← Forest.map_node_rows]
  constructor
  · rintro ⟨t, ht, rfl⟩
    obtain ⟨hm, hid⟩ := Forest.mem_subtrees_of_tree? ht
    exact ⟨List.mem_map.mpr ⟨t.row, List.mem_map_of_mem hm, rfl⟩, hid⟩
  · rintro ⟨hm, rfl⟩
    obtain ⟨r, hr, rfl⟩ := List.mem_map.mp hm
    obtain ⟨t, ht, htr⟩ := (Forest.mem_rows_iff hd).mp hr
    exact ⟨t, ht, by rw [← htr]; rfl⟩

theorem node?_of_mem_nodes (hd : d.trees.Distinct) {n : Node} (hn : n ∈ d.trees.nodes) :
    d.node? n.id = some n := (node?_eq_some_iff hd).mpr ⟨hn, rfl⟩

theorem node?_isSome_iff {id : NodeId} : (d.node? id).isSome = true ↔ id ∈ d.trees.ids := by
  rw [← contains_iff, node?, contains, Option.isSome_map]

theorem children_of_mem_rows (hd : d.trees.Distinct) {r : Row} (hr : r ∈ d.trees.rows) :
    d.children r.node.id = r.children.map (·.id) := by
  obtain ⟨t, ht, htr⟩ := (Forest.mem_rows_iff hd).mp hr
  unfold children tree?
  rw [ht, ← htr]
  rfl

theorem children_of_mem_subtrees (hd : d.trees.Distinct) {t : Tree} (ht : t ∈ d.trees.subtrees) :
    d.children t.node.id = t.children.roots.map (·.id) :=
  children_of_mem_rows hd (List.mem_map_of_mem ht : t.row ∈ d.trees.rows)

theorem children_of_not_mem {id : NodeId} (h : id ∉ d.trees.ids) : d.children id = [] := by
  unfold children tree?
  rw [Forest.tree?_eq_none_iff.mpr h]

theorem mem_children_iff (hd : d.trees.Distinct) {p c : NodeId} :
    c ∈ d.children p ↔ d.trees.IsChild p c := by
  constructor
  · intro h
    rcases ht : d.trees.tree? p with _ | t
    · simp [children, tree?, ht] at h
    · obtain ⟨hm, hid⟩ := Forest.mem_subtrees_of_tree? ht
      refine ⟨t.row, List.mem_map_of_mem hm, hid, ?_⟩
      rw [children, tree?, ht] at h
      exact h
  · rintro ⟨r, hr, rfl, hc⟩
    rwa [children_of_mem_rows hd hr]

theorem mem_ids_of_mem_children (hd : d.trees.Distinct) {p c : NodeId} (h : c ∈ d.children p) :
    p ∈ d.trees.ids ∧ c ∈ d.trees.ids := Forest.isChild_mem ((mem_children_iff hd).mp h)

theorem below_iff (hd : d.trees.Distinct) {a b : NodeId} : d.Below a b ↔ d.trees.Below a b := by
  have h : (fun p c => c ∈ d.children p) = d.trees.IsChild := by
    funext p c
    exact propext (mem_children_iff hd)
  rw [Below, h]
  rfl

theorem children_nodup (hd : d.trees.Distinct) (p : NodeId) : (d.children p).Nodup := by
  rcases ht : d.trees.tree? p with _ | t
  · simp [children, tree?, ht]
  · obtain ⟨hm, rfl⟩ := Forest.mem_subtrees_of_tree? ht
    rw [show t.node.id = t.row.node.id from rfl, children_of_mem_rows hd (List.mem_map_of_mem hm)]
    exact Forest.children_nodup hd (List.mem_map_of_mem hm)

theorem length_children_le (hd : d.trees.Distinct) (p : NodeId) :
    (d.children p).length ≤ d.nodeCount := by
  have h : (d.children p).length ≤ d.trees.ids.length :=
    ((children_nodup hd p).subperm fun c hc => (mem_ids_of_mem_children hd hc).2).length_le
  rwa [Forest.length_ids] at h

/-! ## Parents -/

theorem site?_eq_none_iff {id : NodeId} : d.site? id = none ↔ id ∉ d.trees.ids := by
  unfold site?
  rw [← Forest.tree?_eq_none_iff, ← Forest.map_tree_siteAmong?, Option.map_eq_none_iff]

theorem tree?_of_site? {id : NodeId} {s : Site} (h : d.site? id = some s) :
    d.tree? id = some s.tree := by
  unfold tree?
  rw [← Forest.map_tree_siteAmong?, show d.trees.siteAmong? id = some s from h]
  rfl

theorem id_of_site? {id : NodeId} {s : Site} (h : d.site? id = some s) : s.node.id = id :=
  (Forest.mem_subtrees_of_tree? (tree?_of_site? h)).2

theorem mem_subtrees_of_site? {id : NodeId} {s : Site} (hs : d.site? id = some s) :
    s.tree ∈ d.trees.subtrees := (Forest.mem_subtrees_of_tree? (tree?_of_site? hs)).1

/-- What a site shows of its surroundings: it stands alone, or its siblings
are the children of its parent. -/
theorem place_of_site? (hd : d.trees.Distinct) {id : NodeId} {s : Site} (h : d.site? id = some s) :
    (s.ancestors = [] ∧ s.siblings = [s.node] ∧ ∀ p, id ∉ d.children p) ∨
      ∃ n, s.parent? = some n ∧ d.children n.id = s.siblings.map (·.id) := by
  rcases Forest.siblings_of_siteAmong? h with ⟨ha, hs, hm⟩ | ⟨r, hr, hp, hs⟩
  · refine Or.inl ⟨ha, hs, fun p hc => ?_⟩
    rw [mem_children_iff hd, ← id_of_site? h] at hc
    exact Forest.root_not_child hd hm hc
  · exact Or.inr ⟨r.node, hp, by rw [children_of_mem_rows hd hr, hs]⟩

theorem mem_siblings (s : Site) : s.node ∈ s.siblings := by simp [Site.siblings]

/-- The parent of a node is the node that has it among its children. -/
theorem parent?_eq_some_iff (hd : d.trees.Distinct) {p c : NodeId} :
    d.parent? c = some p ↔ c ∈ d.children p := by
  unfold parent?
  rcases hs : d.site? c with _ | s
  · have hnot := site?_eq_none_iff.mp hs
    simp only [Option.bind_none, reduceCtorEq, false_iff]
    exact fun hc => hnot (mem_ids_of_mem_children hd hc).2
  · rw [Option.bind_some]
    rcases place_of_site? hd hs with ⟨ha, -, hnone⟩ | ⟨n, hn, hc⟩
    · simp only [Site.parent?, ha, List.head?_nil, Option.map_none, reduceCtorEq, false_iff]
      exact hnone p
    · have hmem : c ∈ d.children n.id := by
        rw [hc, ← id_of_site? hs]
        exact List.mem_map_of_mem (mem_siblings s)
      rw [hn, Option.map_some, Option.some.injEq]
      constructor
      · rintro rfl
        exact hmem
      · intro hp
        rw [mem_children_iff hd] at hmem hp
        exact Forest.isChild_unique hd hmem hp

theorem parent?_eq_none_iff (hd : d.trees.Distinct) {c : NodeId} :
    d.parent? c = none ↔ ∀ p, c ∉ d.children p := by
  rw [Option.eq_none_iff_forall_ne_some]
  simp only [ne_eq, parent?_eq_some_iff hd]

theorem parent?_eq_map {id : NodeId} {s : Site} (h : d.site? id = some s) :
    d.parent? id = s.ancestors.head?.map (·.id) := by
  rw [parent?, h]
  rfl

/-! ## Neighbours -/

/-- A list without repeats is split in one way only by one of its members. -/
theorem split_unique {α : Type} {xs ys us vs : List α} {a : α} (hd : (xs ++ a :: ys).Nodup)
    (h : xs ++ a :: ys = us ++ a :: vs) : xs = us ∧ ys = vs := by
  induction xs generalizing us with
  | nil =>
    cases us with
    | nil => exact ⟨rfl, by simpa using h⟩
    | cons u us =>
      simp only [List.nil_append, List.cons_append, List.cons.injEq] at h
      rw [h.2] at hd
      simp at hd
  | cons x xs ih =>
    cases us with
    | nil =>
      simp only [List.nil_append, List.cons_append, List.cons.injEq] at h
      rw [h.1] at hd
      simp at hd
    | cons u us =>
      simp only [List.cons_append, List.cons.injEq] at h
      obtain ⟨hxs, hys⟩ := ih (List.nodup_cons.mp hd).2 h.2
      exact ⟨by rw [h.1, hxs], hys⟩

/-- The neighbours of a child are those that it has in the list. -/
theorem neighbours_of_split (hd : d.trees.Distinct) {p c : NodeId} {xs ys : List NodeId}
    (h : d.children p = xs ++ c :: ys) :
    d.previous? c = xs.getLast? ∧ d.next? c = ys.head? := by
  have hmem : c ∈ d.children p := by rw [h]; simp
  rcases hs : d.site? c with _ | s
  · exact absurd (mem_ids_of_mem_children hd hmem).2 (site?_eq_none_iff.mp hs)
  · rcases place_of_site? hd hs with ⟨-, -, hnone⟩ | ⟨n, hn, hc⟩
    · exact absurd hmem (hnone p)
    · have hp : n.id = p := by
        have hp := (parent?_eq_some_iff hd).mpr hmem
        rw [parent?, hs, Option.bind_some, hn] at hp
        simpa using hp
      have hlist : xs ++ c :: ys = s.before.reverse.map (·.id) ++ c :: s.after.roots.map (·.id) := by
        rw [← h, ← hp, hc, Site.siblings, List.map_append, List.map_cons, id_of_site? hs]
      obtain ⟨rfl, rfl⟩ := split_unique (h ▸ children_nodup hd p) hlist
      constructor
      · rw [previous?, hs, Option.bind_some, List.getLast?_map, List.getLast?_reverse]
      · rw [next?, hs, Option.bind_some, Forest.first?_eq, List.head?_map]

theorem neighbours_of_parentless (hd : d.trees.Distinct) {c : NodeId} (h : d.parent? c = none) :
    d.previous? c = none ∧ d.next? c = none := by
  unfold previous? next?
  rcases hs : d.site? c with _ | s
  · exact ⟨rfl, rfl⟩
  · rcases place_of_site? hd hs with ⟨-, hsib, -⟩ | ⟨n, hn, -⟩
    · unfold Site.siblings at hsib
      have hlen := congrArg List.length hsib
      simp only [List.length_append, List.length_reverse, List.length_cons, List.length_nil] at hlen
      have hb : s.before = [] := List.eq_nil_of_length_eq_zero (by omega)
      have ha : s.after.roots = [] := List.eq_nil_of_length_eq_zero (by omega)
      constructor
      · rw [Option.bind_some, hb]
        rfl
      · rw [Option.bind_some, Forest.first?_eq, ha]
        rfl
    · rw [parent?, hs, Option.bind_some, hn] at h
      cases h

theorem firstChild?_eq (p : NodeId) : d.firstChild? p = (d.children p).head? := by
  unfold firstChild? children
  rcases hs : d.site? p with _ | s
  · rw [tree?, Forest.tree?_eq_none_iff.mpr (site?_eq_none_iff.mp hs)]
    rfl
  · rw [tree?_of_site? hs, List.head?_map, Option.bind_some, Forest.first?_eq]
    rfl

theorem lastChild?_eq (p : NodeId) : d.lastChild? p = (d.children p).getLast? := by
  unfold lastChild? children
  rcases hs : d.site? p with _ | s
  · rw [tree?, Forest.tree?_eq_none_iff.mpr (site?_eq_none_iff.mp hs)]
    rfl
  · rw [tree?_of_site? hs, List.getLast?_map]
    rfl

/-! ## Following links -/

/-- The nodes met by following a link from `start` until it leads nowhere. -/
inductive Leads (link : NodeId → Option NodeId) : Option NodeId → List NodeId → Prop
  | stop : Leads link none []
  | step {id : NodeId} {l : List NodeId} (rest : Leads link (link id) l) :
    Leads link (some id) (id :: l)

/-- A link that leads from each member of a list to the one after it leads
through the whole list. -/
theorem leads_of_split {link : NodeId → Option NodeId} {l : List NodeId}
    (h : ∀ xs c ys, l = xs ++ c :: ys → link c = ys.head?) : Leads link l.head? l := by
  induction l with
  | nil => exact Leads.stop
  | cons c cs ih =>
    apply Leads.step
    rw [h [] c cs rfl]
    exact ih fun xs x ys hx => h (c :: xs) x ys (by rw [hx]; rfl)

/-- A limit that the way does not reach changes nothing. -/
theorem follow_eq {link : NodeId → Option NodeId} {start : Option NodeId} {l : List NodeId}
    {limit : Nat} (h : Leads link start l) (hlen : l.length ≤ limit) :
    follow link limit start = l := by
  induction h generalizing limit with
  | stop => cases limit <;> rfl
  | @step id l _ ih =>
    cases limit with
    | zero => simp at hlen
    | succ limit => rw [follow, ih (by simpa using hlen)]

theorem leads_forward (hd : d.trees.Distinct) (p : NodeId) :
    Leads d.next? (d.firstChild? p) (d.children p) := by
  rw [firstChild?_eq]
  exact leads_of_split fun xs c ys h => (neighbours_of_split hd h).2

theorem leads_backward (hd : d.trees.Distinct) (p : NodeId) :
    Leads d.previous? (d.lastChild? p) (d.children p).reverse := by
  rw [lastChild?_eq, ← List.head?_reverse]
  refine leads_of_split fun xs c ys h => ?_
  have h' : d.children p = ys.reverse ++ c :: xs.reverse := by
    have := congrArg List.reverse h
    simpa using this
  rw [(neighbours_of_split hd h').1, List.getLast?_reverse]

/-- The children read along the links are those of the list, both ways. -/
theorem childrenForward_eq (hd : d.trees.Distinct) (p : NodeId) :
    d.childrenForward p = d.children p :=
  follow_eq (leads_forward hd p) (length_children_le hd p)

theorem childrenBackward_eq (hd : d.trees.Distinct) (p : NodeId) :
    d.childrenBackward p = (d.children p).reverse :=
  follow_eq (leads_backward hd p) (by simpa using length_children_le hd p)

/-! ## The way upward -/

/-- A node that is not parentless has its parent next in its lineage. -/
theorem lineage_of_parent? (hd : d.trees.Distinct) {p c : NodeId} (h : d.parent? c = some p) :
    d.lineage c = c :: d.lineage p := by
  rcases hs : d.site? c with _ | s
  · simp [parent?, hs] at h
  · rw [parent?_eq_map hs] at h
    rcases Forest.ancestors_of_siteAmong? hd hs with ha | ⟨u, hu, ha⟩
    · simp [ha] at h
    · simp only [ha, List.head?_cons, Option.map_some, Option.some.injEq] at h
      have hu' : d.site? p = some u := h ▸ hu
      simp only [lineage, hs, hu', ha, List.map_cons, h]

theorem lineage_of_parentless {c : NodeId} (hc : c ∈ d.trees.ids) (h : d.parent? c = none) :
    d.lineage c = [c] := by
  rcases hs : d.site? c with _ | s
  · exact absurd hc (site?_eq_none_iff.mp hs)
  · rw [parent?_eq_map hs, Option.map_eq_none_iff, List.head?_eq_none_iff] at h
    simp [lineage, hs, h]

theorem mem_ids_of_parent? (hd : d.trees.Distinct) {p c : NodeId} (h : d.parent? c = some p) :
    p ∈ d.trees.ids ∧ c ∈ d.trees.ids :=
  mem_ids_of_mem_children hd ((parent?_eq_some_iff hd).mp h)

/-- Induction from a node to its children. -/
theorem upward_induction (hd : d.trees.Distinct) {motive : NodeId → Prop}
    (root : ∀ c ∈ d.trees.ids, d.parent? c = none → motive c)
    (child : ∀ p c, d.parent? c = some p → motive p → motive c) :
    ∀ c ∈ d.trees.ids, motive c := by
  intro c hc
  induction hn : (d.lineage c).length generalizing c with
  | zero =>
    rcases hs : d.site? c with _ | s
    · exact absurd hc (site?_eq_none_iff.mp hs)
    · simp [lineage, hs] at hn
  | succ k ih =>
    rcases hp : d.parent? c with _ | p
    · exact root c hc hp
    · refine child p c hp (ih p (mem_ids_of_parent? hd hp).1 ?_)
      rw [lineage_of_parent? hd hp] at hn
      simpa using hn

/-- The way upward from a node goes through its lineage and ends. -/
theorem leads_upward (hd : d.trees.Distinct) {c : NodeId} (hc : c ∈ d.trees.ids) :
    Leads d.parent? (some c) (d.lineage c) := by
  refine upward_induction hd (motive := fun c => Leads d.parent? (some c) (d.lineage c))
    ?_ ?_ c hc
  · intro c hc hp
    rw [lineage_of_parentless hc hp]
    apply Leads.step
    rw [hp]
    exact Leads.stop
  · intro p c hp ih
    rw [lineage_of_parent? hd hp]
    apply Leads.step
    rw [hp]
    exact ih

/-- The lineage of a node holds the nodes in whose subtree it lies. -/
theorem mem_lineage_iff (hd : d.trees.Distinct) {a c : NodeId} (hc : c ∈ d.trees.ids) :
    a ∈ d.lineage c ↔ d.Below a c := by
  refine upward_induction hd (motive := fun c => a ∈ d.lineage c ↔ d.Below a c) ?_ ?_ c hc
  · intro c hc hp
    rw [lineage_of_parentless hc hp, List.mem_singleton]
    constructor
    · rintro rfl
      exact Relation.ReflTransGen.refl
    · intro h
      rcases Relation.ReflTransGen.cases_tail h with h | ⟨q, -, hq⟩
      · exact h.symm
      · exact absurd hq ((parent?_eq_none_iff hd).mp hp q)
  · intro p c hp ih
    rw [lineage_of_parent? hd hp, List.mem_cons, ih]
    constructor
    · rintro (rfl | h)
      · exact Relation.ReflTransGen.refl
      · exact h.tail ((parent?_eq_some_iff hd).mp hp)
    · intro h
      rcases Relation.ReflTransGen.cases_tail h with h | ⟨q, hq, hqc⟩
      · exact Or.inl h.symm
      · have hqp : d.parent? c = some q := (parent?_eq_some_iff hd).mpr hqc
        rw [hp, Option.some.injEq] at hqp
        exact Or.inr (hqp ▸ hq)

/-- The lineage grows shorter on the way upward. -/
theorem length_lineage_lt (hd : d.trees.Distinct) {a b : NodeId}
    (h : Relation.TransGen (fun c p => d.parent? c = some p) a b) :
    (d.lineage b).length < (d.lineage a).length := by
  induction h with
  | single h =>
    rw [lineage_of_parent? hd h]
    exact Nat.lt_succ_self _
  | tail _ h ih =>
    rw [lineage_of_parent? hd h] at ih
    exact Nat.lt_of_succ_lt ih

theorem exists_parentless (hd : d.trees.Distinct) {id : NodeId} (hid : id ∈ d.trees.ids) :
    ∃ top, d.parent? top = none ∧ d.Below top id := by
  refine upward_induction hd (motive := fun id => ∃ top, d.parent? top = none ∧ d.Below top id)
    ?_ ?_ id hid
  · intro c _ hp
    exact ⟨c, hp, Relation.ReflTransGen.refl⟩
  · rintro p c hp ⟨top, htop, hb⟩
    exact ⟨top, htop, hb.tail ((parent?_eq_some_iff hd).mp hp)⟩

/-- Two subtrees of parentless nodes have no node in common. -/
theorem parentless_unique (hd : d.trees.Distinct) {a b id : NodeId} (hid : id ∈ d.trees.ids)
    (ha : d.parent? a = none) (hb : d.parent? b = none) (hai : d.Below a id)
    (hbi : d.Below b id) : a = b := by
  have hstep : ∀ {top p c}, d.parent? c = some p → d.parent? top = none → d.Below top c →
      d.Below top p := by
    intro top p c hp htop h
    rcases Relation.ReflTransGen.cases_tail h with rfl | ⟨q, hq, hqc⟩
    · rw [hp] at htop
      cases htop
    · rw [← parent?_eq_some_iff hd, hp, Option.some.injEq] at hqc
      exact hqc ▸ hq
  have htop : ∀ {top c}, d.parent? c = none → d.Below top c → c = top := by
    intro top c hp h
    rcases Relation.ReflTransGen.cases_tail h with h | ⟨q, -, hq⟩
    · exact h
    · exact absurd hq ((parent?_eq_none_iff hd).mp hp q)
  refine upward_induction hd (motive := fun id => d.Below a id → d.Below b id → a = b)
    ?_ ?_ id hid hai hbi
  · intro c _ hp h1 h2
    rw [← htop hp h1, ← htop hp h2]
  · intro p c hp ih h1 h2
    exact ih (hstep hp ha h1) (hstep hp hb h2)

end Document

end MarkupTree
