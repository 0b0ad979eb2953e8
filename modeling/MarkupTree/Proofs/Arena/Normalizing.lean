-- Normalising an arena beside normalising the document that it shows. The walk
-- over a row of siblings merges the row and all that stands below it, and
-- comes back to the nodes that were on the stack before. So the walk ends, it
-- misses no row, and no node on its stack has gone when its turn comes.
import MarkupTree.Proofs.Arena.Edits
import MarkupTree.Proofs.Arena.Merging

namespace MarkupTree

namespace Chart

/-! ## A forest on a chart -/

/-- The chart has the nodes of the forest, with their children. -/
def Has (K : Chart) (f : Forest) : Prop :=
  ∀ r ∈ f.rows, K.node? r.node.id = some r.node ∧ K.children r.node.id = r.children.map (·.id)

variable {K L : Chart} {f g : Forest}

@[simp] theorem has_nil : K.Has .nil := fun _ hr => nomatch hr

theorem has_cons {n : Node} {cs rest : Forest} :
    K.Has (.cons n cs rest) ↔
      (K.node? n.id = some n ∧ K.children n.id = cs.roots.map (·.id)) ∧ K.Has cs ∧ K.Has rest := by
  unfold Has
  rw [Forest.rows_cons, List.forall_mem_cons, List.forall_mem_append]

theorem has_append : K.Has (f.append g) ↔ K.Has f ∧ K.Has g := by
  unfold Has
  rw [Forest.rows_append, List.forall_mem_append]

theorem Has.root (h : K.Has f) {n : Node} (hn : n ∈ f.roots) : K.node? n.id = some n := by
  induction f with
  | nil => cases hn
  | cons m cs rest _ ih =>
    obtain ⟨⟨hm, -⟩, -, hrest⟩ := has_cons.mp h
    rcases List.mem_cons.mp hn with rfl | hn
    · exact hm
    · exact ih hrest hn

/-- What the chart tells of the nodes of the forest is all that counts. -/
theorem Has.congr (h : K.Has f) (hnode : ∀ id ∈ f.ids, L.node? id = K.node? id)
    (hchildren : ∀ id ∈ f.ids, L.children id = K.children id) : L.Has f := by
  intro r hr
  have hid : r.node.id ∈ f.ids := List.mem_map_of_mem (Forest.node_mem_nodes hr)
  rw [hnode _ hid, hchildren _ hid]
  exact h r hr

theorem has_chart {d : Document} (hd : d.trees.Distinct) : d.chart.Has d.trees := fun _ hr =>
  ⟨Document.node?_of_mem_nodes hd (Forest.node_mem_nodes hr), Document.children_of_mem_rows hd hr⟩

/-- A chart that has all of a document, and nothing else, is its chart. -/
theorem eq_chart_of_has {d : Document} (hd : d.trees.Distinct) (h : K.Has d.trees)
    (hcount : K.count = d.nodeCount)
    (hout : ∀ id ∉ d.trees.ids, K.node? id = none ∧ K.children id = []) : K = d.chart := by
  have hrow : ∀ id ∈ d.trees.ids, K.node? id = d.node? id ∧ K.children id = d.children id := by
    intro id hid
    rw [← Forest.map_id_rows] at hid
    obtain ⟨r, hr, rfl⟩ := List.mem_map.mp hid
    obtain ⟨hnode, hchildren⟩ := h r hr
    obtain ⟨hnode', hchildren'⟩ := has_chart hd r hr
    exact ⟨hnode.trans hnode'.symm, hchildren.trans hchildren'.symm⟩
  refine Chart.ext hcount (funext fun id => ?_) (funext fun id => ?_)
  · by_cases hid : id ∈ d.trees.ids
    · exact (hrow id hid).1
    · rw [(hout id hid).1]
      exact (Option.not_isSome_iff_eq_none.mp fun h => hid (Document.node?_isSome_iff.mp h)).symm
  · by_cases hid : id ∈ d.trees.ids
    · exact (hrow id hid).2
    · rw [(hout id hid).2]
      exact (Document.children_of_not_mem hid).symm

end Chart

/-- What is left of the siblings after a text, or after no text. -/
def Siblings.left (afterText : Bool) (l : List Node) : List Node :=
  if afterText then l.dropWhile Node.isText else l

theorem Siblings.left_absorbed {n : Node} {afterText : Bool} (h : (n.isText && afterText) = true)
    (l : List Node) : left afterText (n :: l) = left afterText l := by
  obtain ⟨hn, rfl⟩ := Bool.and_eq_true_iff.mp h
  simp [left, hn]

theorem Siblings.left_kept {n : Node} {afterText : Bool} (h : (n.isText && afterText) = false)
    (l : List Node) : left afterText (n :: l) = n :: l := by
  cases afterText
  · rfl
  · rw [Bool.and_true] at h
    simp [left, h]

/-- Goes on with the nodes that are pending, the first one first. -/
def Editing.resume (pending : List NodeId) : Editing Unit :=
  walking.run (popped pending)

namespace Arena

variable {a b : Arena} {K : Chart} {p : NodeId}

/-- The chart after the turn of the node `n`, which has merged the texts after
it. -/
def turned (K : Chart) (p : NodeId) (pre : List NodeId) (n : Node) (rest : Forest) : Chart :=
  (K.setChildren p (pre ++ n.id :: (Siblings.left n.isText rest.roots).map (·.id))).relabel n.id
    fun _ => Forest.label n rest

theorem turned_of_other {pre : List NodeId} {n : Node} {rest : Forest}
    (hn : K.node? n.id = some n) (hl : K.children p = pre ++ n.id :: rest.roots.map (·.id))
    (ht : n.isText = false) : turned K p pre n rest = K := by
  refine Chart.ext rfl (funext fun id => ?_) (funext fun q => ?_)
  · dsimp only [turned, Chart.relabel, Chart.setChildren]
    rw [Forest.label_of_other ht]
    split
    · subst id
      rw [hn]
      rfl
    · rfl
  · dsimp only [turned, Chart.relabel, Chart.setChildren]
    split
    · subst q
      rw [hl, ht]
      rfl
    · rfl

/-- The turn of a node leaves the nodes below it and after it alone. -/
theorem has_turned {pre : List NodeId} {n : Node} {rest f : Forest} (hf : K.Has f)
    (hn : n.id ∉ f.ids) (hp : p ∉ f.ids) : (turned K p pre n rest).Has f := by
  refine hf.congr (fun id hid => ?_) fun id hid => ?_
  · have hne : id ≠ n.id := fun he => hn (he ▸ hid)
    simp [turned, hne]
  · have hne : id ≠ p := fun he => hp (he ▸ hid)
    simp [turned, hne]

theorem on_mergeAt (h : a.Shows K) {pre : List NodeId} {n : Node} {rest : Forest}
    (hn : K.node? n.id = some n) (hl : K.children p = pre ++ n.id :: rest.roots.map (·.id))
    (hrest : K.Has rest) :
    ∃ b, (Editing.mergeAt n.id).on a = some (.ok (), b) ∧ b.Shows (turned K p pre n rest) := by
  obtain ⟨s, hs, hsn⟩ := Option.map_eq_some_iff.mp ((h.node n.id).trans hn)
  have hkind : s.content.kind = n.kind := congrArg Node.kind hsn
  rw [Editing.mergeAt, Editing.on_bind (Editing.on_data hs), hkind]
  by_cases ht : n.kind = .text
  · have ht' : n.isText = true := beq_iff_eq.mpr ht
    obtain ⟨b, hb, hshows⟩ := on_mergeFollowing h hn ht' hl fun m hm => hrest.root hm
    refine ⟨b, by rw [if_pos ht]; exact hb, hshows.congr ?_⟩
    rw [turned, mergedAt, Siblings.left, Forest.label, if_pos ht', if_pos ht']
  · have ht' : n.isText = false := beq_eq_false_iff_ne.mpr ht
    exact ⟨a, by rw [if_neg ht]; rfl, h.congr (turned_of_other hn hl ht')⟩

/-- One turn of the walk: the texts after the node are merged, and the first
child and the next sibling are pending. -/
theorem on_turn (h : a.Shows K) {pre : List NodeId} {n : Node} {rest : Forest}
    (hn : K.node? n.id = some n) (hl : K.children p = pre ++ n.id :: rest.roots.map (·.id))
    (hrest : K.Has rest) (hp : n.id ≠ p) (stack : List NodeId) :
    ∃ b, (Editing.resume (n.id :: stack)).on a =
        (Editing.resume ((K.children n.id).head?.toList ++
          (((Siblings.left n.isText rest.roots).map (·.id)).head?.toList ++ stack))).on b ∧
      b.Shows (turned K p pre n rest) := by
  obtain ⟨b, hb, hshows⟩ := on_mergeAt h hn hl hrest
  refine ⟨b, ?_, hshows⟩
  have hlist : (turned K p pre n rest).children p =
      pre ++ n.id :: (Siblings.left n.isText rest.roots).map (·.id) := by
    simp [turned]
  have hchildren : (turned K p pre n rest).children n.id = K.children n.id := by
    simp [turned, hp]
  have hnext := hshows.next hlist
  have hfirst := hshows.endChild .before n.id
  rw [Side.toward, List.getLast?_reverse, hchildren] at hfirst
  have hid : n.id < b.count := hshows.child_lt (p := p) (by rw [hlist]; simp)
  obtain ⟨s, hs⟩ := exists_slot hid
  have hsnext : s.next = ((Siblings.left n.isText rest.roots).map (·.id)).head? := by
    rw [beside?, hs] at hnext
    exact hnext
  have hsfirst : s.firstChild = (K.children n.id).head? := by
    rw [endChild?, hs] at hfirst
    exact hfirst
  have hturn : (Editing.walking.turn (n.id, stack)).on a = some (.ok (Editing.popped
      ((K.children n.id).head?.toList ++
        (((Siblings.left n.isText rest.roots).map (·.id)).head?.toList ++ stack))), b) := by
    rw [Editing.walking, Editing.on_bind hb, Editing.on_bind (Editing.on_data hs)]
    dsimp only
    rw [hsnext, hsfirst]
    cases (K.children n.id).head? with
    | none => rfl
    | some c => rfl
  exact Editing.on_loop hturn

/-- The chart `L` is left of `K` by the walk over the row `f` below `p`, which
stands after the list `pre`. -/
structure Visited (K : Chart) (p : NodeId) (pre : List NodeId) (afterText : Bool) (f : Forest)
    (L : Chart) : Prop where
  count : L.count = K.count
  kept : L.Has (f.kept afterText)
  absorbed : L.Has (f.absorbed afterText)
  list : L.children p = pre ++ (f.kept afterText).roots.map (·.id)
  node : ∀ id ∉ f.ids, L.node? id = K.node? id
  children : ∀ id ∉ f.ids, id ≠ p → L.children id = K.children id

namespace Visited

variable {L M N : Chart} {pre : List NodeId} {n : Node} {cs rest f : Forest} {afterText : Bool}

/-- A text after a text has been absorbed before its turn comes. -/
theorem absorb (hv : Visited K p pre true rest L) (hn : K.Has (.cons n cs rest))
    (hd : (Forest.cons n cs rest).Distinct) (hp : p ∉ (Forest.cons n cs rest).ids)
    (ht : n.isText = true) : Visited K p pre true (.cons n cs rest) L := by
  obtain ⟨⟨hnode, hchildren⟩, hcs, -⟩ := Chart.has_cons.mp hn
  obtain ⟨-, hnrest, -, -, hdisj⟩ := Forest.distinct_cons.mp hd
  rw [Forest.ids_cons, List.mem_cons, List.mem_append, not_or, not_or] at hp
  have hcond : (n.isText && true) = true := by rw [ht, Bool.and_self]
  have hout : ∀ id ∈ cs.ids, id ∉ rest.ids := fun id hc hr => hdisj hc hr
  refine ⟨hv.count, ?_, ?_, ?_, fun id hid => ?_, fun id hid hidp => ?_⟩
  · rw [Forest.kept_cons, if_pos hcond]
    exact hv.kept
  · rw [Forest.absorbed_cons, if_pos hcond, Chart.has_cons]
    refine ⟨⟨?_, ?_⟩, hcs.congr (fun id hid => ?_) fun id hid => ?_, hv.absorbed⟩
    · rw [hv.node _ hnrest, hnode]
    · rw [hv.children _ hnrest (Ne.symm hp.1), hchildren]
    · exact hv.node _ (hout id hid)
    · exact hv.children _ (hout id hid) fun he => hp.2.1 (he ▸ hid)
  · rw [Forest.kept_cons, if_pos hcond]
    exact hv.list
  · rw [Forest.ids_cons, List.mem_cons, List.mem_append, not_or, not_or] at hid
    exact hv.node _ hid.2.2
  · rw [Forest.ids_cons, List.mem_cons, List.mem_append, not_or, not_or] at hid
    exact hv.children _ hid.2.2 hidp

/-- The turn of a node is followed by the walk over its children and then by
the walk over the rest of its row. -/
theorem keep (hn : K.Has (.cons n cs rest)) (hd : (Forest.cons n cs rest).Distinct)
    (hp : p ∉ (Forest.cons n cs rest).ids) (ht : (n.isText && afterText) = false)
    (hcs : Visited (turned K p pre n rest) n.id [] false cs L)
    (hrest : Visited L p (pre ++ [n.id]) n.isText rest M) :
    Visited K p pre afterText (.cons n cs rest) M := by
  obtain ⟨⟨hnode, -⟩, -, -⟩ := Chart.has_cons.mp hn
  obtain ⟨hncs, hnrest, -, -, hdisj⟩ := Forest.distinct_cons.mp hd
  rw [Forest.ids_cons, List.mem_cons, List.mem_append, not_or, not_or] at hp
  have hout : ∀ id ∈ cs.ids, id ∉ rest.ids := fun id hc hr => hdisj hc hr
  have hcsp : ∀ id ∈ cs.ids, id ≠ p := fun id hc he => hp.2.1 (he ▸ hc)
  have hlabel : M.node? n.id = some (Forest.label n rest) := by
    rw [hrest.node _ hnrest, hcs.node _ hncs]
    simp [turned, hnode]
  have hchildren : M.children n.id = (cs.kept false).roots.map (·.id) := by
    rw [hrest.children _ hnrest (Ne.symm hp.1), hcs.list, List.nil_append]
  refine ⟨hrest.count.trans hcs.count, ?_, ?_, ?_, fun id hid => ?_, fun id hid hidp => ?_⟩
  · rw [Forest.kept_cons, if_neg (by simp [ht]), Chart.has_cons, Forest.id_label]
    refine ⟨⟨hlabel, hchildren⟩, hcs.kept.congr (fun id hid => ?_) fun id hid => ?_, hrest.kept⟩
    · exact hrest.node _ (hout id (Forest.kept_ids_subset false cs hid))
    · have hid' := Forest.kept_ids_subset false cs hid
      exact hrest.children _ (hout id hid') (hcsp id hid')
  · rw [Forest.absorbed_cons, if_neg (by simp [ht]), Chart.has_append]
    refine ⟨hcs.absorbed.congr (fun id hid => ?_) fun id hid => ?_, hrest.absorbed⟩
    · exact hrest.node _ (hout id (Forest.absorbed_ids_subset false cs hid))
    · have hid' := Forest.absorbed_ids_subset false cs hid
      exact hrest.children _ (hout id hid') (hcsp id hid')
  · rw [hrest.list, Forest.kept_cons, if_neg (by simp [ht]), Forest.roots, List.map_cons,
      Forest.id_label, List.append_assoc]
    rfl
  · rw [Forest.ids_cons, List.mem_cons, List.mem_append, not_or, not_or] at hid
    rw [hrest.node _ hid.2.2, hcs.node _ hid.2.1]
    simp [turned, hid.1]
  · rw [Forest.ids_cons, List.mem_cons, List.mem_append, not_or, not_or] at hid
    rw [hrest.children _ hid.2.2 hidp, hcs.children _ hid.2.1 hid.1]
    simp [turned, hidp]

end Visited

/-- The walk over a row comes back to what was pending. -/
theorem on_row {f : Forest} (afterText : Bool) (h : a.Shows K) {pre : List NodeId}
    (hl : K.children p = pre ++ (Siblings.left afterText f.roots).map (·.id)) (hf : K.Has f)
    (hd : f.Distinct) (hp : p ∉ f.ids) (stack : List NodeId) :
    ∃ b L, (Editing.resume
        (((Siblings.left afterText f.roots).map (·.id)).head?.toList ++ stack)).on a =
        (Editing.resume stack).on b ∧ b.Shows L ∧ Visited K p pre afterText f L := by
  induction f generalizing a K p pre afterText stack with
  | nil =>
    have hleft : Siblings.left afterText (Forest.roots .nil) = [] := by cases afterText <;> rfl
    rw [hleft] at hl ⊢
    refine ⟨a, K, rfl, h, rfl, ?_, Chart.has_nil, ?_, fun _ _ => rfl, fun _ _ _ => rfl⟩
    · rw [Forest.kept_nil]
      exact Chart.has_nil
    · rw [hl, Forest.kept_nil]
      rfl
  | cons n cs rest ihc ihr =>
    obtain ⟨hncs, hnrest, hdc, hdr, hdisj⟩ := Forest.distinct_cons.mp hd
    obtain ⟨⟨hnode, hchildren⟩, hcs, hrest⟩ := Chart.has_cons.mp hf
    have hp' := hp
    rw [Forest.ids_cons, List.mem_cons, List.mem_append, not_or, not_or] at hp'
    rw [Forest.roots] at hl ⊢
    cases ht : n.isText && afterText with
    | true =>
      rw [Siblings.left_absorbed ht] at hl ⊢
      obtain ⟨htext, rfl⟩ := Bool.and_eq_true_iff.mp ht
      obtain ⟨b, L, hrun, hshows, hv⟩ := ihr true h hl hrest hdr hp'.2.2 stack
      exact ⟨b, L, hrun, hshows, hv.absorb hf hd hp htext⟩
    | false =>
      rw [Siblings.left_kept ht, List.map_cons] at hl ⊢
      obtain ⟨b, hrun, hshows⟩ := on_turn h hnode hl hrest (Ne.symm hp'.1) stack
      have hlist : (turned K p pre n rest).children n.id =
          [] ++ (Siblings.left false cs.roots).map (·.id) := by
        rw [turned, Chart.children_relabel, Chart.children_setChildren, if_neg (Ne.symm hp'.1),
          hchildren]
        rfl
      obtain ⟨b', L, hrun', hshows', hv⟩ := ihc false hshows hlist
        (has_turned hcs hncs hp'.2.1) hdc hncs
        (((Siblings.left n.isText rest.roots).map (·.id)).head?.toList ++ stack)
      have hlist' : L.children p =
          (pre ++ [n.id]) ++ (Siblings.left n.isText rest.roots).map (·.id) := by
        rw [hv.children p hp'.2.1 hp'.1]
        simp [turned]
      have hrest' : L.Has rest := by
        have hturned : (turned K p pre n rest).Has rest := has_turned hrest hnrest hp'.2.2
        refine hturned.congr (fun id hid => ?_) fun id hid => ?_
        · exact hv.node id fun hc => hdisj hc hid
        · exact hv.children id (fun hc => hdisj hc hid) fun he => hnrest (he ▸ hid)
      obtain ⟨b'', M, hrun'', hshows'', hv'⟩ := ihr n.isText hshows' hlist' hrest' hdr hp'.2.2 stack
      refine ⟨b'', M, ?_, hshows'', hv.keep hf hd hp ht hv'⟩
      rw [List.head?_cons, Option.toList_some, List.singleton_append, hrun, hchildren]
      exact hrun'.trans hrun''

/-- The walk over all below the root leaves the chart of the normalised
document. -/
theorem chart_normalize_of_visited {d : Document} (hd : d.trees.Distinct) {root : Node}
    {body rest : Forest} (ht : d.trees = .cons root body rest) {L : Chart}
    (hv : Visited d.chart root.id [] false body L) : d.normalize.chart = L := by
  have hall := Chart.has_chart hd
  have hdistinct := hd
  rw [ht, Chart.has_cons] at hall
  rw [ht, Forest.distinct_cons] at hdistinct
  obtain ⟨⟨hroot, -⟩, -, hrest⟩ := hall
  obtain ⟨hrb, hrr, -, -, hdisj⟩ := hdistinct
  have hperm := Document.ids_normalize ht
  refine (Chart.eq_chart_of_has (hperm.nodup_iff.mpr hd) ?_ ?_ fun id hi => ?_).symm
  · rw [Document.trees_normalize ht, Chart.has_cons, Chart.has_append]
    refine ⟨⟨?_, hv.list⟩, hv.kept, ?_, hv.absorbed⟩
    · rw [hv.node _ hrb, hroot]
    · refine hrest.congr (fun id hr => hv.node _ fun hb => hdisj hb hr) fun id hr => ?_
      exact hv.children _ (fun hb => hdisj hb hr) fun he => hrr (he ▸ hr)
  · rw [hv.count, Document.nodeCount_normalize ht]
    rfl
  · have hi' : id ∉ d.trees.ids := fun hm => hi (hperm.symm.subset hm)
    have hout := hi'
    rw [ht, Forest.ids_cons, List.mem_cons, List.mem_append, not_or, not_or] at hout
    rw [hv.node _ hout.2.1, hv.children _ hout.2.1 hout.1]
    exact ⟨Option.not_isSome_iff_eq_none.mp fun hm => hi' (Document.node?_isSome_iff.mp hm),
      Document.children_of_not_mem hi'⟩

/-- Normalising comes to an end, and the arena then shows the normalised
document. -/
theorem on_normalize {d : Document} (h : a.Shows d.chart) (hd : Document.Grounded d) :
    ∃ b, Editing.normalize.on a = some (.ok (), b) ∧ b.Shows d.normalize.chart := by
  obtain ⟨root, body, rest, ht, hid⟩ := hd.exists_root
  have hall := Chart.has_chart hd.distinct
  have hdistinct := hd.distinct
  rw [ht, Chart.has_cons] at hall
  rw [ht, Forest.distinct_cons] at hdistinct
  obtain ⟨⟨hroot, hchildren⟩, hbody, -⟩ := hall
  obtain ⟨hrb, -, hdb, -, -⟩ := hdistinct
  obtain ⟨s, hs, -⟩ := h.slot_of_node (p := root.id) hroot
  have hfirst := h.endChild .before root.id
  rw [endChild?, hs, Side.toward, List.getLast?_reverse, hchildren] at hfirst
  obtain ⟨b, L, hrun, hshows, hv⟩ := @on_row _ _ _ body false h [] hchildren hbody hdb hrb []
  refine ⟨b, ?_, hshows.congr (chart_normalize_of_visited hd.distinct ht hv)⟩
  rw [Editing.normalize, ← hid, Editing.on_bind (Editing.on_data hs),
    show s.firstChild = (body.roots.map (·.id)).head? from hfirst]
  have hend : (Editing.resume []).on b = some (.ok (), b) := by
    rw [Editing.resume, Editing.popped, Editing.Loop.run]
    rfl
  rw [List.append_nil, hend] at hrun
  rw [← hrun, Siblings.left, if_neg Bool.false_ne_true]
  cases (body.roots.map (·.id)).head? <;> rfl

end Arena

end MarkupTree
