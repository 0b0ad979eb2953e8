-- The charts of documents. A document gives a label and a list of children to
-- each of its nodes, so it has a chart, and each edit of the document is an
-- edit of its chart.
import MarkupTree.Proofs.Arena.Charts
import MarkupTree.Proofs.Document.Effects

namespace MarkupTree

namespace Document

def chart (d : Document) : Chart where
  count := d.nodeCount
  node? := d.node?
  children := d.children

variable {d d' : Document}

theorem Grounded.mem_ids_iff (h : Grounded d) {id : NodeId} :
    id ∈ d.trees.ids ↔ id < d.nodeCount := by
  rw [h.numbered.mem_iff, List.mem_range]

theorem Grounded.contains_eq (h : Grounded d) (id : NodeId) :
    d.contains id = decide (id < d.nodeCount) := by
  rw [Bool.eq_iff_iff, Document.contains_iff, h.mem_ids_iff, decide_eq_true_iff]

/-- The root is nobody's child. -/
theorem Grounded.root_not_child (h : Grounded d) (p : NodeId) : rootId ∉ d.children p := by
  obtain ⟨root, hroot, hid⟩ := h.rooted
  rw [Forest.first?_eq] at hroot
  rw [mem_children_iff h.distinct, ← hid]
  exact Forest.root_not_child h.distinct (List.mem_of_mem_head? hroot)

/-! ## Moves -/

/-- An edit of the rows is an edit of the lists. -/
theorem Rearranged.chart {edit : Row → Row} (hr : Rearranged edit d d') (hd : d.trees.Distinct)
    {g : NodeId → List NodeId → List NodeId}
    (hg : ∀ r ∈ d.trees.rows, (edit r).children.map (·.id) = g r.node.id (r.children.map (·.id)))
    (hnil : ∀ q ∉ d.trees.ids, g q [] = []) :
    d'.chart = d.chart.editLists g := by
  refine Chart.ext hr.nodeCount (funext (hr.node? hd)) (funext fun q => ?_)
  dsimp only [Document.chart, Chart.editLists]
  by_cases hq : q ∈ d.trees.ids
  · rw [← Forest.map_id_rows] at hq
    obtain ⟨r, hm, rfl⟩ := List.mem_map.mp hq
    rw [hr.children hd hm, children_of_mem_rows hd hm, hg r hm]
  · have hq' : q ∉ d'.trees.ids := fun hm => hq (hr.ids.subset hm)
    rw [children_of_not_mem hq, children_of_not_mem hq', hnil q hq]

theorem chart_detach (h : Grounded d) {c : NodeId} (hok : d.detach c = .ok d') :
    d'.chart = d.chart.without c :=
  (detach_ok h hok).2.chart h.distinct (g := fun _ l => l.filter (· != c))
    (fun r _ => Siblings.map_id_without c r.children) fun _ _ => rfl

theorem id_of_node? (hd : d.trees.Distinct) {id : NodeId} {n : Node} (hn : d.node? id = some n) :
    n.id = id := ((node?_eq_some_iff hd).mp hn).2

theorem chart_insertInto (h : Grounded d) (side : Side) {p c : NodeId}
    (hok : d.insertInto side p c = .ok d') :
    d'.chart = (d.chart.without c).setChildren p
      (Siblings.around side c ((d.chart.without c).children p)) := by
  obtain ⟨m, n, hi, hr⟩ := insertInto_ok h side hok
  have hc := id_of_node? h.distinct hi.child
  have hp := mem_ids_of_node? hi.parent
  have hchart := hr.chart h.distinct
    (g := fun q l => if q = p then Siblings.around side c (l.filter (· != c))
      else l.filter (· != c)) ?_ ?_
  · rw [hchart]
    refine Chart.ext rfl rfl (funext fun q => ?_)
    dsimp only [Chart.editLists, Chart.setChildren]
    split
    · subst q
      rfl
    · rfl
  · intro r _
    rw [Function.comp_apply, Row.children_editAt, Row.node_edit]
    split
    · rw [Siblings.map_around, hc]
      exact congrArg _ (Siblings.map_id_without c r.children)
    · exact Siblings.map_id_without c r.children
  · intro q hq
    rw [if_neg fun he : q = p => hq (he ▸ hp)]
    rfl

/-- The list of the parent of `a`, cut at `a` on the way toward a side. -/
theorem chart_insertBeside (h : Grounded d) (side : Side) {a c : NodeId} (hne : a ≠ c)
    (hok : d.insertBeside side a c = .ok d') :
    ∃ p us vs, d.parent? a = some p ∧
      side.toward ((d.chart.without c).children p) = us ++ a :: vs ∧
      d'.chart = (d.chart.without c).setChildren p (side.toward (us ++ a :: c :: vs)) := by
  obtain ⟨p, m, n, hp, hi, hr⟩ := insertBeside_ok h side hne hok
  have hd := h.distinct
  have hn := id_of_node? hd hi.child
  have ha := (parent?_eq_some_iff hd).mp hp
  obtain ⟨r, hm, rfl, -⟩ := (mem_children_iff hd).mp ha
  have hold : (d.chart.without c).children r.node.id =
      (Siblings.without c r.children).map (·.id) := by
    rw [Siblings.map_id_without, ← children_of_mem_rows hd hm]
    rfl
  have haw : a ∈ (Siblings.without c r.children).map (·.id) := by
    rw [← hold]
    exact List.mem_filter.mpr ⟨ha, by simpa using hne⟩
  obtain ⟨xs, b, ys, hsplit, rfl, hnew⟩ := Siblings.beside_split side (n := n) haw
  have hchildren : ∀ q, d'.children q =
      if q = r.node.id then (xs ++ (side.pair n b ++ ys)).map (·.id)
      else (d.children q).filter (· != c) := by
    intro q
    split
    · rename_i hq
      rw [hq, hr.children hd hm, Function.comp_apply, Row.edit, ← hnew]
      rfl
    · rename_i hq
      refine hr.children_eq hd (g := fun l => l.filter (· != c)) rfl fun s hs hsq => ?_
      rw [Function.comp_apply, ← Siblings.map_id_without]
      refine congrArg _ (Siblings.beside_of_not_mem fun hb => hq ?_)
      rw [Row.edit, Siblings.map_id_without, List.mem_filter] at hb
      rw [← hsq]
      exact (row_of_parent? hd hp hs hb.1)
  rw [hsplit] at hold
  have hchart : d'.chart = (d.chart.without c).setChildren r.node.id
      ((xs ++ (side.pair n b ++ ys)).map (·.id)) :=
    Chart.ext hr.nodeCount (funext (hr.node? hd)) (funext hchildren)
  cases side with
  | before =>
    refine ⟨_, (ys.map (·.id)).reverse, (xs.map (·.id)).reverse, hp, ?_, ?_⟩
    · rw [hold]
      simp [Side.toward]
    · rw [hchart]
      simp [Side.toward, Side.pair, hn]
  | after =>
    refine ⟨_, xs.map (·.id), ys.map (·.id), hp, ?_, ?_⟩
    · rw [hold]
      simp [Side.toward]
    · rw [hchart]
      simp [Side.toward, Side.pair, hn]

/-! ## New nodes and new labels -/

theorem tree?_create {k : Kind} {id : NodeId} (hok : d.create k = .ok (id, d')) (other : NodeId) :
    d'.tree? other = (d.tree? other).or
      (if d.nodeCount = other then some ⟨d.newNode k, .nil⟩ else none) := by
  obtain ⟨-, -, ht⟩ := create_ok hok
  unfold tree?
  rw [ht, Forest.tree?_append]
  rfl

theorem chart_create (h : Grounded d) {k : Kind} {id : NodeId} (hok : d.create k = .ok (id, d')) :
    d'.chart = d.chart.push (.ofKind k) .unknown .unknown := by
  have hfresh : d.tree? d.nodeCount = none :=
    Forest.tree?_eq_none_iff.mpr fun hm => Nat.lt_irrefl _ (h.mem_ids_iff.mp hm)
  refine Chart.ext (nodeCount_create hok) (funext fun other => ?_) (funext fun other => ?_)
  · dsimp only [chart, Chart.push]
    rw [node?, tree?_create hok]
    by_cases ho : other = d.nodeCount
    · subst ho
      simp [hfresh, newNode]
    · rw [if_neg ho, if_neg (Ne.symm ho), Option.or_none]
      rfl
  · dsimp only [chart, Chart.push]
    unfold children
    rw [tree?_create hok]
    by_cases ho : other = d.nodeCount
    · subst ho
      rw [hfresh, if_pos rfl]
      rfl
    · rw [if_neg (Ne.symm ho), Option.or_none]

theorem chart_modify {id : NodeId} {g : Node → Node} (hg : ∀ n, (g n).id = n.id)
    (ht : d'.trees = d.trees.modify id g) : d'.chart = d.chart.relabel id g := by
  have htree : ∀ other, d'.tree? other = (d.tree? other).map fun t =>
      ⟨if other = id then g t.node else t.node, t.children.modify id g⟩ := by
    intro other
    rw [tree?, ht, Forest.tree?_modify hg]
    rfl
  refine Chart.ext ?_ (funext fun other => ?_) (funext fun other => ?_)
  · dsimp only [chart, Chart.relabel, nodeCount]
    rw [ht, Forest.size_modify]
  · dsimp only [chart, Chart.relabel, node?]
    rw [htree, Option.map_map]
    split
    · rw [Option.map_map]
      rfl
    · rfl
  · dsimp only [chart, Chart.relabel, children]
    rw [htree]
    cases d.tree? other with
    | none => rfl
    | some t =>
      dsimp only [Option.map_some]
      rw [Forest.roots_modify, List.map_map]
      refine List.map_congr_left fun n _ => ?_
      dsimp only [Function.comp_apply]
      split
      · exact hg n
      · rfl

end Document

namespace Arena

theorem children_new (p : NodeId) : Document.new.chart.children p = [] := by
  unfold Document.chart Document.children Document.tree? Document.new Forest.tree?
  dsimp only
  by_cases hp : Document.rootId = p
  · rw [if_pos hp]
    rfl
  · rw [if_neg hp]
    rfl

theorem slot?_new (id : NodeId) :
    Arena.new.slot? id = if id = Document.rootId then Arena.new.slots.head? else none := by
  cases id <;> rfl

/-- In the new arena no slot has a link. -/
theorem bind_slot?_new {β : Type} {read : Slot → Option β}
    (hread : ∀ s ∈ Arena.new.slots, read s = none) (id : NodeId) :
    (Arena.new.slot? id).bind read = none := by
  rw [slot?_new]
  split
  · exact hread _ List.mem_cons_self
  · rfl

/-- The new arena shows the new document. -/
theorem shows_new : Arena.new.Shows Document.new.chart where
  count := rfl
  node id := by
    rw [node?, slot?_new]
    show _ = ((Document.new.trees.tree? id).map (·.node))
    unfold Document.new Forest.tree?
    by_cases hid : id = Document.rootId
    · subst hid
      rfl
    · rw [if_neg hid, if_neg (Ne.symm hid)]
      rfl
  nodup p := by
    rw [children_new]
    exact List.nodup_nil
  endChild side p := by
    rw [endChild?, bind_slot?_new (by cases side <;> simp [Arena.new, Slot.endChild])]
    rw [children_new, Side.toward_nil]
    rfl
  parent hc := by
    rw [children_new] at hc
    cases hc
  beside hsplit := by
    rw [children_new, Side.toward_nil] at hsplit
    exact absurd hsplit.symm (List.append_ne_nil_of_right_ne_nil _ (List.cons_ne_nil _ _))
  alone _ := ⟨bind_slot?_new (by simp [Arena.new]) _,
    fun side => bind_slot?_new (by cases side <;> simp [Arena.new, Slot.beside]) _⟩

end Arena

end MarkupTree
