-- A stack of open constructs on a chart. The chart has what each construct
-- holds so far, and after it the construct that is open in it. So it has the
-- tree of the stack, with every construct closed where it stands.
import MarkupTree.Proofs.Arena.Normalizing
import MarkupTree.Proofs.Event.Numbering

namespace MarkupTree

/-! ## What a construct holds so far -/

theorem Forest.ofTrees_append (ts us : List Tree) :
    ofTrees (ts ++ us) = (ofTrees ts).append (ofTrees us) := by
  induction ts with
  | nil => rfl
  | cons t ts ih =>
    rw [List.cons_append, ofTrees, ofTrees, ih]
    rfl

namespace Frame

variable (f : Frame) (t : Tree)

/-- The trees that have closed in the construct. -/
def closed : Forest := .ofTrees f.children.reverse

theorem closed_push : (f.push t).closed = f.closed.append t.alone := by
  rw [closed, push, List.reverse_cons, Forest.ofTrees_append]
  rfl

theorem mem_closed_push : t.node ∈ (f.push t).closed.roots := by
  rw [closed_push, Forest.roots_append]
  exact List.mem_append_right _ List.mem_cons_self

theorem mem_ids {id : NodeId} : id ∈ f.ids ↔ id = f.node.id ∨ id ∈ f.closed.ids := by
  rw [ids, Tree.ids, List.mem_cons]
  rfl

theorem closed_isEmpty : f.children.isEmpty = f.closed.roots.isEmpty := by
  rw [closed]
  cases hc : f.children.reverse with
  | nil => rw [List.reverse_eq_nil_iff.mp hc]; rfl
  | cons t ts =>
    cases hf : f.children with
    | nil => rw [hf] at hc; cases hc
    | cons => rfl

end Frame

namespace Assembly

/-- The numbers of the constructs around the innermost one. -/
def idsBelow (m : Assembly) : List NodeId := m.below.flatMap Frame.ids

variable {m : Assembly}

theorem perm_ids (m : Assembly) : m.ids.Perm (m.idsBelow ++ m.top.ids) :=
  ((List.reverse_perm m.below).flatMap_right _).append_right _

namespace Numbered

variable (h : Numbered m)

include h

theorem nodup : (m.idsBelow ++ m.top.ids).Nodup := by
  rw [← (perm_ids m).nodup_iff, h]
  exact List.nodup_range

theorem lt_of_top {id : NodeId} (hid : id ∈ m.top.ids) : id < m.size := by
  rw [← List.mem_range, ← h, (perm_ids m).mem_iff]
  exact List.mem_append_right _ hid

theorem lt_of_below {id : NodeId} (hid : id ∈ m.idsBelow) : id < m.size := by
  rw [← List.mem_range, ← h, (perm_ids m).mem_iff]
  exact List.mem_append_left _ hid

theorem top_not_below {id : NodeId} (hid : id ∈ m.top.ids) : id ∉ m.idsBelow := fun hb =>
  (List.nodup_append'.mp h.nodup).2.2 hb hid

theorem top_not_closed : m.top.node.id ∉ m.top.closed.ids :=
  (List.nodup_cons.mp (List.nodup_append'.mp h.nodup).2.1).1

theorem size_pos : 0 < m.size :=
  Nat.lt_of_le_of_lt (Nat.zero_le _) (h.lt_of_top (m.top.mem_ids.mpr (Or.inl rfl)))

end Numbered

end Assembly

namespace Chart

/-! ## Open constructs on a chart -/

variable {K L : Chart} {m : Assembly}

/-- The chart has the constructs around the open construct `inner`. -/
def HasAround (K : Chart) (inner : NodeId) : List Frame → Prop
  | [] => True
  | f :: fs =>
    (K.node? f.node.id = some f.node ∧
      K.children f.node.id = f.closed.roots.map (·.id) ++ [inner] ∧ K.Has f.closed) ∧
      K.HasAround f.node.id fs

structure HasStack (K : Chart) (m : Assembly) : Prop where
  node : K.node? m.top.node.id = some m.top.node
  children : K.children m.top.node.id = m.top.closed.roots.map (·.id)
  closed : K.Has m.top.closed
  around : K.HasAround m.top.node.id m.below

theorem HasAround.congr {inner : NodeId} {fs : List Frame} (h : K.HasAround inner fs)
    (hnode : ∀ id ∈ fs.flatMap Frame.ids, L.node? id = K.node? id)
    (hchildren : ∀ id ∈ fs.flatMap Frame.ids, L.children id = K.children id) :
    L.HasAround inner fs := by
  induction fs generalizing inner with
  | nil => trivial
  | cons f fs ih =>
    obtain ⟨⟨hn, hc, hclosed⟩, hrest⟩ := h
    rw [List.flatMap_cons] at hnode hchildren
    have hf : f.node.id ∈ f.ids ++ fs.flatMap Frame.ids :=
      List.mem_append_left _ (f.mem_ids.mpr (Or.inl rfl))
    have hsub : ∀ {id}, id ∈ f.closed.ids → id ∈ f.ids ++ fs.flatMap Frame.ids := fun hid =>
      List.mem_append_left _ (f.mem_ids.mpr (Or.inr hid))
    refine ⟨⟨(hnode _ hf).trans hn, (hchildren _ hf).trans hc, ?_⟩, ?_⟩
    · exact hclosed.congr (fun id hid => hnode id (hsub hid)) fun id hid => hchildren id (hsub hid)
    · exact ih hrest (fun id hid => hnode id (List.mem_append_right _ hid)) fun id hid =>
        hchildren id (List.mem_append_right _ hid)

/-- A chart with the stack has the tree of the stack. -/
theorem has_collapse {top : Frame} {below : List Frame}
    (htop : K.Has (Tree.alone ⟨top.node, top.closed⟩)) (h : K.HasAround top.node.id below) :
    K.Has (Assembly.collapse top below).alone := by
  induction below generalizing top with
  | nil => exact htop
  | cons f fs ih =>
    obtain ⟨⟨hn, hc, hclosed⟩, hrest⟩ := h
    refine @ih (f.push top.tree) ?_ hrest
    rw [Tree.alone, has_cons]
    refine ⟨⟨hn, ?_⟩, ?_, has_nil⟩
    · rw [Frame.closed_push, Forest.roots_append, List.map_append]
      exact hc
    · rw [Frame.closed_push, has_append]
      exact ⟨hclosed, htop⟩

theorem HasStack.collapse (h : K.HasStack m) : K.Has (Assembly.collapse m.top m.below).alone :=
  has_collapse (has_cons.mpr ⟨⟨h.node, h.children⟩, h.closed, has_nil⟩) h.around

/-- The innermost construct closes. -/
theorem HasStack.pop (h : K.HasStack m) {f : Frame} {fs : List Frame} (hb : m.below = f :: fs) :
    K.HasStack { m with top := f.push m.top.tree, below := fs } := by
  have haround := h.around
  rw [hb] at haround
  obtain ⟨⟨hn, hc, hclosed⟩, hrest⟩ := haround
  refine ⟨hn, ?_, ?_, hrest⟩
  · dsimp only
    rw [Frame.closed_push, Forest.roots_append, List.map_append]
    exact hc
  · dsimp only
    rw [Frame.closed_push, has_append]
    exact ⟨hclosed, has_cons.mpr ⟨⟨h.node, h.children⟩, h.closed, has_nil⟩⟩

/-! ## New labels of open constructs -/

section

variable (h : K.HasStack m) (hm : m.Numbered)

include h hm

theorem HasStack.relabelTop {g : Node → Node} (hg : (g m.top.node).id = m.top.node.id) :
    (K.relabel m.top.node.id g).HasStack { m with top := { m.top with node := g m.top.node } } := by
  have hself := m.top.mem_ids.mpr (Or.inl rfl)
  refine ⟨?_, ?_, ?_, ?_⟩
  · simp [hg, h.node]
  · dsimp only
    rw [hg]
    exact h.children
  · refine h.closed.congr (fun id hid => node?_relabel_of_ne ?_) fun _ _ => rfl
    exact ne_of_mem_of_not_mem hid hm.top_not_closed
  · dsimp only
    rw [hg]
    refine h.around.congr (fun id hid => node?_relabel_of_ne ?_) fun _ _ => rfl
    exact ne_of_mem_of_not_mem hid (hm.top_not_below hself)

theorem HasStack.relabelBelow {f : Frame} {fs : List Frame} (hb : m.below = f :: fs)
    {g : Node → Node} (hg : (g f.node).id = f.node.id) :
    (K.relabel f.node.id g).HasStack
      { m with below := { f with node := g f.node } :: fs } := by
  have haround := h.around
  have hnodup := hm.nodup
  rw [Assembly.idsBelow, hb, List.flatMap_cons, List.append_assoc] at hnodup
  rw [hb] at haround
  obtain ⟨⟨hn, hc, hclosed⟩, hrest⟩ := haround
  obtain ⟨hf, -, hdisj⟩ := List.nodup_append'.mp hnodup
  have hself := f.mem_ids.mpr (Or.inl rfl)
  have hout : ∀ id ∈ fs.flatMap Frame.ids ++ m.top.ids,
      (K.relabel f.node.id g).node? id = K.node? id := by
    intro id hid
    exact node?_relabel_of_ne (ne_of_mem_of_not_mem hid (hdisj hself))
  have htop : ∀ id ∈ m.top.ids, (K.relabel f.node.id g).node? id = K.node? id := fun id hid =>
    hout id (List.mem_append_right _ hid)
  refine ⟨?_, h.children, ?_, ⟨⟨?_, ?_, ?_⟩, ?_⟩⟩
  · exact (htop _ (m.top.mem_ids.mpr (Or.inl rfl))).trans h.node
  · exact h.closed.congr (fun id hid => htop id (m.top.mem_ids.mpr (Or.inr hid))) fun _ _ => rfl
  · simp [hg, hn]
  · dsimp only
    rw [hg]
    exact hc
  · refine hclosed.congr (fun id hid => node?_relabel_of_ne ?_) fun _ _ => rfl
    exact ne_of_mem_of_not_mem hid (List.nodup_cons.mp hf).1
  · dsimp only
    rw [hg]
    exact hrest.congr (fun id hid => hout id (List.mem_append_left _ hid)) fun _ _ => rfl

/-! ## New nodes -/

/-- The chart with a new last child of the innermost construct has it. -/
theorem HasStack.attach (hcount : K.count = m.size) (hnone : K.children m.size = [])
    (content : Content) (start stop : Position) :
    let n : Node := { id := m.size, content, start, stop }
    let L := (K.push content start stop).setChildren m.top.node.id
      (K.children m.top.node.id ++ [m.size])
    L.HasStack (m.leaf n) ∧ ∀ offset implied, L.HasStack (m.enter n offset implied) := by
  intro n L
  have hself := m.top.mem_ids.mpr (Or.inl rfl)
  have hnode : ∀ id, id < m.size → L.node? id = K.node? id := by
    intro id hid
    simp [L, push, hcount, Nat.ne_of_lt hid]
  have hchildren : ∀ id, id ≠ m.top.node.id → L.children id = K.children id := by
    intro id hid
    simp [L, push, hid]
  have htop : L.node? m.top.node.id = some m.top.node :=
    (hnode _ (hm.lt_of_top hself)).trans h.node
  have hlist : L.children m.top.node.id = m.top.closed.roots.map (·.id) ++ [m.size] := by
    rw [← h.children]
    simp [L]
  have hnew : L.node? m.size = some n := by simp [L, push, hcount, n]
  have hempty : L.children m.size = [] := by
    rw [hchildren _ (Nat.ne_of_gt (hm.lt_of_top hself)), hnone]
  have hclosed : L.Has m.top.closed := by
    refine h.closed.congr (fun id hid => ?_) fun id hid => ?_
    · exact hnode id (hm.lt_of_top (m.top.mem_ids.mpr (Or.inr hid)))
    · exact hchildren id fun he => hm.top_not_closed (he ▸ hid)
  have haround : L.HasAround m.top.node.id m.below := by
    refine h.around.congr (fun id hid => ?_) fun id hid => ?_
    · exact hnode id (hm.lt_of_below hid)
    · exact hchildren id fun he => hm.top_not_below hself (he ▸ hid)
  refine ⟨⟨htop, ?_, ?_, haround⟩, fun offset implied => ⟨hnew, hempty, has_nil, ?_⟩⟩
  · simp only [Assembly.leaf]
    rw [Frame.closed_push, Forest.roots_append, List.map_append]
    exact hlist
  · simp only [Assembly.leaf]
    rw [Frame.closed_push, has_append]
    exact ⟨hclosed, has_cons.mpr ⟨⟨hnew, hempty⟩, has_nil, has_nil⟩⟩
  · exact ⟨⟨htop, hlist, hclosed⟩, haround⟩

end

/-! ## The document of a stack -/

/-- A chart that has the stack and no other node is the chart of the tree of
the stack. -/
theorem HasStack.relabel_root (h : K.HasStack m) (hm : m.Numbered) (hcount : K.count = m.size)
    (hout : ∀ id, K.count ≤ id → K.node? id = none ∧ K.children id = []) (stop : Position) :
    let t := Assembly.collapse m.top m.below
    (⟨.cons { t.node with stop } t.children .nil⟩ : Document).chart =
      K.relabel Document.rootId fun n => { n with stop } := by
  have hall := h.collapse
  have hids := (Assembly.ids_collapse m.top m.below).trans hm
  generalize Assembly.collapse m.top m.below = t at hall hids
  intro t
  have hlist : t.node.id :: t.children.ids = List.range m.size := hids
  have hnodup : (t.node.id :: t.children.ids).Nodup := hlist ▸ List.nodup_range
  have hroot : t.node.id = Document.rootId := by
    obtain ⟨k, hk⟩ := Nat.exists_eq_add_of_lt hm.size_pos
    rw [Nat.zero_add] at hk
    rw [hk, List.range_succ_eq_map] at hlist
    exact (List.cons.inj hlist).1
  rw [Tree.alone, has_cons] at hall
  obtain ⟨⟨hnode, hchildren⟩, hclosed, -⟩ := hall
  have hdids : (Forest.cons { t.node with stop } t.children .nil).ids = List.range m.size := by
    rw [Forest.ids_cons, Forest.ids_nil, List.append_nil]
    exact hlist
  refine (eq_chart_of_has ?_ ?_ ?_ fun id hid => ?_).symm
  · rw [Forest.Distinct, hdids]
    exact List.nodup_range
  · refine has_cons.mpr ⟨⟨?_, hchildren⟩, hclosed.congr (fun id hid => ?_) fun _ _ => rfl, has_nil⟩
    · show (K.relabel _ _).node? t.node.id = _
      rw [node?_relabel, if_pos hroot, hnode]
      rfl
    · refine node?_relabel_of_ne (ne_of_mem_of_not_mem hid ?_)
      exact hroot ▸ (List.nodup_cons.mp hnodup).1
  · have hlen := congrArg List.length hdids
    rw [Forest.length_ids, List.length_range] at hlen
    exact hcount.trans hlen.symm
  · rw [hdids, List.mem_range, Nat.not_lt, ← hcount] at hid
    have hne : id ≠ Document.rootId := by
      refine Nat.ne_of_gt (Nat.lt_of_lt_of_le ?_ hid)
      rw [hcount]
      exact hm.size_pos
    rw [node?_relabel_of_ne hne]
    exact hout id hid

end Chart

end MarkupTree
