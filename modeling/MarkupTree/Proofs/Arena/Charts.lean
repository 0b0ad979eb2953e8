-- A chart of a document gives the label of each node and the list of its
-- children, and no links. An arena shows a chart if its links say the same:
-- each child leads to its parent and to its neighbours in the list, and each
-- parent to the ends of its list. A chart leaves nothing open: two arenas
-- that show it are equal.
import MarkupTree.Proofs.Arena.Runs
import Mathlib.Data.List.Nodup

namespace MarkupTree

/-! ## Lists read from either end -/

namespace Side

/-- The list as one meets it on the way toward that side. -/
def toward {α : Type} (side : Side) (l : List α) : List α :=
  match side with
  | .before => l.reverse
  | .after => l

variable {α : Type} (side : Side) (l l' : List α)

@[simp] theorem toward_nil : side.toward ([] : List α) = [] := by
  cases side <;> rfl

theorem toward_opposite : side.opposite.toward l = (side.toward l).reverse := by
  cases side <;> simp [toward, opposite]

@[simp] theorem toward_toward : side.toward (side.toward l) = l := by
  cases side <;> simp [toward]

@[simp] theorem mem_toward {x : α} : x ∈ side.toward l ↔ x ∈ l := by
  cases side <;> simp [toward]

@[simp] theorem nodup_toward : (side.toward l).Nodup ↔ l.Nodup := by
  cases side <;> simp [toward]

theorem toward_filter (p : α → Bool) : side.toward (l.filter p) = (side.toward l).filter p := by
  cases side <;> simp [toward, List.filter_reverse]

end Side

/-- The labels of a document and its lists of children. -/
@[ext] structure Chart where
  count : Nat
  node? : NodeId → Option Node
  children : NodeId → List NodeId

namespace Chart

/-- The chart with each list edited, as the number of its node tells. -/
def editLists (g : NodeId → List NodeId → List NodeId) (K : Chart) : Chart :=
  { K with children := fun p => g p (K.children p) }

/-- The chart with `c` taken out of every list. -/
def without (c : NodeId) (K : Chart) : Chart := K.editLists fun _ l => l.filter (· != c)

@[simp] theorem children_without (c p : NodeId) (K : Chart) :
    (K.without c).children p = (K.children p).filter (· != c) := rfl

/-- The chart with another list of children for `p`. -/
def setChildren (p : NodeId) (l : List NodeId) (K : Chart) : Chart :=
  { K with children := fun q => if q = p then l else K.children q }

@[simp] theorem children_setChildren (p q : NodeId) (l : List NodeId) (K : Chart) :
    (K.setChildren p l).children q = if q = p then l else K.children q := rfl

@[simp] theorem node?_setChildren (p id : NodeId) (l : List NodeId) (K : Chart) :
    (K.setChildren p l).node? id = K.node? id := rfl

/-- The chart with another label for `id`. -/
def relabel (id : NodeId) (g : Node → Node) (K : Chart) : Chart :=
  { K with node? := fun other => if other = id then (K.node? other).map g else K.node? other }

@[simp] theorem node?_relabel (id other : NodeId) (g : Node → Node) (K : Chart) :
    (K.relabel id g).node? other =
      if other = id then (K.node? other).map g else K.node? other := rfl

theorem node?_relabel_of_ne {id other : NodeId} (h : other ≠ id) {g : Node → Node} {K : Chart} :
    (K.relabel id g).node? other = K.node? other := if_neg h

@[simp] theorem children_relabel (id p : NodeId) (g : Node → Node) (K : Chart) :
    (K.relabel id g).children p = K.children p := rfl

theorem relabel_relabel (id : NodeId) (g g' : Node → Node) (K : Chart) :
    (K.relabel id g).relabel id g' = K.relabel id fun n => g' (g n) := by
  refine Chart.ext rfl (funext fun other => ?_) rfl
  dsimp only [relabel]
  split
  · rw [Option.map_map]
    rfl
  · rfl

/-- Two new labels are the same if they give the node the same one. -/
theorem relabel_congr {id : NodeId} {g g' : Node → Node} {K : Chart}
    (h : ∀ n, K.node? id = some n → g n = g' n) : K.relabel id g = K.relabel id g' := by
  refine Chart.ext rfl (funext fun other => ?_) rfl
  dsimp only [relabel]
  split
  · subst other
    cases hn : K.node? id with
    | none => rfl
    | some n => exact congrArg some (h n hn)
  · rfl

/-- The chart with a new node that has no children. -/
def push (content : Content) (start stop : Position) (K : Chart) : Chart :=
  { K with
    count := K.count + 1
    node? := fun id =>
      if id = K.count then some { id, content, start, stop } else K.node? id }

end Chart

namespace Arena

structure Shows (a : Arena) (K : Chart) : Prop where
  count : a.count = K.count
  node : ∀ id, a.node? id = K.node? id
  nodup : ∀ p, (K.children p).Nodup
  endChild : ∀ side p, a.endChild? side p = (side.toward (K.children p)).getLast?
  parent : ∀ {p c}, c ∈ K.children p → a.parent? c = some p
  beside : ∀ {side p c xs ys}, side.toward (K.children p) = xs ++ c :: ys →
    a.beside? side c = ys.head?
  /-- A node that is nobody's child has no links but those to its children. -/
  alone : ∀ {c}, (∀ p, c ∉ K.children p) → a.parent? c = none ∧ ∀ side, a.beside? side c = none

namespace Shows

variable {a : Arena} {K : Chart} (h : a.Shows K)

include h

/-! ## The links agree with each other -/

theorem next {p c : NodeId} {xs ys : List NodeId} (hl : K.children p = xs ++ c :: ys) :
    a.beside? .after c = ys.head? :=
  h.beside (show Side.after.toward (K.children p) = xs ++ c :: ys from hl)

theorem parent_iff {p c : NodeId} : a.parent? c = some p ↔ c ∈ K.children p := by
  refine ⟨fun hp => ?_, h.parent⟩
  by_contra hc
  by_cases hall : ∀ q, c ∉ K.children q
  · rw [(h.alone hall).1] at hp
    cases hp
  · obtain ⟨q, hq⟩ := not_forall_not.mp hall
    rw [h.parent hq, Option.some.injEq] at hp
    exact hc (hp ▸ hq)

theorem parent?_eq_none_iff {c : NodeId} : a.parent? c = none ↔ ∀ p, c ∉ K.children p := by
  rw [Option.eq_none_iff_forall_ne_some]
  exact forall_congr' fun p => not_congr h.parent_iff

theorem child_lt {p c : NodeId} (hc : c ∈ K.children p) : c < a.count := lt_of_parent (h.parent hc)

theorem parent_lt {p c : NodeId} (hc : c ∈ K.children p) : p < a.count := by
  rcases hl : (K.children p).getLast? with _ | z
  · rw [List.getLast?_eq_none_iff.mp hl] at hc
    cases hc
  · have hend := h.endChild .after p
    rw [Side.toward, hl] at hend
    exact lt_of_endChild hend

/-- A node that has a neighbour stands beside it in the list of their parent. -/
theorem split_of_beside {side : Side} {c other : NodeId} (hb : a.beside? side c = some other) :
    ∃ p xs ys, side.toward (K.children p) = xs ++ c :: other :: ys := by
  by_cases hall : ∀ p, c ∉ K.children p
  · rw [(h.alone hall).2] at hb
    cases hb
  · obtain ⟨p, hp⟩ := not_forall_not.mp hall
    obtain ⟨xs, ys, hsplit⟩ := List.append_of_mem ((side.mem_toward _).mpr hp)
    rw [h.beside hsplit] at hb
    obtain ⟨ys', rfl⟩ := List.head?_eq_some_iff.mp hb
    exact ⟨p, xs, ys', hsplit⟩

theorem beside_opposite {side : Side} {c other : NodeId} (hb : a.beside? side c = some other) :
    a.beside? side.opposite other = some c := by
  obtain ⟨p, xs, ys, hsplit⟩ := h.split_of_beside hb
  have hback : side.opposite.toward (K.children p) = ys.reverse ++ other :: c :: xs.reverse := by
    rw [Side.toward_opposite, hsplit]
    simp
  rw [h.beside hback]
  rfl

/-- The neighbour on one side has the node as its neighbour on the other. -/
theorem beside_iff {side : Side} {c other : NodeId} :
    a.beside? side.opposite other = some c ↔ a.beside? side c = some other := by
  refine ⟨fun hb => ?_, h.beside_opposite⟩
  have hb' := h.beside_opposite hb
  rwa [Side.opposite_opposite] at hb'

theorem beside_lt {side : Side} {c other : NodeId} (hb : a.beside? side c = some other) :
    other < a.count := by
  obtain ⟨p, xs, ys, hsplit⟩ := h.split_of_beside hb
  apply h.child_lt (p := p)
  rw [← side.mem_toward, hsplit]
  simp

/-- The last child toward a side is the child without a neighbour there. -/
theorem endChild_iff {side : Side} {p c : NodeId} :
    a.endChild? side p = some c ↔ a.parent? c = some p ∧ a.beside? side c = none := by
  rw [h.endChild, h.parent_iff]
  constructor
  · intro hc
    obtain ⟨xs, hxs⟩ := List.getLast?_eq_some_iff.mp hc
    refine ⟨(side.mem_toward _).mp (hxs ▸ by simp), ?_⟩
    rw [h.beside hxs]
    rfl
  · rintro ⟨hc, hnone⟩
    obtain ⟨xs, ys, hsplit⟩ := List.append_of_mem ((side.mem_toward _).mpr hc)
    rw [h.beside hsplit, List.head?_eq_none_iff] at hnone
    rw [hsplit, hnone]
    simp

/-! ## Nothing is left open -/

/-- Where two charts agree about a node and the lists it is in, it has the same
slot in both arenas. -/
theorem slot?_congr {b : Arena} {L : Chart} (h' : b.Shows L) {id : NodeId}
    (hnode : L.node? id = K.node? id) (hchildren : L.children id = K.children id)
    (hlist : ∀ p, id ∈ K.children p → L.children p = K.children p)
    (hnone : ∀ p, id ∈ L.children p → id ∈ K.children p) : b.slot? id = a.slot? id := by
  have hlabel : b.node? id = a.node? id := (h'.node id).trans (hnode.trans (h.node id).symm)
  have hup : b.parent? id = a.parent? id := by
    refine Option.ext fun p => h'.parent_iff.trans (Iff.trans ?_ h.parent_iff.symm)
    exact ⟨hnone p, fun hp => hlist p hp ▸ hp⟩
  have hbeside : ∀ side, b.beside? side id = a.beside? side id := by
    intro side
    by_cases hall : ∀ p, id ∉ K.children p
    · rw [(h.alone hall).2, (h'.alone fun p hp => hall p (hnone p hp)).2]
    · obtain ⟨p, hp⟩ := not_forall_not.mp hall
      obtain ⟨xs, ys, hsplit⟩ := List.append_of_mem ((side.mem_toward _).mpr hp)
      rw [h.beside hsplit, h'.beside ((congrArg side.toward (hlist p hp)).trans hsplit)]
  have hend : ∀ side, b.endChild? side id = a.endChild? side id := fun side => by
    rw [h'.endChild, h.endChild, hchildren]
  unfold node? parent? beside? endChild? at *
  rcases hs : a.slot? id with _ | s
  · rw [hs, Option.map_none, Option.map_eq_none_iff] at hlabel
    exact hlabel
  · rw [hs, Option.map_some, Option.map_eq_some_iff] at hlabel
    obtain ⟨t, ht, hlabel⟩ := hlabel
    rw [Slot.label, Slot.label, Node.mk.injEq] at hlabel
    rw [ht] at hup hbeside hend ⊢
    rw [hs] at hup hbeside hend
    exact congrArg some (Slot.ext_links hlabel.2.1 hlabel.2.2.1 hlabel.2.2.2 hup hbeside hend)

/-- Two arenas that show the same chart are equal. -/
theorem unique {b : Arena} (h' : b.Shows K) : b = a := by
  have hslots : b.slots = a.slots := List.ext_getElem? fun id =>
    h.slot?_congr h' rfl rfl (fun _ _ => rfl) fun _ hp => hp
  cases a
  cases b
  exact congrArg Arena.mk hslots

end Shows

/-- An arena shows as well what is the same chart. -/
theorem Shows.congr {a : Arena} {K L : Chart} (h : a.Shows K) (hKL : L = K) : a.Shows L := hKL ▸ h

/-! ## New nodes and new labels -/

variable {a : Arena} {K : Chart}

theorem slot?_push (s : Slot) (id : NodeId) :
    (a.push s).slot? id = if id = a.count then some s else a.slot? id := by
  unfold slot? push count
  by_cases hid : id = a.slots.length
  · simp [hid]
  · rw [if_neg hid]
    rcases Nat.lt_or_gt_of_ne hid with hlt | hgt
    · exact List.getElem?_append_left hlt
    · rw [List.getElem?_eq_none (Nat.le_of_lt hgt), List.getElem?_eq_none]
      rw [List.length_append, List.length_singleton]
      exact hgt

/-- What is read off a new slot is read off a slot that is not there. -/
theorem bind_slot?_push {β : Type} {read : Slot → Option β} {s : Slot} (hs : read s = none)
    (id : NodeId) : ((a.push s).slot? id).bind read = (a.slot? id).bind read := by
  rw [slot?_push]
  by_cases hid : id = a.count
  · subst hid
    have hnone : a.slot? a.count = none := List.getElem?_eq_none (Nat.le_refl _)
    simp [hs, hnone]
  · rw [if_neg hid]

/-- A new slot is a new node that stands alone. -/
theorem Shows.push (h : a.Shows K) (content : Content) (start stop : Position) :
    (a.push { content, start, stop }).Shows (K.push content start stop) where
  count := by
    rw [Chart.push, ← h.count]
    simp [Arena.push, Arena.count]
  node id := by
    rw [node?, slot?_push, Chart.push, ← h.count]
    by_cases hid : id = a.count
    · simp [hid, Slot.label]
    · simp only [if_neg hid]
      exact h.node id
  nodup := h.nodup
  endChild side p := by
    rw [endChild?, bind_slot?_push (by cases side <;> rfl)]
    exact h.endChild side p
  parent hc := by
    rw [parent?, bind_slot?_push rfl]
    exact h.parent hc
  beside {side _ _ _ _} hsplit := by
    rw [beside?, bind_slot?_push (by cases side <;> rfl)]
    exact h.beside hsplit
  alone hall := by
    refine ⟨?_, fun side => ?_⟩
    · rw [parent?, bind_slot?_push rfl]
      exact (h.alone hall).1
    · rw [beside?, bind_slot?_push (by cases side <;> rfl)]
      exact (h.alone hall).2 side

/-- A change of a slot that leaves its links is another label. -/
theorem Shows.relabel (h : a.Shows K) {id : NodeId} {f : Slot → Slot} {g : Node → Node}
    (hparent : ∀ s, (f s).parent = s.parent) (hbeside : ∀ side s, (f s).beside side = s.beside side)
    (hendChild : ∀ side s, (f s).endChild side = s.endChild side)
    (hg : ∀ s, (f s).label id = g (s.label id)) : (a.change id f).Shows (K.relabel id g) where
  count := count_change.trans h.count
  node other := by
    rw [node?, slot?_change, Chart.relabel]
    dsimp only
    rw [← h.node]
    by_cases ho : id = other
    · subst ho
      rw [if_pos rfl, if_pos rfl, node?, Option.map_map, Option.map_map]
      exact congrArg (Option.map · _) (funext hg)
    · rw [if_neg ho, if_neg (Ne.symm ho), node?]
  nodup := h.nodup
  endChild side p := (bind_slot?_change (hendChild side) p).trans (h.endChild side p)
  parent hc := (bind_slot?_change hparent _).trans (h.parent hc)
  beside {side _ _ _ _} hsplit := (bind_slot?_change (hbeside side) _).trans (h.beside hsplit)
  alone hall := ⟨(bind_slot?_change hparent _).trans (h.alone hall).1,
    fun side => (bind_slot?_change (hbeside side) _).trans ((h.alone hall).2 side)⟩

theorem Shows.withContent (h : a.Shows K) (id : NodeId) (f : Content → Content) :
    (a.change id fun s => s.withContent (f s.content)).Shows
      (K.relabel id fun n => { n with content := f n.content }) :=
  h.relabel (fun _ => rfl) (fun side _ => by cases side <;> rfl)
    (fun side _ => by cases side <;> rfl) fun _ => rfl

theorem Shows.withStop (h : a.Shows K) (id : NodeId) (stop : Position) :
    (a.change id fun s => { s with stop }).Shows (K.relabel id fun n => { n with stop }) :=
  h.relabel (fun _ => rfl) (fun side _ => by cases side <;> rfl)
    (fun side _ => by cases side <;> rfl) fun _ => rfl

end Arena

end MarkupTree
