-- A rose is a tree of labels. The rose of a tree keeps one label of each node
-- and leaves the rest of the node out, so trees that differ in numbers or in
-- positions only can have the same rose.
import MarkupTree.Forest

namespace MarkupTree

inductive Rose (α : Type)
  | node (label : α) (children : List (Rose α))
  deriving Repr

namespace Rose

variable {α : Type}

def label : Rose α → α
  | .node l _ => l

def children : Rose α → List (Rose α)
  | .node _ cs => cs

mutual

/-- The rose with each label changed. -/
def map {β : Type} (g : α → β) : Rose α → Rose β
  | .node l cs => .node (g l) (mapRow g cs)

/-- The row of roses with each label changed. -/
def mapRow {β : Type} (g : α → β) : List (Rose α) → List (Rose β)
  | [] => []
  | r :: rs => r.map g :: mapRow g rs

end

theorem mapRow_eq {β : Type} (g : α → β) (rs : List (Rose α)) : mapRow g rs = rs.map (map g) := by
  induction rs with
  | nil => rfl
  | cons r rs ih => rw [mapRow, ih, List.map_cons]

theorem label_map {β : Type} (g : α → β) (r : Rose α) : (r.map g).label = g r.label := by
  cases r
  rfl

theorem children_map {β : Type} (g : α → β) (r : Rose α) :
    (r.map g).children = mapRow g r.children := by
  cases r
  rfl

mutual

theorem map_map {β γ : Type} (g : β → γ) (f : α → β) :
    (r : Rose α) → (r.map f).map g = r.map (g ∘ f)
  | .node l cs => by
    rw [map, map, map, mapRow_mapRow g f cs]
    rfl

theorem mapRow_mapRow {β γ : Type} (g : β → γ) (f : α → β) :
    (rs : List (Rose α)) → mapRow g (mapRow f rs) = mapRow (g ∘ f) rs
  | [] => rfl
  | r :: rs => by rw [mapRow, mapRow, mapRow, map_map g f r, mapRow_mapRow g f rs]

end

/-! ## Roses below roses -/

mutual

/-- The rose and every rose below it, each before its children. -/
def subroses : Rose α → List (Rose α)
  | .node l cs => .node l cs :: subrosesRow cs

/-- The roses of the row and every rose below them. -/
def subrosesRow : List (Rose α) → List (Rose α)
  | [] => []
  | r :: rs => r.subroses ++ subrosesRow rs

end

theorem mem_subroses (r : Rose α) : r ∈ r.subroses := by
  cases r
  exact List.mem_cons_self

theorem subrosesRow_append (rs qs : List (Rose α)) :
    subrosesRow (rs ++ qs) = subrosesRow rs ++ subrosesRow qs := by
  induction rs with
  | nil => rfl
  | cons r rs ih => rw [List.cons_append, subrosesRow, subrosesRow, ih, List.append_assoc]

mutual

theorem subroses_map {β : Type} (g : α → β) :
    (r : Rose α) → (r.map g).subroses = r.subroses.map (map g)
  | .node l cs => by
    rw [map, subroses, subroses, List.map_cons, subrosesRow_mapRow g cs, map]

theorem subrosesRow_mapRow {β : Type} (g : α → β) :
    (rs : List (Rose α)) → subrosesRow (mapRow g rs) = (subrosesRow rs).map (map g)
  | [] => rfl
  | r :: rs => by
    rw [mapRow, subrosesRow, subrosesRow, List.map_append, subroses_map g r,
      subrosesRow_mapRow g rs]

end

theorem mem_subrosesRow {q : Rose α} {rs : List (Rose α)} :
    q ∈ subrosesRow rs ↔ ∃ r ∈ rs, q ∈ r.subroses := by
  induction rs with
  | nil => simp [subrosesRow]
  | cons r rs ih => simp [subrosesRow, ih]

theorem mem_subroses_children {q r : Rose α} (h : q ∈ r.children) : q ∈ r.subroses := by
  cases r
  exact List.mem_cons_of_mem _ (mem_subrosesRow.mpr ⟨q, h, mem_subroses q⟩)

theorem subset_subrosesRow (rs : List (Rose α)) : rs ⊆ subrosesRow rs :=
  fun r hr => mem_subrosesRow.mpr ⟨r, hr, mem_subroses r⟩

mutual

theorem subroses_trans {q r : Rose α} :
    (t : Rose α) → r ∈ t.subroses → q ∈ r.subroses → q ∈ t.subroses
  | .node l cs, hr, hq => by
    rcases List.mem_cons.mp hr with rfl | hr
    · exact hq
    · exact List.mem_cons_of_mem _ (subrosesRow_trans cs hr hq)

theorem subrosesRow_trans {q r : Rose α} :
    (rs : List (Rose α)) → r ∈ subrosesRow rs → q ∈ r.subroses → q ∈ subrosesRow rs
  | t :: rs, hr, hq => by
    rcases List.mem_append.mp hr with hr | hr
    · exact List.mem_append_left _ (subroses_trans t hr hq)
    · exact List.mem_append_right _ (subrosesRow_trans rs hr hq)

end

/-- What stands below a rose of the row stands below the row. -/
theorem subrosesRow_children {rs : List (Rose α)} {q r : Rose α}
    (hr : r ∈ subrosesRow rs) (hq : q ∈ subrosesRow r.children) : q ∈ subrosesRow rs := by
  refine subrosesRow_trans rs hr ?_
  cases r
  exact List.mem_cons_of_mem _ hq

end Rose

namespace Forest

variable {α : Type}

/-- The roses of the trees, with the labels that `f` gives to the nodes. -/
def roses (f : Node → α) : Forest → List (Rose α)
  | .nil => []
  | .cons n cs rest => .node (f n) (cs.roses f) :: rest.roses f

theorem isEmpty_roses (f : Node → α) (g : Forest) : (g.roses f).isEmpty = g.isEmpty := by
  cases g <;> rfl

theorem eq_nil_of_roses {f : Node → α} {g : Forest} (h : g.roses f = []) : g = .nil := by
  cases g with
  | nil => rfl
  | cons => cases h

theorem mapRow_roses {β : Type} (g : α → β) (f : Node → α) (h : Forest) :
    Rose.mapRow g (h.roses f) = h.roses (g ∘ f) := by
  induction h with
  | nil => rfl
  | cons n cs rest ihc ihr =>
    simp only [roses, Rose.mapRow, Rose.map, ihc, ihr, Function.comp_apply]

end Forest

namespace Tree

/-- The rose of a tree, with the labels that `f` gives to the nodes. -/
def rose {α : Type} (f : Node → α) (t : Tree) : Rose α := .node (f t.node) (t.children.roses f)

theorem map_rose {α β : Type} (g : α → β) (f : Node → α) (t : Tree) :
    (t.rose f).map g = t.rose (g ∘ f) := by
  rw [rose, Rose.map, Forest.mapRow_roses]
  rfl

end Tree

namespace Forest

variable {α : Type}

/-- A row of roses is that of a first tree and those of the rest. -/
theorem exists_of_roses_cons {f : Node → α} {g : Forest} {r : Rose α} {rs : List (Rose α)}
    (h : g.roses f = r :: rs) :
    ∃ n cs rest, g = .cons n cs rest ∧ (Tree.mk n cs).rose f = r ∧ rest.roses f = rs := by
  cases g with
  | nil => cases h
  | cons n cs rest =>
    obtain ⟨hfirst, hrest⟩ := List.cons.inj h
    exact ⟨n, cs, rest, rfl, hfirst, hrest⟩

theorem roses_ofTrees (f : Node → α) (ts : List Tree) :
    (ofTrees ts).roses f = ts.map (Tree.rose f) := by
  induction ts with
  | nil => rfl
  | cons t ts ih =>
    rw [ofTrees, roses, ih, List.map_cons]
    rfl

end Forest

end MarkupTree
