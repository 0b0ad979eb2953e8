-- Runs on an arena, step by step: what comes of reading a slot, of writing to
-- one, and of a run that goes on after another. A slot that is there can be
-- read and written, so no such step breaks off.
import MarkupTree.Arena

namespace MarkupTree

/-! ## Slots -/

namespace Slot

variable (side side' : Side) (id : Option NodeId) (s : Slot)

@[simp] theorem content_setBeside : (s.setBeside side id).content = s.content := by
  cases side <;> rfl

@[simp] theorem start_setBeside : (s.setBeside side id).start = s.start := by
  cases side <;> rfl

@[simp] theorem stop_setBeside : (s.setBeside side id).stop = s.stop := by
  cases side <;> rfl

@[simp] theorem parent_setBeside : (s.setBeside side id).parent = s.parent := by
  cases side <;> rfl

@[simp] theorem endChild_setBeside :
    (s.setBeside side id).endChild side' = s.endChild side' := by
  cases side <;> cases side' <;> rfl

theorem beside_setBeside :
    (s.setBeside side id).beside side' = if side' = side then id else s.beside side' := by
  cases side <;> cases side' <;> rfl

@[simp] theorem content_setEndChild : (s.setEndChild side id).content = s.content := by
  cases side <;> rfl

@[simp] theorem start_setEndChild : (s.setEndChild side id).start = s.start := by
  cases side <;> rfl

@[simp] theorem stop_setEndChild : (s.setEndChild side id).stop = s.stop := by
  cases side <;> rfl

@[simp] theorem parent_setEndChild : (s.setEndChild side id).parent = s.parent := by
  cases side <;> rfl

@[simp] theorem beside_setEndChild :
    (s.setEndChild side id).beside side' = s.beside side' := by
  cases side <;> cases side' <;> rfl

theorem endChild_setEndChild :
    (s.setEndChild side id).endChild side' = if side' = side then id else s.endChild side' := by
  cases side <;> cases side' <;> rfl

/-- A slot is its content, its span and its links. -/
theorem ext_links {s t : Slot} (content : s.content = t.content) (start : s.start = t.start)
    (stop : s.stop = t.stop) (parent : s.parent = t.parent)
    (beside : ∀ side, s.beside side = t.beside side)
    (endChild : ∀ side, s.endChild side = t.endChild side) : s = t := by
  obtain ⟨_, _, _, _, _, _, _, _⟩ := s
  obtain ⟨_, _, _, _, _, _, _, _⟩ := t
  have hp : _ = _ := beside .before
  have hn : _ = _ := beside .after
  have hf : _ = _ := endChild .before
  have hl : _ = _ := endChild .after
  simp only [Slot.beside, Slot.endChild] at content start stop parent hp hn hf hl
  subst_vars
  rfl

end Slot

@[simp] theorem Side.opposite_opposite (side : Side) : side.opposite.opposite = side := by
  cases side <;> rfl

theorem Side.opposite_ne (side : Side) : side.opposite ≠ side := by
  cases side <;> exact fun h => nomatch h

theorem Side.eq_or_opposite (side other : Side) : other = side ∨ other = side.opposite := by
  cases side <;> cases other <;> simp [opposite]

namespace Arena

variable {a : Arena} {id : NodeId} {f : Slot → Slot}

theorem slot?_isSome_iff : (a.slot? id).isSome = true ↔ id < a.count := by
  simp [slot?, count]

theorem exists_slot (h : id < a.count) : ∃ s, a.slot? id = some s :=
  Option.isSome_iff_exists.mp (slot?_isSome_iff.mpr h)

theorem lt_of_slot {s : Slot} (h : a.slot? id = some s) : id < a.count :=
  slot?_isSome_iff.mp (by rw [h]; rfl)

theorem node?_isSome_iff : (a.node? id).isSome = true ↔ id < a.count := by
  rw [node?, Option.isSome_map, slot?_isSome_iff]

theorem lt_of_parent {p : NodeId} (h : a.parent? id = some p) : id < a.count := by
  obtain ⟨s, hs, -⟩ := Option.bind_eq_some_iff.mp h
  exact lt_of_slot hs

theorem lt_of_endChild {side : Side} {c : NodeId} (h : a.endChild? side id = some c) :
    id < a.count := by
  obtain ⟨s, hs, -⟩ := Option.bind_eq_some_iff.mp h
  exact lt_of_slot hs

/-! ## Changes -/

@[simp] theorem count_change : (a.change id f).count = a.count := by
  simp [count, change]

theorem slot?_change (other : NodeId) :
    (a.change id f).slot? other = if id = other then (a.slot? other).map f else a.slot? other := by
  rw [slot?, change, List.getElem?_modify]
  split <;> simp [slot?]

theorem slot?_change_self : (a.change id f).slot? id = (a.slot? id).map f := by
  rw [slot?_change, if_pos rfl]

/-- What is read off a slot that the change leaves as it is. -/
theorem bind_slot?_change {β : Type} {read : Slot → Option β} (hf : ∀ s, read (f s) = read s)
    (other : NodeId) : ((a.change id f).slot? other).bind read = (a.slot? other).bind read := by
  rw [slot?_change]
  split
  · rw [Option.bind_map]
    exact congrArg _ (funext hf)
  · rfl

theorem node?_change (hc : ∀ s, (f s).content = s.content) (hs : ∀ s, (f s).start = s.start)
    (ht : ∀ s, (f s).stop = s.stop) (other : NodeId) :
    (a.change id f).node? other = a.node? other := by
  rw [node?, slot?_change]
  split
  · rw [Option.map_map, node?]
    congr 1
    funext s
    simp [Slot.label, hc, hs, ht]
  · rfl

end Arena

/-! ## Steps -/

namespace Editing

variable {α β : Type} {m : Editing α} {f : α → Editing β} {a b : Arena} {id : NodeId}

@[simp] theorem on_pure (x : α) : (pure x : Editing α).on a = some (.ok x, a) := rfl

@[simp] theorem on_throw (e : EditError) : (throw e : Editing α).on a = some (.error e, a) := rfl

/-- A run goes on after one that is not refused. -/
theorem on_bind {x : α} (h : m.on a = some (.ok x, b)) : (m >>= f).on a = (f x).on b := by
  have h' : ExceptT.run m a = some (.ok x, b) := h
  simp [on, StateT.run, bind, ExceptT.bind, ExceptT.run, ExceptT.mk, StateT.bind] at h' ⊢
  rw [h']
  rfl

/-- A refusal ends the run. -/
theorem on_bind_refused {e : EditError} (h : m.on a = some (.error e, b)) :
    (m >>= f).on a = some (.error e, b) := by
  have h' : ExceptT.run m a = some (.error e, b) := h
  simp [on, StateT.run, bind, ExceptT.bind, ExceptT.run, ExceptT.mk, StateT.bind] at h' ⊢
  rw [h']
  rfl

/-! A loop, by the outcome of its first turn -/

section

variable {σ : Type} {l : Loop σ} {s : σ}

theorem on_loop {place : Option σ} (h : (l.turn s).on a = some (.ok place, b)) :
    (l.run (some s)).on a = (l.run place).on b := by
  rw [Loop.run, on_bind h]

theorem on_loop_end (h : (l.turn s).on a = some (.ok none, b)) :
    (l.run (some s)).on a = some (.ok (), b) := by
  rw [on_loop h, Loop.run]
  rfl

theorem on_loop_refused {e : EditError} (h : (l.turn s).on a = some (.error e, b)) :
    (l.run (some s)).on a = some (.error e, b) := by
  rw [Loop.run, on_bind_refused h]

end

theorem on_get : (get : Editing Arena).on a = some (.ok a, a) := rfl

theorem on_modify (g : Arena → Arena) : (modify g : Editing Unit).on a = some (.ok (), g a) := rfl

theorem on_data {s : Slot} (h : a.slot? id = some s) : (data id).on a = some (.ok s, a) := by
  rw [data, on_bind on_get, h]
  rfl

theorem on_change (h : id < a.count) (g : Slot → Slot) :
    (change id g).on a = some (.ok (), a.change id g) := by
  obtain ⟨s, hs⟩ := Arena.exists_slot h
  rw [change, on_bind (on_data hs), on_modify]

theorem on_alloc (content : Content) (start stop : Position) :
    (alloc content start stop).on a =
      some (.ok a.count, a.push { content, start, stop }) := by
  rw [alloc, on_bind on_get, on_bind (on_modify _), on_pure]

end Editing

end MarkupTree
