-- What the writes of links do to the chart that an arena shows. To unlink a
-- node takes it out of its list, to link one puts it into a list at one place,
-- and every other list stays.
import MarkupTree.Arena.Edit
import MarkupTree.Proofs.Arena.Charts
import MarkupTree.Proofs.Forest.Changes

namespace MarkupTree

namespace Arena

variable {a b : Arena} {K : Chart} {id : NodeId}

/-! ## Single writes -/

section

variable {side : Side} {v : Option NodeId}

@[simp] theorem node?_setBeside (other : NodeId) :
    (a.change id (Slot.setBeside side v)).node? other = a.node? other :=
  node?_change (fun s => by simp) (fun s => by simp) (fun s => by simp) other

@[simp] theorem parent?_setBeside (other : NodeId) :
    (a.change id (Slot.setBeside side v)).parent? other = a.parent? other :=
  bind_slot?_change (fun s => by simp) other

@[simp] theorem endChild?_setBeside (side' : Side) (other : NodeId) :
    (a.change id (Slot.setBeside side v)).endChild? side' other = a.endChild? side' other :=
  bind_slot?_change (fun s => by simp) other

theorem beside?_setBeside (hid : id < a.count) (side' : Side) (other : NodeId) :
    (a.change id (Slot.setBeside side v)).beside? side' other =
      if id = other ∧ side' = side then v else a.beside? side' other := by
  obtain ⟨s, hs⟩ := exists_slot hid
  rw [beside?, slot?_change]
  by_cases ho : id = other
  · subst ho
    simp [hs, beside?, Slot.beside_setBeside]
  · simp [ho, beside?]

@[simp] theorem node?_setEndChild (other : NodeId) :
    (a.change id (Slot.setEndChild side v)).node? other = a.node? other :=
  node?_change (fun s => by simp) (fun s => by simp) (fun s => by simp) other

@[simp] theorem parent?_setEndChild (other : NodeId) :
    (a.change id (Slot.setEndChild side v)).parent? other = a.parent? other :=
  bind_slot?_change (fun s => by simp) other

@[simp] theorem beside?_setEndChild (side' : Side) (other : NodeId) :
    (a.change id (Slot.setEndChild side v)).beside? side' other = a.beside? side' other :=
  bind_slot?_change (fun s => by simp) other

theorem endChild?_setEndChild (hid : id < a.count) (side' : Side) (other : NodeId) :
    (a.change id (Slot.setEndChild side v)).endChild? side' other =
      if id = other ∧ side' = side then v else a.endChild? side' other := by
  obtain ⟨s, hs⟩ := exists_slot hid
  rw [endChild?, slot?_change]
  by_cases ho : id = other
  · subst ho
    simp [hs, endChild?, Slot.endChild_setEndChild]
  · simp [ho, endChild?]

end

/-! ## The link that leads to a place -/

/-- `c` is `b`, but the link that leads to a place from that side has the
target. -/
structure Led (side : Side) (neighbour above target : Option NodeId) (b c : Arena) : Prop where
  count : c.count = b.count
  node : ∀ id, c.node? id = b.node? id
  parent : ∀ id, c.parent? id = b.parent? id
  beside : ∀ side' id, c.beside? side' id =
    if side' = side.opposite ∧ neighbour = some id then target else b.beside? side' id
  endChild : ∀ side' id, c.endChild? side' id =
    if side' = side ∧ neighbour = none ∧ above = some id then target else b.endChild? side' id

theorem on_lead (side : Side) (neighbour above target : Option NodeId)
    (hn : ∀ id, neighbour = some id → id < b.count) (hp : ∀ id, above = some id → id < b.count) :
    ∃ c, (Editing.lead side neighbour above target).on b = some (.ok (), c) ∧
      Led side neighbour above target b c := by
  unfold Editing.lead
  rcases neighbour with _ | other
  · rcases above with _ | p
    · exact ⟨b, rfl, rfl, fun _ => rfl, fun _ => rfl, by simp, by simp⟩
    · refine ⟨_, Editing.on_change (hp p rfl) _, by simp, by simp, by simp, by simp,
        fun side' q => ?_⟩
      simp [endChild?_setEndChild (hp p rfl), and_comm]
  · refine ⟨_, Editing.on_change (hn other rfl) _, by simp, by simp, by simp, fun side' x => ?_,
      by simp⟩
    simp [beside?_setBeside (hn other rfl), and_comm]

/-! ## Taking a node out -/

/-- The node `id` is cut off from its row, and its neighbours are led to each
other. -/
structure Unlinked (a : Arena) (id : NodeId) (b : Arena) : Prop where
  count : b.count = a.count
  node : ∀ other, b.node? other = a.node? other
  parent : ∀ other, b.parent? other = if other = id then none else a.parent? other
  beside : ∀ side other, b.beside? side other =
    if other = id then none
    else if a.beside? side.opposite id = some other then a.beside? side id
    else a.beside? side other
  endChild : ∀ side other, b.endChild? side other =
    if a.beside? side id = none ∧ a.parent? id = some other then a.beside? side.opposite id
    else a.endChild? side other

theorem on_unlink (h : a.Shows K) (hid : id < a.count) :
    ∃ b, (Editing.unlink id).on a = some (.ok (), b) ∧ Unlinked a id b := by
  obtain ⟨s, hs⟩ := exists_slot hid
  have hbefore : a.beside? .before id = s.previous := by rw [beside?, hs]; rfl
  have hafter : a.beside? .after id = s.next := by rw [beside?, hs]; rfl
  have hparent : a.parent? id = s.parent := by rw [parent?, hs]; rfl
  have hparent_lt : ∀ p, s.parent = some p → p < a.count := fun p hp =>
    h.parent_lt (h.parent_iff.mp (hparent.trans hp))
  obtain ⟨b, hb, hab⟩ := on_lead .before s.previous s.parent s.next
    (fun x hx => h.beside_lt (hbefore.trans hx)) hparent_lt
  obtain ⟨c, hc, hbc⟩ := on_lead .after s.next s.parent s.previous
    (fun x hx => hab.count ▸ h.beside_lt (hafter.trans hx)) fun p hp => hab.count ▸ hparent_lt p hp
  have hcid : id < c.count := by rwa [hbc.count, hab.count]
  obtain ⟨t, ht⟩ := exists_slot hcid
  refine ⟨c.change id fun s => { s with parent := none, previous := none, next := none },
    ?_, ?_, ?_, ?_, ?_, ?_⟩
  · rw [Editing.unlink, Editing.on_bind (Editing.on_data hs), Editing.on_bind hb,
      Editing.on_bind hc, Editing.on_change hcid]
  · rw [count_change, hbc.count, hab.count]
  · intro other
    have hnode := @node?_change c id
      (fun s => { s with parent := none, previous := none, next := none })
      (fun _ => rfl) (fun _ => rfl) (fun _ => rfl) other
    exact hnode.trans ((hbc.node other).trans (hab.node other))
  · intro other
    rw [parent?, slot?_change]
    by_cases ho : id = other
    · subst ho
      simp [ht]
    · rw [if_neg ho, if_neg (Ne.symm ho), ← parent?, hbc.parent, hab.parent]
  · intro side other
    rw [beside?, slot?_change]
    by_cases ho : id = other
    · subst ho
      cases side <;> simp [ht, Slot.beside]
    · rw [if_neg ho, if_neg (Ne.symm ho), ← beside?, hbc.beside, hab.beside]
      cases side <;> simp [Side.opposite, hbefore, hafter]
  · intro side other
    rw [endChild?, bind_slot?_change (fun s => by cases side <;> rfl), ← endChild?, hbc.endChild,
      hab.endChild]
    cases side <;> simp [Side.opposite, hbefore, hafter, hparent]

theorem filter_of_not_mem {l : List NodeId} (hc : id ∉ l) : l.filter (· != id) = l :=
  List.filter_eq_self.mpr fun _ hx => bne_iff_ne.mpr fun he => hc (he ▸ hx)

theorem filter_middle {us vs : List NodeId} (hnd : (us ++ id :: vs).Nodup) :
    (us ++ id :: vs).filter (· != id) = us ++ vs := by
  rw [List.nodup_middle, List.nodup_cons, List.mem_append, not_or] at hnd
  rw [List.filter_append, List.filter_cons_of_neg (by simp), filter_of_not_mem hnd.1.1,
    filter_of_not_mem hnd.1.2]

/-- The list without a node, from the list with it. -/
theorem filter_split {l xs ys : List NodeId} {c : NodeId} (h : l.filter (· != id) = xs ++ c :: ys) :
    ∃ us vs, l = us ++ c :: vs ∧ c ≠ id ∧ vs.filter (· != id) = ys := by
  obtain ⟨us, ws, rfl, -, hws⟩ := List.filter_eq_append_iff.mp h
  obtain ⟨us', vs, rfl, -, hc, hvs⟩ := List.filter_eq_cons_iff.mp hws
  exact ⟨us ++ us', vs, by simp, by simpa using hc, hvs⟩

/-- To cut a node off takes it out of its list. -/
theorem Unlinked.shows (hb : Unlinked a id b) (h : a.Shows K) : b.Shows (K.without id) where
  count := hb.count.trans h.count
  node other := (hb.node other).trans (h.node other)
  nodup p := (h.nodup p).filter _
  endChild side p := by
    have hnd := (side.nodup_toward _).mpr (h.nodup p)
    have hend : (a.beside? side id = none ∧ a.parent? id = some p) ↔
        (side.toward (K.children p)).getLast? = some id := by
      rw [← h.endChild, h.endChild_iff, and_comm]
    rw [hb.endChild, Chart.children_without, Side.toward_filter, h.endChild]
    simp only [hend]
    rcases List.eq_nil_or_concat (side.toward (K.children p)) with hl | ⟨xs, z, hl⟩
    · simp [hl]
    · rw [hl, List.concat_eq_append] at hnd ⊢
      by_cases hz : z = id
      · subst hz
        have hback : side.opposite.toward (K.children p) = [] ++ z :: xs.reverse := by
          rw [Side.toward_opposite, hl]
          simp
        rw [h.beside hback, filter_middle hnd]
        simp
      · simp [hz]
  parent {p c} hc := by
    rw [Chart.children_without, List.mem_filter, bne_iff_ne] at hc
    rw [hb.parent, if_neg hc.2, h.parent hc.1]
  beside {side p c xs ys} hsplit := by
    rw [Chart.children_without, Side.toward_filter] at hsplit
    obtain ⟨us, vs, hl, hc, rfl⟩ := filter_split hsplit
    have hnd := (side.nodup_toward _).mpr (h.nodup p)
    rw [hb.beside, if_neg hc]
    simp only [h.beside_iff, h.beside hl]
    cases vs with
    | nil => simp
    | cons v vs =>
      by_cases hv : v = id
      · subst hv
        have hl' : side.toward (K.children p) = (us ++ [c]) ++ v :: vs := by simp [hl]
        rw [hl'] at hnd
        have hnot : v ∉ vs := (List.nodup_cons.mp (List.nodup_append.mp hnd).2.1).1
        rw [h.beside hl']
        simp [filter_of_not_mem hnot]
      · simp [hv]
  alone {c} hall := by
    rw [hb.parent]
    by_cases hc : c = id
    · simp [hc, hb.beside]
    · have hall' : ∀ p, c ∉ K.children p := fun p hp =>
        hall p (List.mem_filter.mpr ⟨hp, by simpa using hc⟩)
      refine ⟨by rw [if_neg hc]; exact (h.alone hall').1, fun side => ?_⟩
      rw [hb.beside, if_neg hc]
      simp only [h.beside_iff]
      rw [(h.alone hall').2 side]
      simp

/-! ## Putting a node in -/

/-- The node `c` becomes a child of `p` between `w .before` and `w .after`.
Where there is no such neighbour, it becomes the child at that end. -/
structure Inserted (a : Arena) (p c : NodeId) (w : Side → Option NodeId) (b : Arena) : Prop where
  count : b.count = a.count
  node : ∀ other, b.node? other = a.node? other
  parent : ∀ other, b.parent? other = if other = c then some p else a.parent? other
  beside : ∀ side other, b.beside? side other =
    if other = c then w side
    else if w side.opposite = some other then some c
    else a.beside? side other
  endChild : ∀ side other, b.endChild? side other =
    if other = p ∧ w side = none then some c else a.endChild? side other

/-- What stands next to the gap between two lists, on that side of it. -/
def nextToGap (xs ys : List NodeId) : Side → Option NodeId
  | .before => xs.getLast?
  | .after => ys.head?

theorem mem_of_nextToGap {xs ys : List NodeId} {side : Side} {x : NodeId}
    (h : nextToGap xs ys side = some x) : x ∈ xs ++ ys := by
  cases side with
  | before => exact List.mem_append_left _ (List.mem_of_getLast? h)
  | after => exact List.mem_append_right _ (List.mem_of_head? h)

/-- A list into which a node is put, read toward a side. -/
theorem exists_toward_gap (side : Side) (xs ys : List NodeId) (c : NodeId) :
    ∃ us vs, side.toward (xs ++ ys) = us ++ vs ∧ side.toward (xs ++ c :: ys) = us ++ c :: vs ∧
      nextToGap xs ys side = vs.head? ∧ nextToGap xs ys side.opposite = us.getLast? := by
  cases side with
  | before => exact ⟨ys.reverse, xs.reverse, by simp [Side.toward, Side.opposite, nextToGap]⟩
  | after => exact ⟨xs, ys, rfl, rfl, rfl, rfl⟩

/-- A list with a node put into it, split at another of its nodes. -/
theorem split_of_insert {us vs us' vs' : List NodeId} {c x : NodeId} (hne : x ≠ c)
    (h : us ++ c :: vs = us' ++ x :: vs') :
    (∃ as, us' = us ++ c :: as ∧ vs = as ++ x :: vs') ∨
      ∃ bs, us = us' ++ x :: bs ∧ vs' = bs ++ c :: vs := by
  rcases List.append_eq_append_iff.mp h with ⟨as, rfl, hv⟩ | ⟨bs, rfl, hv⟩
  · cases as with
    | nil => exact absurd (List.cons.inj hv).1.symm hne
    | cons z as =>
      obtain ⟨rfl, rfl⟩ := List.cons.inj hv
      exact Or.inl ⟨as, rfl, rfl⟩
  · cases bs with
    | nil => exact absurd (List.cons.inj hv).1 hne
    | cons z bs =>
      obtain ⟨rfl, rfl⟩ := List.cons.inj hv
      exact Or.inr ⟨bs, rfl, rfl⟩

/-- The neighbour of a node after another node was put into its list. -/
theorem Inserted.beside_split {p c x : NodeId} {us vs us' vs' : List NodeId}
    {w : Side → Option NodeId} {side : Side} (hb : Inserted a p c w b) (h : a.Shows K)
    (hold : side.toward (K.children p) = us ++ vs) (hc : c ∉ K.children p)
    (hnext : w side = vs.head?) (hback : w side.opposite = us.getLast?)
    (hx : us ++ c :: vs = us' ++ x :: vs') : b.beside? side x = vs'.head? := by
  have hnd : (us ++ vs).Nodup := hold ▸ (side.nodup_toward _).mpr (h.nodup p)
  rw [← side.mem_toward, hold, List.mem_append, not_or] at hc
  rw [hb.beside, hnext, hback]
  by_cases hxc : x = c
  · subst hxc
    rw [if_pos rfl]
    rcases List.append_eq_append_iff.mp hx with ⟨as, rfl, hv⟩ | ⟨bs, rfl, hv⟩
    · cases as with
      | nil => rw [(List.cons.inj hv).2]
      | cons z as =>
        obtain ⟨rfl, rfl⟩ := List.cons.inj hv
        simp at hc
    · cases bs with
      | nil => rw [(List.cons.inj hv).2]
      | cons z bs =>
        obtain ⟨rfl, rfl⟩ := List.cons.inj hv
        simp at hc
  · rw [if_neg hxc]
    rcases split_of_insert hxc hx with ⟨as, rfl, rfl⟩ | ⟨bs, rfl, rfl⟩
    · have hsplit : side.toward (K.children p) = (us ++ as) ++ x :: vs' := by simp [hold]
      have hnot : us.getLast? ≠ some x := fun he =>
        (List.nodup_append.mp hnd).2.2 x (List.mem_of_getLast? he) x (by simp) rfl
      rw [if_neg hnot, h.beside hsplit]
    · have hsplit : side.toward (K.children p) = us' ++ x :: (bs ++ vs) := by simp [hold]
      rw [h.beside hsplit]
      cases bs with
      | nil => simp
      | cons z bs =>
        have hnot : (us' ++ x :: z :: bs).getLast? ≠ some x := fun he => by
          rw [List.getLast?_append_of_ne_nil _ (by simp), List.getLast?_cons_cons] at he
          have hnd' := (List.nodup_append.mp (List.nodup_append.mp hnd).1).2.1
          exact (List.nodup_cons.mp hnd').1 (List.mem_of_getLast? he)
        rw [if_neg hnot]
        rfl

/-- To put a node that stands alone into a row puts it into the list. -/
theorem Inserted.shows {p c : NodeId} {xs ys : List NodeId} (h : a.Shows K)
    (hsplit : K.children p = xs ++ ys) (hb : Inserted a p c (nextToGap xs ys) b)
    (hc : ∀ q, c ∉ K.children q) : b.Shows (K.setChildren p (xs ++ c :: ys)) where
  count := hb.count.trans h.count
  node other := (hb.node other).trans (h.node other)
  nodup q := by
    rw [Chart.children_setChildren]
    split
    · exact List.nodup_middle.mpr (List.nodup_cons.mpr ⟨hsplit ▸ hc p, hsplit ▸ h.nodup p⟩)
    · exact h.nodup q
  endChild side q := by
    rw [hb.endChild, h.endChild, Chart.children_setChildren]
    by_cases hq : q = p
    · subst hq
      obtain ⟨us, vs, hold, hnew, hnext, -⟩ := exists_toward_gap side xs ys c
      rw [hsplit, hold, if_pos rfl, hnew, hnext]
      cases vs with
      | nil => simp
      | cons v vs => simp [List.getLast?_append, List.getLast?_cons]
    · simp [hq]
  parent {q x} hx := by
    rw [hb.parent]
    rw [Chart.children_setChildren] at hx
    by_cases hxc : x = c
    · subst hxc
      split at hx
      · rw [if_pos rfl, ‹q = p›]
      · exact absurd hx (hc q)
    · rw [if_neg hxc]
      apply h.parent
      split at hx
      · rw [‹q = p›, hsplit]
        simpa [hxc] using hx
      · exact hx
  beside {side q x us' vs'} hx := by
    rw [Chart.children_setChildren] at hx
    split at hx
    · obtain ⟨us, vs, hold, hnew, hnext, hback⟩ := exists_toward_gap side xs ys c
      exact hb.beside_split h (hsplit ▸ hold) (hc p) hnext hback (hnew ▸ hx)
    · rename_i hq
      have hxq : x ∈ K.children q := by
        rw [← side.mem_toward, hx]
        simp
      have hgap : nextToGap xs ys side.opposite ≠ some x := fun he => hq (by
        have hxp : x ∈ K.children p := hsplit ▸ mem_of_nextToGap he
        exact Option.some.inj ((h.parent hxq).symm.trans (h.parent hxp)))
      rw [hb.beside, if_neg fun he : x = c => hc q (he ▸ hxq), if_neg hgap, h.beside hx]
  alone {x} hall := by
    have hxc : x ≠ c := fun he => hall p (by simp [he])
    have hall' : ∀ q, x ∉ K.children q := fun q hq => hall q (by
      rw [Chart.children_setChildren]
      split
      · rw [‹q = p›, hsplit] at hq
        simp only [List.mem_append, List.mem_cons] at hq ⊢
        tauto
      · exact hq)
    refine ⟨by rw [hb.parent, if_neg hxc, (h.alone hall').1], fun side => ?_⟩
    have hgap : nextToGap xs ys side.opposite ≠ some x := fun he =>
      hall' p (hsplit ▸ mem_of_nextToGap he)
    rw [hb.beside, if_neg hxc, if_neg hgap, (h.alone hall').2]

/-- The slot of `c` has the links of its new place, and no other slot has
changed. -/
structure Placed (a : Arena) (p c : NodeId) (w : Side → Option NodeId) (b : Arena) : Prop where
  count : b.count = a.count
  node : ∀ id, b.node? id = a.node? id
  parent : ∀ id, b.parent? id = if id = c then some p else a.parent? id
  beside : ∀ side id, b.beside? side id = if id = c then w side else a.beside? side id
  endChild : ∀ side id, b.endChild? side id = a.endChild? side id

theorem placed_change {p c : NodeId} {w : Side → Option NodeId} {f : Slot → Slot} {s : Slot}
    (hs : a.slot? c = some s) (hcontent : ∀ s, (f s).content = s.content)
    (hstart : ∀ s, (f s).start = s.start) (hstop : ∀ s, (f s).stop = s.stop)
    (hchild : ∀ side s, (f s).endChild side = s.endChild side) (hparent : (f s).parent = some p)
    (hbeside : ∀ side, (f s).beside side = w side) : Placed a p c w (a.change c f) where
  count := count_change
  node := node?_change hcontent hstart hstop
  parent id := by
    rw [parent?, slot?_change]
    by_cases hid : c = id
    · subst hid
      simp [hs, hparent]
    · simp [hid, Ne.symm hid, parent?]
  beside side id := by
    rw [beside?, slot?_change]
    by_cases hid : c = id
    · subst hid
      simp [hs, hbeside]
    · simp [hid, Ne.symm hid, beside?]
  endChild side id := bind_slot?_change (hchild side) id

/-- A node in its place is linked in when what stands on either side leads to
it. -/
theorem Placed.inserted {p c : NodeId} {w : Side → Option NodeId} {b' b'' : Arena} (side : Side)
    (hb : Placed a p c w b) (hb' : Led side.opposite (w side.opposite) (some p) (some c) b b')
    (hb'' : Led side (w side) (some p) (some c) b' b'') (hw : ∀ side, w side ≠ some c) :
    Inserted a p c w b'' where
  count := hb''.count.trans (hb'.count.trans hb.count)
  node id := (hb''.node id).trans ((hb'.node id).trans (hb.node id))
  parent id := (hb''.parent id).trans ((hb'.parent id).trans (hb.parent id))
  beside side' id := by
    rw [hb''.beside, hb'.beside, hb.beside]
    by_cases hid : id = c
    · subst hid
      simp [hw]
    · rcases Side.eq_or_opposite side side' with rfl | rfl
      · simp [hid, (Side.opposite_ne _).symm]
      · simp [hid, Side.opposite_ne]
  endChild side' id := by
    rw [hb''.endChild, hb'.endChild, hb.endChild]
    rcases Side.eq_or_opposite side side' with rfl | rfl
    · simp [(Side.opposite_ne _).symm, and_comm, @eq_comm _ id p]
    · simp [Side.opposite_ne, and_comm, @eq_comm _ id p]

/-- The links that lead to a node in its place can be written. -/
theorem Placed.on_leads {p c : NodeId} {w : Side → Option NodeId} (side : Side)
    (hb : Placed a p c w b) (hp : p < a.count) (hlt : ∀ side x, w side = some x → x < a.count)
    (hw : ∀ side, w side ≠ some c) :
    ∃ b' b'', (Editing.lead side.opposite (w side.opposite) (some p) (some c)).on b =
        some (.ok (), b') ∧
      (Editing.lead side (w side) (some p) (some c)).on b' = some (.ok (), b'') ∧
      Inserted a p c w b'' := by
  have hpb : ∀ q, some p = some q → q < b.count := fun q hq => by
    rw [hb.count, ← Option.some.inj hq]
    exact hp
  obtain ⟨b', hb', hled⟩ := on_lead side.opposite (w side.opposite) (some p) (some c)
    (fun x hx => hb.count ▸ hlt _ x hx) hpb
  obtain ⟨b'', hb'', hled'⟩ := on_lead side (w side) (some p) (some c)
    (fun x hx => hled.count ▸ hb.count ▸ hlt _ x hx) fun q hq => hled.count ▸ hpb q hq
  exact ⟨b', b'', hb', hb'', hb.inserted side hled hled' hw⟩

theorem on_linkEnd (h : a.Shows K) (side : Side) {p c : NodeId} (hp : p < a.count)
    (hc : c < a.count) (hall : ∀ q, c ∉ K.children q) :
    ∃ b, (Editing.linkEnd side p c).on a = some (.ok (), b) ∧
      b.Shows (K.setChildren p (Siblings.around side c (K.children p))) := by
  obtain ⟨s, hs⟩ := exists_slot hp
  obtain ⟨t, ht⟩ := exists_slot hc
  have hold : a.endChild? side p = s.endChild side := by rw [endChild?, hs]; rfl
  have hnone : t.beside side = none := by
    have hnone := (h.alone hall).2 side
    rwa [beside?, ht] at hnone
  let w : Side → Option NodeId := fun other => if other = side then none else s.endChild side
  have hchild : ∀ other x, w other = some x → x ∈ K.children p := by
    intro other x hx
    by_cases ho : other = side
    · simp [w, ho] at hx
    · exact h.parent_iff.mp (h.endChild_iff.mp (hold.trans (by simpa [w, ho] using hx))).1
  have hside : w side = none := if_pos rfl
  have hback : w side.opposite = s.endChild side := if_neg side.opposite_ne
  have hb : Placed a p c w (a.change c fun t =>
      { t with parent := some p }.setBeside side.opposite (s.endChild side)) := by
    refine placed_change ht (fun t => by simp) (fun t => by simp) (fun t => by simp)
      (fun other t => by cases side <;> cases other <;> rfl) (by simp) fun other => ?_
    rw [Slot.beside_setBeside]
    rcases Side.eq_or_opposite side other with rfl | rfl
    · rw [if_neg (Side.opposite_ne _).symm, hside]
      cases other <;> exact hnone
    · rw [if_pos rfl, hback]
  obtain ⟨b', b'', hb', hb'', hin⟩ := hb.on_leads side hp
    (fun other x hx => h.child_lt (hchild other x hx)) fun other hx => hall p (hchild other c hx)
  rw [hback] at hb'
  rw [hside] at hb''
  refine ⟨b'', ?_, ?_⟩
  · rw [Editing.linkEnd, Editing.on_bind (Editing.on_data hs),
      Editing.on_bind (Editing.on_change hc _), Editing.on_bind hb']
    exact hb''
  · have hlast := hold.symm.trans (h.endChild side p)
    cases side with
    | before =>
      have hgap : w = nextToGap [] (K.children p) := by
        funext other
        cases other <;> simp [w, nextToGap, hlast, Side.toward]
      rw [hgap] at hin
      exact hin.shows h rfl hall
    | after =>
      have hgap : w = nextToGap (K.children p) [] := by
        funext other
        cases other <;> simp [w, nextToGap, hlast, Side.toward]
      rw [hgap] at hin
      exact hin.shows h (List.append_nil _).symm hall

/-- To write into a slot what it says already changes nothing. -/
theorem change_eq_self {f : Slot → Slot} {s : Slot} (hs : a.slot? id = some s) (hf : f s = s) :
    a.change id f = a := by
  obtain ⟨slots⟩ := a
  rw [change]
  congr 1
  refine List.ext_getElem? fun i => ?_
  rw [List.getElem?_modify]
  by_cases hi : id = i
  · subst hi
    have hs' : slots[id]? = some s := hs
    simp [hs', hf]
  · simp [hi]

theorem on_linkLast (h : a.Shows K) {p c : NodeId} (hp : p < a.count) (hc : c < a.count)
    (hall : ∀ q, c ∉ K.children q) :
    ∃ b, (Editing.linkLast p c).on a = some (.ok (), b) ∧
      b.Shows (K.setChildren p (K.children p ++ [c])) := by
  obtain ⟨t, ht⟩ := exists_slot hc
  have hnone : t.next = none := by
    have hnone := (h.alone hall).2 .after
    rwa [beside?, ht] at hnone
  have hsame : a.change c (fun s => { s with next := none }) = a :=
    change_eq_self ht (by rw [← hnone])
  obtain ⟨b, hb, hshows⟩ := on_linkEnd h .after hp hc hall
  refine ⟨b, ?_, hshows⟩
  rw [Editing.linkLast, Editing.on_bind (Editing.on_change hc _), hsame, hb]

theorem on_linkBeside (h : a.Shows K) (side : Side) {p anchor c : NodeId} {us vs : List NodeId}
    (hsplit : side.toward (K.children p) = us ++ anchor :: vs) (hc : c < a.count)
    (hall : ∀ q, c ∉ K.children q) :
    ∃ b, (Editing.linkBeside side p anchor c).on a = some (.ok (), b) ∧
      b.Shows (K.setChildren p (side.toward (us ++ anchor :: c :: vs))) := by
  have hanchor : anchor ∈ K.children p := by
    rw [← side.mem_toward, hsplit]
    simp
  obtain ⟨s, hs⟩ := exists_slot (h.child_lt hanchor)
  obtain ⟨t, ht⟩ := exists_slot hc
  have hfar : a.beside? side anchor = s.beside side := by rw [beside?, hs]; rfl
  have hhead : s.beside side = vs.head? := hfar.symm.trans (h.beside hsplit)
  let w : Side → Option NodeId := fun other =>
    if other = side then s.beside side else some anchor
  have hside : w side = s.beside side := if_pos rfl
  have hback : w side.opposite = some anchor := if_neg side.opposite_ne
  have hchild : ∀ other x, w other = some x → x ∈ K.children p := by
    intro other x hx
    rcases Side.eq_or_opposite side other with rfl | rfl
    · rw [hside, hhead] at hx
      rw [← Side.mem_toward, hsplit]
      simp [List.mem_of_mem_head? hx]
    · rw [hback] at hx
      exact Option.some.inj hx ▸ hanchor
  have hb : Placed a p c w (a.change c fun t =>
      ({ t with parent := some p }.setBeside side (s.beside side)).setBeside side.opposite
        (some anchor)) := by
    refine placed_change ht (fun t => by simp) (fun t => by simp) (fun t => by simp)
      (fun other t => by cases side <;> cases other <;> rfl) (by simp) fun other => ?_
    rw [Slot.beside_setBeside, Slot.beside_setBeside]
    rcases Side.eq_or_opposite side other with rfl | rfl
    · rw [if_neg (Side.opposite_ne _).symm, if_pos rfl, hside]
    · rw [if_pos rfl, hback]
  obtain ⟨b', b'', hb', hb'', hin⟩ := hb.on_leads side (h.parent_lt hanchor)
    (fun other x hx => h.child_lt (hchild other x hx)) fun other hx => hall p (hchild other c hx)
  rw [hback] at hb'
  rw [hside] at hb''
  refine ⟨b'', ?_, ?_⟩
  · have hanchor' : (Editing.change anchor (Slot.setBeside side (some c))).on (a.change c fun t =>
        ({ t with parent := some p }.setBeside side (s.beside side)).setBeside side.opposite
          (some anchor)) = some (.ok (), b') := by
      rw [← hb', Editing.lead, Side.opposite_opposite]
    rw [Editing.linkBeside, Editing.on_bind (Editing.on_data hs),
      Editing.on_bind (Editing.on_change hc _), Editing.on_bind hanchor', hb'']
  · cases side with
    | before =>
      have hgap : w = nextToGap vs.reverse (anchor :: us.reverse) := by
        funext other
        cases other <;> simp [w, nextToGap, hhead]
      have hlist : K.children p = vs.reverse ++ anchor :: us.reverse := by
        have := congrArg List.reverse hsplit
        simpa [Side.toward] using this
      have hshows := (hgap ▸ hin).shows h hlist hall
      exact hshows.congr (by simp [Side.toward])
    | after =>
      have hgap : w = nextToGap (us ++ [anchor]) vs := by
        funext other
        cases other <;> simp [w, nextToGap, hhead]
      have hlist : K.children p = (us ++ [anchor]) ++ vs := by
        simpa [Side.toward] using hsplit
      have hshows := (hgap ▸ hin).shows h hlist hall
      exact hshows.congr (by simp [Side.toward])

end Arena

end MarkupTree
