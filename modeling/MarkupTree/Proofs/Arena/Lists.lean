-- Edits of an arena as edits of lists. The links give each node its list of
-- children, and moving a node means to erase it from the list it is in and to
-- put it into another at one place. All else stays.
import MarkupTree.Proofs.Arena.Linked

namespace MarkupTree

open Document (Grounded Session)

namespace Arena

/-! ## What edits do to lists -/

/-- What stays when `c` moves to the parent `target`, or to no parent. -/
structure Undisturbed (a b : Arena) (c : NodeId) (target : Option NodeId) : Prop where
  /-- The list that `c` leaves only loses it. -/
  left : ∀ p, some p ≠ target → a.parent? c = some p → b.children p = (a.children p).erase c
  others : ∀ p, some p ≠ target → a.parent? c ≠ some p → b.children p = a.children p
  own : b.children c = a.children c
  parent : b.parent? c = target
  parents : ∀ id, id ≠ c → b.parent? id = a.parent? id
  labels : ∀ id, b.node? id = a.node? id
  count : b.count = a.count

/-- What `create` does: the new node stands alone, and all else stays. -/
structure Created (a b : Arena) (k : Kind) (id : NodeId) : Prop where
  number : id = a.count
  fresh : a.contains id = false
  count : b.count = a.count + 1
  slot : b.slot? id = some { content := .ofKind k }
  others : ∀ other, other ≠ id → b.slot? other = a.slot? other

/-- What each edit that succeeds does to the lists of children. -/
structure EditsLists (a : Arena) : Prop where
  create : ∀ k id b, (Editing.create k).on a = some (.ok id, b) → Created a b k id
  append : ∀ p c b, (Editing.appendChild p c).on a = some (.ok (), b) →
    b.children p = (a.children p).erase c ++ [c] ∧ Undisturbed a b c (some p)
  prepend : ∀ p c b, (Editing.prependChild p c).on a = some (.ok (), b) →
    b.children p = c :: (a.children p).erase c ∧ Undisturbed a b c (some p)
  before : ∀ r n b, r ≠ n → (Editing.insertBeside .before r n).on a = some (.ok (), b) →
    ∃ p xs ys, a.parent? r = some p ∧ (a.children p).erase n = xs ++ r :: ys ∧
      b.children p = xs ++ n :: r :: ys ∧ Undisturbed a b n (some p)
  after : ∀ r n b, r ≠ n → (Editing.insertBeside .after r n).on a = some (.ok (), b) →
    ∃ p xs ys, a.parent? r = some p ∧ (a.children p).erase n = xs ++ r :: ys ∧
      b.children p = xs ++ r :: n :: ys ∧ Undisturbed a b n (some p)
  itself : ∀ side r b, (Editing.insertBeside side r r).on a = some (.ok (), b) → b = a
  detach : ∀ c b, (Editing.detach c).on a = some (.ok (), b) → Undisturbed a b c none

variable {a b : Arena} {K : Chart} {d : Document}

/-! ## Moves -/

/-- The document allows what the arena has done, and says what it has come to. -/
theorem Follows.ok {m : Editing Unit} {r : Except EditError Document} (h : Follows a m r)
    (hm : m.on a = some (.ok (), b)) : ∃ d', r = .ok d' ∧ b.Shows d'.chart := by
  cases r with
  | error e =>
    rw [show m.on a = _ from h] at hm
    cases hm
  | ok d' =>
    obtain ⟨b', hb, hshows⟩ := h
    rw [hb] at hm
    cases hm
    exact ⟨d', rfl, hshows⟩

theorem erase_children (h : a.Shows K) (p c : NodeId) :
    (a.children p).erase c = (K.without c).children p := by
  rw [h.children_eq, (h.nodup p).erase_eq_filter]
  rfl

/-- Nobody is a child of its own. -/
theorem not_own_child (hd : Grounded d) (c : NodeId) : c ∉ d.chart.children c := fun hc => by
  have hup := (Document.parent?_eq_some_iff hd.distinct).mpr hc
  exact Nat.lt_irrefl _ (Document.length_lineage_lt hd.distinct (Relation.TransGen.single hup))

/-- What the chart of the arena tells of a move of `c`. -/
theorem undisturbed_of_lists {L : Chart} {c : NodeId} {target : Option NodeId} (h : a.Shows K)
    (hb : b.Shows L) (hcount : L.count = K.count) (hnode : L.node? = K.node?)
    (hlist : ∀ q, some q ≠ target → L.children q = (K.without c).children q)
    (hothers : ∀ q id, id ≠ c → (id ∈ L.children q ↔ id ∈ K.children q))
    (htarget : ∀ q, c ∈ L.children q ↔ target = some q) (hown : c ∉ K.children c)
    (hne : target ≠ some c) : Undisturbed a b c target := by
  have hleft : ∀ q, some q ≠ target → b.children q = (a.children q).erase c := by
    intro q hq
    rw [hb.children_eq, erase_children h, hlist q hq]
  have hkept : ∀ q, c ∉ a.children q → (a.children q).erase c = a.children q := fun q hq =>
    List.erase_of_not_mem hq
  refine ⟨fun q hq _ => hleft q hq, fun q hq hc => ?_, ?_, ?_, fun id hid => ?_, fun id => ?_, ?_⟩
  · rw [hleft q hq, hkept q fun hm => hc (h.mem_children_iff.mp hm)]
  · rw [hleft c hne.symm, hkept c fun hm => hown (h.parent_iff.mp (h.mem_children_iff.mp hm))]
  · exact Option.ext fun q => hb.parent_iff.trans (htarget q)
  · exact Option.ext fun q => hb.parent_iff.trans ((hothers q id hid).trans h.parent_iff.symm)
  · rw [hb.node, h.node, hnode]
  · rw [hb.count, h.count, hcount]

theorem undisturbed_put (h : a.Shows K) {p c : NodeId} {l : List NodeId}
    (hb : b.Shows ((K.without c).setChildren p l)) (hl : c ∈ l)
    (hrest : l.filter (· != c) = (K.without c).children p) (hne : p ≠ c)
    (hown : c ∉ K.children c) : Undisturbed a b c (some p) := by
  refine undisturbed_of_lists h hb rfl rfl (fun q hq => ?_) (fun q id hid => ?_) (fun q => ?_) hown
    fun he => hne (Option.some.inj he)
  · exact if_neg fun he => hq (congrArg some he)
  · rw [Chart.children_setChildren]
    split
    · subst q
      have hmem : id ∈ l ↔ id ∈ l.filter (· != c) := by simp [hid]
      rw [hmem, hrest]
      simp [hid]
    · simp [hid]
  · rw [Chart.children_setChildren, Option.some.injEq, eq_comm (a := p)]
    split
    · simp [*]
    · simp [*]

theorem undisturbed_without (h : a.Shows K) {c : NodeId} (hb : b.Shows (K.without c))
    (hown : c ∉ K.children c) : Undisturbed a b c none :=
  undisturbed_of_lists h hb rfl rfl (fun _ _ => rfl) (fun q id hid => by simp [hid])
    (fun q => by simp) hown (by simp)

/-! ## Each edit -/

section

variable (h : a.Shows d.chart) (hd : Grounded d)

include h hd

omit h hd in
theorem created_of_on {k : Kind} {id : NodeId} (hm : (Editing.create k).on a = some (.ok id, b)) :
    Created a b k id := by
  rw [on_create] at hm
  split at hm
  · cases hm
  · cases hm
    refine ⟨rfl, ?_, ?_, ?_, fun other hne => ?_⟩
    · simp [contains]
    · simp [Arena.push, count]
    · rw [slot?_push, if_pos rfl]
    · rw [slot?_push, if_neg hne]

omit h in
theorem ne_of_insertable {p c : NodeId} {m n : Node} (hi : Document.Insertable d p c m n) :
    p ≠ c := by
  rintro rfl
  have hp := Document.mem_ids_of_node? hi.parent
  exact hi.outside ((Document.mem_lineage_iff hd.distinct hp).mpr Relation.ReflTransGen.refl)

theorem into_lists (side : Side) {p c : NodeId} {m : Editing Unit}
    (hfollows : Follows a m (d.insertInto side p c)) (hm : m.on a = some (.ok (), b)) :
    b.children p = Siblings.around side c ((a.children p).erase c) ∧
      Undisturbed a b c (some p) := by
  obtain ⟨d', hok, hb⟩ := hfollows.ok hm
  obtain ⟨_, _, hi, -⟩ := Document.insertInto_ok hd side hok
  rw [Document.chart_insertInto hd side hok] at hb
  refine ⟨?_, undisturbed_put h hb ?_ ?_ (ne_of_insertable hd hi) (not_own_child hd c)⟩
  · rw [hb.children_eq, erase_children h, Chart.children_setChildren, if_pos rfl]
  · cases side <;> simp [Siblings.around]
  · cases side <;> simp [Siblings.around]

theorem beside_lists (side : Side) {r n : NodeId} (hne : r ≠ n)
    (hm : (Editing.insertBeside side r n).on a = some (.ok (), b)) :
    ∃ p us vs, a.parent? r = some p ∧ side.toward ((a.children p).erase n) = us ++ r :: vs ∧
      side.toward (b.children p) = us ++ r :: n :: vs ∧ Undisturbed a b n (some p) := by
  obtain ⟨d', hok, hb⟩ := (follows_insertBeside h hd side r n).ok hm
  obtain ⟨p, us, vs, hp, hsplit, hchart⟩ := Document.chart_insertBeside hd side hne hok
  obtain ⟨q, _, _, hq, hi, -⟩ := Document.insertBeside_ok hd side hne hok
  rw [hp, Option.some.injEq] at hq
  subst hq
  rw [hchart] at hb
  have hlist : side.toward (b.children p) = us ++ r :: n :: vs := by
    rw [hb.children_eq, Chart.children_setChildren, if_pos rfl, Side.toward_toward]
  refine ⟨p, us, vs, (h.parent?_eq hd r).trans hp, ?_, hlist, ?_⟩
  · rw [erase_children h]
    exact hsplit
  · refine undisturbed_put h hb (by simp) ?_ (ne_of_insertable hd hi) (not_own_child hd n)
    have hrest : (us ++ r :: n :: vs).filter (· != n) = us ++ r :: vs := by
      have hout : n ∉ us ++ r :: vs := by
        rw [← hsplit]
        simp
      rw [List.mem_append, List.mem_cons, not_or, not_or] at hout
      rw [List.filter_append, List.filter_cons_of_pos (by simpa using hne),
        List.filter_cons_of_neg (by simp), filter_of_not_mem hout.1, filter_of_not_mem hout.2.2]
    rw [← Side.toward_filter, hrest, ← hsplit, Side.toward_toward]

theorem beside_itself (side : Side) {r : NodeId}
    (hm : (Editing.insertBeside side r r).on a = some (.ok (), b)) : b = a := by
  obtain ⟨d', hok, hb⟩ := (follows_insertBeside h hd side r r).ok hm
  rw [Document.insertBeside_self side hok] at hb
  exact h.unique hb

/-- The edits that succeed are edits of the lists. -/
theorem editsLists_of_shows : EditsLists a where
  create _ _ _ hm := created_of_on hm
  append p c b hm := into_lists h hd .after (follows_appendChild h hd p c) hm
  prepend p c b hm := into_lists h hd .before (follows_prependChild h hd p c) hm
  before r n b hne hm := by
    obtain ⟨p, us, vs, hp, hold, hnew, hrest⟩ := beside_lists h hd .before hne hm
    refine ⟨p, vs.reverse, us.reverse, hp, ?_, ?_, hrest⟩
    · rw [← List.reverse_inj]
      simpa [Side.toward] using hold
    · rw [← List.reverse_inj]
      simpa [Side.toward] using hnew
  after r n b hne hm := by
    obtain ⟨p, us, vs, hp, hold, hnew, hrest⟩ := beside_lists h hd .after hne hm
    exact ⟨p, us, vs, hp, hold, hnew, hrest⟩
  itself side _ _ hm := beside_itself h hd side hm
  detach c b hm := by
    obtain ⟨d', hok, hb⟩ := (follows_detach h hd c).ok hm
    rw [Document.chart_detach hd hok] at hb
    exact undisturbed_without h hb (not_own_child hd c)

end

end Arena

/-- In every session, the edits that succeed are edits of the lists of
children. -/
theorem Document.Session.edits_are_list_edits (x : Session) :
    ∃ a, x.arena = some a ∧ a.EditsLists := by
  obtain ⟨a, ha, hshows⟩ := x.exists_arena
  exact ⟨a, ha, Arena.editsLists_of_shows hshows x.sound.grounded⟩

/-- A node moves within the list it is in. -/
example :
    let x : Session := ⟨.new, [.create .paragraph, .create .text, .create .text,
      .appendChild 0 1, .appendChild 1 2, .appendChild 1 3, .insertBefore 2 3]⟩
    x.arena.map (·.children 1) = some [3, 2] := by cbv

end MarkupTree
