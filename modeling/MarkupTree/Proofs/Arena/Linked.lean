-- How the slots of an arena are linked, at the end of every session. The links
-- agree with each other, lead to slots of the arena only, and never lead in a
-- circle, so each node belongs to one tree. What the document of the session
-- says of a node, which has no links at all, is what the links say.
import MarkupTree.Proofs.Arena.Sessions

namespace MarkupTree

open Document (Leads Sound Session rootId)

namespace Arena

/-- On the way upward from `b`, or at `b` itself, stands `a`. -/
def Below (arena : Arena) : NodeId → NodeId → Prop :=
  Relation.ReflTransGen fun p c => arena.parent? c = some p

structure Linked (a : Arena) : Prop where
  root : a.contains rootId = true ∧ a.parent? rootId = none ∧ a.previous? rootId = none ∧
    a.next? rootId = none
  one_document : ∀ id n, a.node? id = some n → (n.kind = .document ↔ id = rootId)
  in_range : ∀ link ∈ [a.parent?, a.firstChild?, a.lastChild?, a.next?, a.previous?],
    ∀ id other, link id = some other → id < a.count ∧ other < a.count
  /-- From the first child on, and from the last child back, the links lead
  through the same children. -/
  forward : ∀ p, Leads a.next? (a.firstChild? p) (a.children p)
  backward : ∀ p, Leads a.previous? (a.lastChild? p) (a.children p).reverse
  no_repeats : ∀ p, (a.children p).Nodup
  parent : ∀ p c, c ∈ a.children p ↔ a.parent? c = some p
  parentless : ∀ id, a.parent? id = none → a.previous? id = none ∧ a.next? id = none
  /-- The way upward never comes back to where it began. -/
  no_circle : ∀ id, ¬ Relation.TransGen (fun c p => a.parent? c = some p) id id
  fits : ∀ p c m n, a.parent? c = some p → a.node? p = some m → a.node? c = some n →
    m.kind.canContain n.kind = true
  /-- Each node lies in the subtree of one parentless node, and of no other. -/
  one_tree : ∀ id, a.contains id = true → ∃! top, a.parent? top = none ∧ a.Below top id

variable {a : Arena} {K : Chart} {d : Document}

namespace Shows

/-! ## Lists read along the links -/

theorem leads (h : a.Shows K) (side : Side) (p : NodeId) :
    Leads (a.beside? side) (a.endChild? side.opposite p) (side.toward (K.children p)) := by
  rw [h.endChild, Side.toward_opposite, List.getLast?_reverse]
  exact Document.leads_of_split fun xs c ys hsplit => h.beside hsplit

theorem length_children_le (h : a.Shows K) (p : NodeId) : (K.children p).length ≤ a.count := by
  have hsub : (K.children p).length ≤ (List.range a.count).length :=
    ((h.nodup p).subperm fun c hc => List.mem_range.mpr (h.child_lt hc)).length_le
  rwa [List.length_range] at hsub

/-- The children read along the links are those of the chart. -/
theorem children_eq (h : a.Shows K) (p : NodeId) : a.children p = K.children p :=
  Document.follow_eq (h.leads .after p) (h.length_children_le p)

theorem mem_children_iff (h : a.Shows K) {p c : NodeId} :
    c ∈ a.children p ↔ a.parent? c = some p := by
  rw [h.children_eq, h.parent_iff]

theorem beside_of_parentless (h : a.Shows K) {id : NodeId} (hp : a.parent? id = none)
    (side : Side) : a.beside? side id = none := (h.alone (h.parent?_eq_none_iff.mp hp)).2 side

theorem lt_of_beside (h : a.Shows K) {side : Side} {id other : NodeId}
    (hb : a.beside? side id = some other) : id < a.count ∧ other < a.count := by
  have hback := h.beside_opposite hb
  exact ⟨h.beside_lt hback, h.beside_lt hb⟩

theorem lt_of_endChild (h : a.Shows K) {side : Side} {id other : NodeId}
    (hc : a.endChild? side id = some other) : id < a.count ∧ other < a.count :=
  ⟨Arena.lt_of_endChild hc, lt_of_parent (h.endChild_iff.mp hc).1⟩

theorem neighbours_eq (h : a.Shows d.chart) (hd : Document.Grounded d) (c : NodeId) :
    d.previous? c = a.previous? c ∧ d.next? c = a.next? c := by
  rcases hp : d.parent? c with _ | p
  · have hp' : a.parent? c = none := (h.parent?_eq hd c).trans hp
    obtain ⟨hprevious, hnext⟩ := Document.neighbours_of_parentless hd.distinct hp
    exact ⟨hprevious.trans (h.beside_of_parentless hp' .before).symm,
      hnext.trans (h.beside_of_parentless hp' .after).symm⟩
  · obtain ⟨xs, ys, hsplit⟩ := List.append_of_mem ((Document.parent?_eq_some_iff hd.distinct).mp hp)
    have hback : Side.before.toward (d.chart.children p) = ys.reverse ++ c :: xs.reverse := by
      rw [Side.toward, show d.chart.children p = d.children p from rfl, hsplit]
      simp
    obtain ⟨hprevious, hnext⟩ := Document.neighbours_of_split hd.distinct hsplit
    refine ⟨?_, hnext.trans (h.next hsplit).symm⟩
    rw [hprevious, previous?, h.beside hback, List.head?_reverse]

theorem below_iff (h : a.Shows d.chart) {p c : NodeId} : a.Below p c ↔ d.Below p c := by
  have hsame : (fun p c => a.parent? c = some p) = fun p c => c ∈ d.children p :=
    funext fun p => funext fun c => propext h.parent_iff
  rw [Below, Document.Below, hsame]

end Shows

/-- The views of the document, which it reads off its trees, say what the links
of the arena say. -/
structure Viewed (a : Arena) (d : Document) : Prop where
  count : d.nodeCount = a.count
  node : d.node? = a.node?
  parent : d.parent? = a.parent?
  firstChild : d.firstChild? = a.firstChild?
  lastChild : d.lastChild? = a.lastChild?
  previous : d.previous? = a.previous?
  next : d.next? = a.next?
  forward : ∀ p, d.childrenForward p = a.children p
  backward : ∀ p, d.childrenBackward p = (a.children p).reverse

theorem viewed_of_shows (h : a.Shows d.chart) (hd : Document.Grounded d) : a.Viewed d where
  count := h.count.symm
  node := funext fun id => (h.node id).symm
  parent := funext fun id => (h.parent?_eq hd id).symm
  firstChild := funext fun p => by
    rw [Document.firstChild?_eq, firstChild?, h.endChild, Side.toward, List.getLast?_reverse]
    rfl
  lastChild := funext fun p => by
    rw [Document.lastChild?_eq, lastChild?, h.endChild]
    rfl
  previous := funext fun c => (h.neighbours_eq hd c).1
  next := funext fun c => (h.neighbours_eq hd c).2
  forward p := by
    rw [Document.childrenForward_eq hd.distinct, h.children_eq]
    rfl
  backward p := by
    rw [Document.childrenBackward_eq hd.distinct, h.children_eq]
    rfl

/-- An arena that shows a sound document is linked. -/
theorem linked_of_shows (h : a.Shows d.chart) (hd : Sound d) : a.Linked where
  root := by
    have hp := h.parent?_eq_none_iff.mpr hd.root_not_child
    refine ⟨?_, hp, h.beside_of_parentless hp _, h.beside_of_parentless hp _⟩
    rw [h.contains_eq hd.grounded, Document.contains_iff]
    exact hd.root_mem
  one_document id n hn := hd.document_iff ((h.node id).symm.trans hn)
  in_range link hlink id other hl := by
    simp only [List.mem_cons, List.not_mem_nil, or_false] at hlink
    rcases hlink with rfl | rfl | rfl | rfl | rfl
    · exact ⟨lt_of_parent hl, h.parent_lt (h.parent_iff.mp hl)⟩
    · exact h.lt_of_endChild hl
    · exact h.lt_of_endChild hl
    · exact h.lt_of_beside hl
    · exact h.lt_of_beside hl
  forward p := by
    rw [h.children_eq]
    exact h.leads .after p
  backward p := by
    rw [h.children_eq]
    exact h.leads .before p
  no_repeats p := by
    rw [h.children_eq]
    exact h.nodup p
  parent p c := h.mem_children_iff
  parentless id hp := ⟨h.beside_of_parentless hp _, h.beside_of_parentless hp _⟩
  no_circle id hc := by
    rw [show a.parent? = d.parent? from funext (h.parent?_eq hd.grounded)] at hc
    exact Nat.lt_irrefl _ (Document.length_lineage_lt hd.distinct hc)
  fits p c m n hp hm hn := hd.fits_of_child ((h.node p).symm.trans hm)
    ((h.node c).symm.trans hn) (h.parent_iff.mp hp)
  one_tree id hid := by
    rw [h.contains_eq hd.grounded, Document.contains_iff] at hid
    obtain ⟨top, htop, hb⟩ := Document.exists_parentless hd.distinct hid
    refine ⟨top, ⟨(h.parent?_eq hd.grounded top).trans htop, h.below_iff.mpr hb⟩, ?_⟩
    rintro other ⟨hother, hob⟩
    rw [h.parent?_eq hd.grounded] at hother
    exact Document.parentless_unique hd.distinct hid hother htop (h.below_iff.mp hob) hb

end Arena

/-- What a session reads off its document is what the links of its arena say. -/
theorem Document.Session.views_are_links (x : Session) :
    ∃ a, x.arena = some a ∧ a.Viewed x.document := by
  obtain ⟨a, ha, hshows⟩ := x.exists_arena
  exact ⟨a, ha, Arena.viewed_of_shows hshows x.sound.grounded⟩

/-- Whatever edits a session makes, whether they succeed or are refused, it has
an arena at its end, and that is linked. -/
theorem Document.Session.stays_linked (x : Session) : ∃ a, x.arena = some a ∧ a.Linked := by
  obtain ⟨a, ha, hshows⟩ := x.exists_arena
  exact ⟨a, ha, Arena.linked_of_shows hshows x.sound⟩

end MarkupTree
