-- Merging the texts after a text of an arena. Each turn takes the first
-- follower out of the list and adds its literal to the text. The turns stop
-- at the first node that is no text.
import MarkupTree.Arena.Normalize
import MarkupTree.Proofs.Arena.Links
import MarkupTree.Proofs.Forest.Merging

namespace MarkupTree

namespace Arena

variable {a b : Arena} {K : Chart} {p : NodeId}

/-- The label of a text that takes in one follower. -/
def joined (n m : Node) : Node :=
  { n with
    content := .text (n.content.literal ++ m.content.literal)
    stop := if m.stop.known then m.stop else n.stop }

/-- A text that takes in the first of its followers, then the others. -/
theorem withTexts_cons_left {n m : Node} (hn : n.isText = true) (ms : List Node) :
    n.withTexts (m :: ms) =
      Node.withTexts (joined n m) ms := by
  rw [Node.withTexts_eq _ hn, Node.withTexts_eq _ rfl, joined]
  have hstop : Node.lastStop n.stop (m :: ms) =
      Node.lastStop (if m.stop.known then m.stop else n.stop) ms := by
    unfold Node.lastStop
    rw [List.map_cons, List.filter_cons]
    by_cases hk : m.stop.known = true
    · simp [hk, List.getLast?_cons]
    · simp [hk]
  rw [hstop, List.flatMap_cons, ← List.append_assoc]
  rfl

/-- The chart in which the text `n` has taken in the texts at the front of the
list `l` after it. -/
def mergedAt (K : Chart) (p : NodeId) (pre : List NodeId) (n : Node) (l : List Node) : Chart :=
  (K.setChildren p (pre ++ n.id :: (l.dropWhile Node.isText).map (·.id))).relabel n.id
    fun _ => n.withTexts (l.takeWhile Node.isText)

theorem mergedAt_of_not_text {pre : List NodeId} {n : Node} {l : List Node}
    (hn : K.node? n.id = some n) (hl : K.children p = pre ++ n.id :: l.map (·.id))
    (hnot : ∀ m ∈ l.head?, m.isText = false) : mergedAt K p pre n l = K := by
  have htake : l.takeWhile Node.isText = [] ∧ l.dropWhile Node.isText = l := by
    cases l with
    | nil => exact ⟨rfl, rfl⟩
    | cons m ms => simp [hnot m rfl]
  refine Chart.ext rfl (funext fun id => ?_) (funext fun q => ?_)
  · dsimp only [mergedAt, Chart.relabel, Chart.setChildren]
    split
    · subst id
      rw [htake.1, hn]
      rfl
    · rfl
  · dsimp only [mergedAt, Chart.relabel, Chart.setChildren]
    split
    · subst q
      rw [htake.2, hl]
    · rfl

/-- To take in the first follower, and then the others, is to take in all. -/
theorem mergedAt_cons {pre : List NodeId} {n m : Node} {ms : List Node} (hn : n.isText = true)
    (hm : m.isText = true) (hone : ∀ q, q ≠ p → m.id ∉ K.children q) :
    mergedAt K p pre n (m :: ms) =
      mergedAt ((K.without m.id).relabel n.id fun _ => joined n m) p pre (joined n m) ms := by
  refine Chart.ext rfl (funext fun id => ?_) (funext fun q => ?_)
  · dsimp only [mergedAt, Chart.relabel, Chart.setChildren, Chart.without, Chart.editLists]
    rw [List.takeWhile_cons_of_pos hm, withTexts_cons_left hn]
    by_cases hid : id = n.id
    · have hid' : id = (joined n m).id := hid
      rw [if_pos hid, if_pos hid', if_pos hid, Option.map_map]
      rfl
    · have hid' : ¬ id = (joined n m).id := hid
      rw [if_neg hid, if_neg hid', if_neg hid]
  · dsimp only [mergedAt, Chart.relabel, Chart.setChildren, Chart.without, Chart.editLists]
    rw [List.dropWhile_cons_of_pos hm]
    by_cases hq : q = p
    · rw [if_pos hq, if_pos hq]
      rfl
    · rw [if_neg hq, if_neg hq, filter_of_not_mem (hone q hq)]

theorem on_takeIn (h : a.Shows K) {n m : Node} (hn : K.node? n.id = some n)
    (hnt : n.isText = true) {literal : Text} (hm : m.content = .text literal) :
    ∃ b, (Editing.takeIn n.id literal m.stop).on a = some (.ok (), b) ∧
      b.Shows (K.relabel n.id fun _ => joined n m) := by
  obtain ⟨s, hs, -⟩ := Option.map_eq_some_iff.mp ((h.node n.id).trans hn)
  obtain ⟨own, hown⟩ := Node.isText_iff.mp hnt
  have hcontent := h.withContent n.id (Content.lengthen literal)
  have hjoined : ∀ x, K.node? n.id = some x →
      { x with
        content := x.content.lengthen literal
        stop := if m.stop.known then m.stop else x.stop } = joined n m := by
    intro x hx
    obtain rfl : n = x := Option.some.inj (hn.symm.trans hx)
    rw [joined, hown, hm]
    rfl
  rw [Editing.takeIn, Editing.on_bind (Editing.on_change (lt_of_slot hs) _)]
  by_cases hk : m.stop.known = true
  · rw [if_pos hk]
    refine ⟨_, Editing.on_change (by rw [count_change]; exact lt_of_slot hs) _,
      (hcontent.withStop n.id m.stop).congr ?_⟩
    rw [Chart.relabel_relabel]
    refine Chart.relabel_congr fun x hx => ?_
    rw [← hjoined x hx, if_pos hk]
  · rw [if_neg hk]
    refine ⟨_, rfl, hcontent.congr (Chart.relabel_congr fun x hx => ?_)⟩
    rw [← hjoined x hx, if_neg hk]

/-- One turn of merging: the first follower goes, and the text takes it in. -/
theorem on_mergeFollowing_text (h : a.Shows K) {n m : Node} (hn : K.node? n.id = some n)
    (hnt : n.isText = true) (hm : K.node? m.id = some m) (hmt : m.isText = true)
    (hnext : a.beside? .after n.id = some m.id) :
    ∃ b, (Editing.mergeFollowing n.id).on a = (Editing.mergeFollowing n.id).on b ∧
      b.Shows ((K.without m.id).relabel n.id fun _ => joined n m) := by
  obtain ⟨s, hs, -⟩ := Option.map_eq_some_iff.mp ((h.node n.id).trans hn)
  obtain ⟨t, ht, htm⟩ := Option.map_eq_some_iff.mp ((h.node m.id).trans hm)
  have hsnext : s.next = some m.id := by
    rw [beside?, hs] at hnext
    exact hnext
  obtain ⟨literal, hliteral⟩ := Node.isText_iff.mp hmt
  have htc : t.content = .text literal := (congrArg Node.content htm).trans hliteral
  have htstop : t.stop = m.stop := congrArg Node.stop htm
  obtain ⟨b, hb, hun⟩ := on_unlink h (lt_of_slot ht)
  obtain ⟨c, hc, hshows⟩ := on_takeIn (hun.shows h) hn hnt hliteral
  refine ⟨c, ?_, hshows⟩
  have hturn : ((Editing.merging n.id).turn ()).on a = some (.ok (some ()), c) := by
    rw [Editing.merging, Editing.on_bind (Editing.on_data hs), hsnext]
    dsimp only
    rw [Editing.on_bind (Editing.on_data ht), htc]
    dsimp only
    rw [Editing.on_bind hb, htstop, Editing.on_bind hc]
    rfl
  exact Editing.on_loop hturn

/-- Merging stops at a node that no text follows. -/
theorem on_mergeFollowing_stop (h : a.Shows K) {n : Node} {l : List Node}
    (hn : K.node? n.id = some n) (hnext : a.beside? .after n.id = l.head?.map (·.id))
    (hlabels : ∀ m ∈ l, K.node? m.id = some m) (hnot : ∀ m ∈ l.head?, m.isText = false) :
    (Editing.mergeFollowing n.id).on a = some (.ok (), a) := by
  obtain ⟨s, hs, -⟩ := Option.map_eq_some_iff.mp ((h.node n.id).trans hn)
  rw [beside?, hs] at hnext
  refine Editing.on_loop_end ?_
  rw [Editing.merging, Editing.on_bind (Editing.on_data hs),
    show s.next = l.head?.map (·.id) from hnext]
  cases l with
  | nil => rfl
  | cons m ms =>
    obtain ⟨t, ht, htm⟩ := Option.map_eq_some_iff.mp ((h.node m.id).trans (hlabels m (by simp)))
    dsimp only [List.head?_cons, Option.map_some]
    rw [Editing.on_bind (Editing.on_data ht)]
    have hkind : t.content.kind ≠ .text := fun hk => by
      have hm := hnot m rfl
      rw [← htm, Node.isText] at hm
      simp [Node.kind, Slot.label, hk] at hm
    cases hc : t.content with
    | text literal => exact absurd (by rw [hc]; rfl) hkind
    | _ => rfl

/-- Merging the texts after a text takes all of them in, and then stops. -/
theorem on_mergeFollowing {pre : List NodeId} {l : List Node} (h : a.Shows K) {n : Node}
    (hn : K.node? n.id = some n) (hnt : n.isText = true)
    (hl : K.children p = pre ++ n.id :: l.map (·.id))
    (hlabels : ∀ m ∈ l, K.node? m.id = some m) :
    ∃ b, (Editing.mergeFollowing n.id).on a = some (.ok (), b) ∧
      b.Shows (mergedAt K p pre n l) := by
  have hnext : a.beside? .after n.id = l.head?.map (·.id) := by
    rw [h.next hl, List.head?_map]
  induction l generalizing a K n with
  | nil =>
    refine ⟨a, on_mergeFollowing_stop h hn hnext hlabels (by simp), ?_⟩
    exact h.congr (mergedAt_of_not_text hn hl (by simp))
  | cons m ms ih =>
    by_cases hm : m.isText = true
    · obtain ⟨b, hrun, hshows⟩ := on_mergeFollowing_text h hn hnt (hlabels m (by simp)) hm hnext
      have hnd := h.nodup p
      rw [hl] at hnd
      have hlabel : ((K.without m.id).relabel n.id fun _ => joined n m).node? n.id =
          some (joined n m) := by
        simp [Chart.relabel, Chart.without, Chart.editLists, hn]
      have hlist : ((K.without m.id).relabel n.id fun _ => joined n m).children p =
          pre ++ n.id :: ms.map (·.id) := by
        have hl' : K.children p = (pre ++ [n.id]) ++ m.id :: ms.map (·.id) := by simp [hl]
        rw [Chart.children_relabel, Chart.children_without, hl', filter_middle (hl' ▸ h.nodup p),
          List.append_assoc]
        rfl
      have hothers : ∀ x ∈ ms, ((K.without m.id).relabel n.id fun _ => joined n m).node? x.id =
          some x := by
        intro x hx
        have hne : x.id ≠ n.id := fun he => by
          have hmem : n.id ∈ (m :: ms).map (·.id) :=
            he ▸ List.mem_map_of_mem (List.mem_cons_of_mem _ hx)
          exact (List.nodup_cons.mp (List.nodup_append.mp hnd).2.1).1 hmem
        show (if x.id = n.id then _ else _) = _
        rw [if_neg hne]
        exact hlabels x (List.mem_cons_of_mem _ hx)
      have hnext' := (hshows.next hlist).trans List.head?_map
      obtain ⟨c, hc, hshows'⟩ := ih (n := joined n m) hshows hlabel rfl hlist hothers hnext'
      refine ⟨c, hrun.trans hc, hshows'.congr (mergedAt_cons hnt hm fun q hq hmem => hq ?_)⟩
      have hmp : m.id ∈ K.children p := by simp [hl]
      exact Option.some.inj ((h.parent hmem).symm.trans (h.parent hmp))
    · have hnot : ∀ x ∈ (m :: ms).head?, x.isText = false := by
        simpa using hm
      refine ⟨a, on_mergeFollowing_stop h hn hnext hlabels hnot, ?_⟩
      exact h.congr (mergedAt_of_not_text hn hl hnot)

end Arena

end MarkupTree
