-- What normalising makes of an arena, told by the lists of children. The walk
-- ends. Under the root each run of texts becomes its first text, the others of
-- the run stand alone, and no other slot changes.
import MarkupTree.Proofs.Arena.Linked
import MarkupTree.Proofs.Document.Normalized

namespace MarkupTree

open Document (Sound Session rootId)

namespace Arena

/-- The children of a node with their labels. -/
def childNodes (a : Arena) (id : NodeId) : List Node := (a.children id).filterMap a.node?

/-- What normalising makes of `a`. -/
structure Normalized (a b : Arena) : Prop where
  count : b.count = a.count
  /-- Under the root, each longest run of texts becomes one text. -/
  merged : ∀ p, a.Below rootId p → b.childNodes p = Siblings.merged (a.childNodes p)
  /-- The later texts of a run stand alone, as they were. -/
  absorbed : ∀ p, a.Below rootId p → ∀ xs m n ys, a.childNodes p = xs ++ m :: n :: ys →
    m.isText = true → n.isText = true →
      b.node? n.id = some n ∧ b.parent? n.id = none ∧ b.children n.id = []
  /-- What does not stand under the root keeps its slot with all its links. -/
  outside : ∀ id, ¬ a.Below rootId id → b.slot? id = a.slot? id
  others : ∀ id n, a.node? id = some n → n.isText = false →
    b.node? id = some n ∧ b.parent? id = a.parent? id
  calm : ∀ p, b.Below rootId p → ∀ xs m n ys, b.childNodes p = xs ++ m :: n :: ys →
    ¬ (m.isText = true ∧ n.isText = true)
  text : ∀ p, a.Below rootId p → Siblings.text (b.childNodes p) = Siblings.text (a.childNodes p)
  again : Editing.normalize.on b = some (.ok (), b)

variable {a b : Arena} {d : Document}

theorem Shows.childNodes_eq (h : a.Shows d.chart) (hd : d.trees.Distinct) (id : NodeId) :
    a.childNodes id = d.childNodes id := by
  have hnodes : ∀ n ∈ d.childNodes id, a.node? n.id = some n := fun n hn =>
    (h.node n.id).trans (Document.node?_of_mem_nodes hd (Document.mem_nodes_of_mem_childNodes hn))
  rw [childNodes, h.children_eq]
  change (d.children id).filterMap a.node? = _
  rw [← Document.map_id_childNodes, List.filterMap_map]
  exact (List.filterMap_congr hnodes).trans List.filterMap_some

theorem normalized_of_shows (h : a.Shows d.chart) (hd : Sound d)
    (hb : b.Shows d.normalize.chart) : Normalized a b := by
  have hd' := Document.sound_normalize hd
  have hold := h.childNodes_eq hd.distinct
  have hnew := hb.childNodes_eq hd'.distinct
  have hup := hb.parent?_eq hd'.grounded
  have hnode := hb.node
  refine ⟨?_, fun p hp => ?_, fun p hp xs m n ys hsplit hm hn => ?_, fun id hout => ?_,
    fun id n hn ht => ?_, fun p hp xs m n ys hsplit => ?_, fun p hp => ?_, ?_⟩
  · obtain ⟨root, body, rest, ht, -⟩ := hd.exists_root
    exact hb.count.trans ((Document.nodeCount_normalize ht).trans h.count.symm)
  · rw [hnew, hold, Document.childNodes_normalize hd (h.below_iff.mp hp)]
  · rw [hold] at hsplit
    rw [hnode, hup, hb.children_eq]
    exact Document.absorbed_normalize hd (h.below_iff.mp hp) hsplit hm hn
  · rw [h.below_iff] at hout
    refine h.slot?_congr hb ?_ (Document.children_normalize_outside hd hout) (fun p hp => ?_)
      fun p hp => Document.children_normalize_subset hd p hp
    · exact congrArg (Option.map Tree.node) (Document.tree?_normalize hd hout)
    · exact Document.children_normalize_outside hd fun hbelow => hout (hbelow.tail hp)
  · have hn' := (h.node id).symm.trans hn
    rw [hnode, hup, h.parent?_eq hd.grounded]
    exact ⟨Document.node?_normalize_other hd hn' ht, Document.parent?_normalize_other hd hn' ht⟩
  · have hcalm := Document.calm_normalize hd (hb.below_iff.mp hp)
    rw [← hnew, hsplit, Siblings.Calm, List.isChain_append] at hcalm
    exact (List.isChain_cons_cons.mp hcalm.2.1).1
  · rw [hnew, hold, Document.childNodes_normalize hd (h.below_iff.mp hp), Siblings.text_merged]
  · obtain ⟨c, hrun, hc⟩ := on_normalize hb hd'.grounded
    rw [Document.normalize_normalize hd] at hc
    rw [hrun, hb.unique hc]

end Arena

/-- In every session, normalising ends, merges the runs of texts and does
nothing else. -/
theorem Document.Session.normalize_merges (x : Session) :
    ∃ a b, x.arena = some a ∧ Editing.normalize.on a = some (.ok (), b) ∧ a.Normalized b := by
  obtain ⟨a, ha, hshows⟩ := x.exists_arena
  obtain ⟨b, hrun, hb⟩ := Arena.on_normalize hshows x.sound.grounded
  exact ⟨a, b, ha, hrun, Arena.normalized_of_shows hshows x.sound hb⟩

end MarkupTree
