-- Positions in order. In a document from nested events each node has a place in
-- the source and ends no earlier than it starts, and the nodes of a row start
-- one after the other, none before the node around them. Merging texts keeps
-- this order.
import MarkupTree.Proofs.Document.Normalized
import MarkupTree.Proofs.Document.Told
import MarkupTree.Proofs.Event.Ranges

namespace MarkupTree

/-- The node stands in a source, and ends no earlier than it starts. -/
structure Node.Placed (n : Node) : Prop where
  start : n.start.known = true
  stop : n.stop.known = true
  forward : n.start ≤ n.stop

/-- The children start one after the other, none before the node. -/
structure Row.InOrder (r : Row) : Prop where
  placed : r.node.Placed
  children : (r.node.start :: r.children.map (·.start)).Pairwise (· ≤ ·)

/-! ## Passages -/

namespace Source

variable {s : Source} {start stop : Nat}

/-- A span that starts in the source ends no earlier than it starts. -/
theorem position_le_endPosition (hs : s.InRange) (h : start ≤ s.bytes.length) :
    s.position start ≤ s.endPosition start stop := by
  obtain ⟨k, heq, ⟨rfl, -⟩ | ⟨hstart, -, hinked, -⟩⟩ := s.exists_endPosition start stop
  · rw [heq]
    exact Position.le_refl _
  · rw [heq]
    exact (position_le_iff hs h (lt_length_of_inked hinked).le).mpr hstart

theorem known_endPosition (s : Source) (start stop : Nat) :
    (s.endPosition start stop).known = true := by
  obtain ⟨k, heq, -⟩ := s.exists_endPosition start stop
  rw [heq]
  exact s.known_position k

end Source

theorem Tree.Tells.inOrder {s : Source} {t : Tree} {r : Rose Passage} (h : t.Tells s r)
    (hs : s.InRange) (hr : r.InOrder) (hstart : r.label.start ≤ s.bytes.length)
    (hchildren : ∀ c ∈ r.children, c.label.start ≤ s.bytes.length) : t.row.InOrder := by
  have hstarts : t.row.children.map (·.start) =
      (r.children.map (·.label.start)).map s.position := by
    have hmap := congrArg (List.map fun u : Told => u.2.1) h.children
    rw [List.map_map, List.map_map] at hmap
    rw [List.map_map]
    exact hmap
  refine ⟨⟨?_, ?_, ?_⟩, ?_⟩
  · rw [Tree.row, h.start]
    exact s.known_position _
  · rw [Tree.row, h.stop]
    exact s.known_endPosition _ _
  · rw [Tree.row, h.start, h.stop]
    exact s.position_le_endPosition hs hstart
  · rw [hstarts, Tree.row, h.start, ← List.map_cons, List.pairwise_map]
    refine hr.children.imp_of_mem fun {i j} hi hj hij => ?_
    have hin : ∀ n ∈ r.label.start :: r.children.map (·.label.start), n ≤ s.bytes.length :=
      List.forall_mem_cons.mpr ⟨hstart, List.forall_mem_map.mpr hchildren⟩
    exact (Source.position_le_iff hs (hin i hi) (hin j hj)).mpr hij

/-! ## Merged texts -/

namespace Siblings

/-- A merged text starts where its first part does. -/
theorem starts_merged (l : List Node) :
    ((merged l).map (·.start)).Sublist (l.map (·.start)) := by
  induction l using run_induction with
  | nil => exact List.Sublist.refl _
  | text n l hn ih =>
    rw [merged_cons_text hn, Node.withTexts_eq _ hn]
    exact (ih.trans ((List.dropWhile_sublist _).map _)).cons_cons _
  | other n l hn ih =>
    rw [merged_cons_other hn]
    exact ih.cons_cons _

/-- A merged text ends where one of its parts does. -/
theorem stop_withTexts {n : Node} (ms : List Node) (hn : n.isText = true) :
    ∃ m ∈ n :: ms, (n.withTexts ms).stop = m.stop := by
  rw [Node.withTexts_eq ms hn]
  simp only [Node.lastStop]
  rcases hl : ((ms.map (·.stop)).filter Position.known).getLast? with _ | p
  · exact ⟨n, List.mem_cons_self, by rw [hl]; rfl⟩
  · obtain ⟨m, hm, rfl⟩ := List.mem_map.mp (List.mem_of_mem_filter (List.mem_of_getLast? hl))
    exact ⟨m, List.mem_cons_of_mem _ hm, by rw [hl]; rfl⟩

theorem placed_merged {l : List Node} (hl : ∀ n ∈ l, n.Placed)
    (hstarts : (l.map (·.start)).Pairwise (· ≤ ·)) : ∀ n ∈ merged l, n.Placed := by
  induction l using run_induction with
  | nil => exact fun n hn => absurd hn List.not_mem_nil
  | text n l hn ih =>
    obtain ⟨hplaced, hrest⟩ := List.forall_mem_cons.mp hl
    obtain ⟨hafter, hsorted⟩ := List.pairwise_cons.mp hstarts
    have hsub := List.dropWhile_sublist Node.isText (l := l)
    rw [merged_cons_text hn]
    refine List.forall_mem_cons.mpr
      ⟨?_, ih (fun m hm => hrest m (hsub.subset hm)) (hsorted.sublist (hsub.map _))⟩
    obtain ⟨m, hm, hstop⟩ := stop_withTexts (l.takeWhile Node.isText) hn
    have hmem : m ∈ n :: l := List.cons_subset_cons n (List.takeWhile_subset _) hm
    have hstart : (n.withTexts (l.takeWhile Node.isText)).start = n.start := by
      rw [Node.withTexts_eq _ hn]
    have hle : n.start ≤ m.start := by
      rcases List.mem_cons.mp hmem with rfl | hm
      · exact Position.le_refl _
      · exact hafter _ (List.mem_map_of_mem hm)
    refine ⟨?_, ?_, ?_⟩
    · rw [hstart]
      exact hplaced.start
    · rw [hstop]
      exact (hl m hmem).stop
    · rw [hstart, hstop]
      exact Position.le_trans hle (hl m hmem).forward
  | other n l hn ih =>
    obtain ⟨hplaced, hrest⟩ := List.forall_mem_cons.mp hl
    rw [merged_cons_other hn]
    exact List.forall_mem_cons.mpr ⟨hplaced, ih hrest (List.pairwise_cons.mp hstarts).2⟩

end Siblings

namespace Document

variable {d : Document}

/-- The trees of a normalised document have nodes of before for roots. -/
theorem roots_normalize_subset (h : Sound d) : d.normalize.trees.roots ⊆ d.trees.nodes := by
  obtain ⟨root, body, rest, ht, -⟩ := h.exists_root
  intro n hn
  rw [trees_normalize ht, Forest.roots, Forest.roots_append, List.mem_cons, List.mem_append] at hn
  rw [ht, Forest.nodes, List.mem_cons, List.mem_append]
  rcases hn with rfl | hn | hn
  · exact Or.inl rfl
  · exact Or.inr (Or.inr (Forest.roots_subset_nodes rest hn))
  · refine Or.inr (Or.inl ?_)
    rw [← Forest.map_node_trees] at hn
    obtain ⟨t, htree, rfl⟩ := List.mem_map.mp hn
    exact Forest.mem_nodes_of_mem_subtrees
      (Forest.subtrees_absorbed false body (Forest.trees_subset_subtrees _ htree))

/-- Merging texts keeps the order of the positions. -/
theorem inOrder_normalize (h : Sound d) (hd : ∀ r ∈ d.trees.rows, r.InOrder) :
    ∀ r ∈ d.normalize.trees.rows, r.InOrder := by
  obtain ⟨root, body, rest, ht, -⟩ := h.exists_root
  have hold : ∀ n ∈ d.trees.nodes, n.Placed := by
    intro n hn
    rw [← Forest.map_node_rows] at hn
    obtain ⟨r, hr, rfl⟩ := List.mem_map.mp hn
    exact (hd r hr).placed
  have hchildren : ∀ s ∈ d.normalize.trees.rows, ∀ n ∈ s.children, n.Placed := by
    intro s hs
    rcases row_of_normalize ht hs with hs | ⟨r, hr, -, -, hc, -⟩
    · exact fun n hn => hold n (Forest.child_mem_nodes hs hn)
    · rw [hc]
      exact Siblings.placed_merged (fun n hn => hold n (Forest.child_mem_nodes hr hn))
        (List.pairwise_cons.mp (hd r hr).children).2
  have hplaced : ∀ n ∈ d.normalize.trees.nodes, n.Placed := by
    intro n hn
    rcases List.mem_append.mp ((Forest.nodes_perm _).subset hn) with hn | hn
    · exact hold n (roots_normalize_subset h hn)
    · obtain ⟨s, hs, hn⟩ := List.mem_flatMap.mp hn
      exact hchildren s hs n hn
  intro s hs
  refine ⟨hplaced _ (Forest.node_mem_nodes hs), ?_⟩
  rcases row_of_normalize ht hs with hs | ⟨r, hr, -, -, hc, hother⟩
  · exact (hd s hs).children
  · rw [hc]
    cases htext : r.node.isText with
    | true =>
      rw [h.leaf r hr htext]
      exact List.pairwise_singleton _ _
    | false =>
      rw [← hother htext]
      exact (hd r hr).children.sublist ((Siblings.starts_merged r.children).cons_cons _)

/-- In a document from nested events in source order the positions are in
order, before and after the texts are merged. -/
theorem positions_in_order {s : Source} {o : Outline} (ho : o.fits .blocks = true)
    (h : Marked.InOrder o.events) (hin : ∀ m ∈ o.events, m.stop ≤ s.bytes.length)
    (hs : s.InRange) :
    (∀ r ∈ (ofEvents s o.events).trees.rows, r.InOrder) ∧
      ∀ r ∈ (ofEvents s o.events).normalize.trees.rows, r.InOrder := by
  have hstarts : ∀ n ∈ Marked.starts o.events, n ≤ s.bytes.length := by
    intro n hn
    obtain ⟨m, hm, rfl⟩ := List.mem_map.mp hn
    have hm := List.mem_of_mem_filter hm
    exact (h.forward m hm).trans (hin m hm)
  have hpassages : ∀ r ∈ (o.document s).subroses, r.label.start ≤ s.bytes.length :=
    List.forall_mem_cons.mpr
      ⟨Nat.zero_le _, fun r hr => hstarts _ (Outline.start_mem_passages s o r hr)⟩
  have hrows : ∀ r ∈ (ofEvents s o.events).trees.rows, r.InOrder := by
    intro r hr
    obtain ⟨t, ht, rfl⟩ := List.mem_map.mp hr
    obtain ⟨p, hp, htells⟩ := exists_told ho ht
    refine htells.inOrder hs (Outline.inOrder_document h p hp) (hpassages p hp) fun c hc => ?_
    exact hpassages c (Rose.subroses_trans _ hp (Rose.mem_subroses_children hc))
  exact ⟨hrows, inOrder_normalize (sound_ofEvents s ho) hrows⟩

/-- Two lines in one item, with two texts on the second that are merged. -/
theorem positions_in_order_two_lines :
    let s := Source.ofText "- a\n  bc\n".toList
    let line := Outline.leaf 2 3 (.text ['a']) (.leaf 3 4 .softBreak
      (.leaf 6 7 (.text ['b']) (.leaf 7 8 (.text ['c']) .nil)))
    let o := Outline.enclose (.list none) 0 9 0 9 (.enclose .item 0 9 0 9 line .nil) .nil
    (o.fits .blocks = true ∧ Marked.InOrder o.events ∧ (∀ m ∈ o.events, m.stop ≤ s.bytes.length) ∧
      s.InRange) ∧
      (∀ r ∈ (ofEvents s o.events).trees.rows, r.InOrder) ∧
        ∀ r ∈ (ofEvents s o.events).normalize.trees.rows, r.InOrder := by
  intro s line o
  have ho : o.fits .blocks = true := by decide
  have h : Marked.InOrder o.events := ⟨by decide, by decide⟩
  have hin : ∀ m ∈ o.events, m.stop ≤ s.bytes.length := by decide
  have hs : s.InRange := by
    unfold Source.InRange
    decide
  exact ⟨⟨ho, h, hin, hs⟩, positions_in_order ho h hin hs⟩

end Document

end MarkupTree
