-- The numbers of the nodes that events make. Whatever the event list, the
-- nodes of the tree are numbered from zero in the order in which they stand
-- in it, each before its children.
import MarkupTree.Event.Assembly
import MarkupTree.Proofs.Forest.Rows

namespace MarkupTree

namespace Forest

theorem ids_ofTrees (ts : List Tree) : (ofTrees ts).ids = ts.flatMap Tree.ids := by
  induction ts with
  | nil => rfl
  | cons t ts ih =>
    rw [ofTrees, ids_cons, ih, List.flatMap_cons]
    rfl

end Forest

/-! ## The numbers in a stack -/

namespace Frame

/-- The numbers of a construct and of what stands in it so far. -/
def ids (f : Frame) : List NodeId := f.tree.ids

theorem ids_eq (f : Frame) : f.ids = f.node.id :: f.children.reverse.flatMap Tree.ids := by
  rw [ids, Tree.ids, tree, Forest.ids_ofTrees]

theorem ids_push (f : Frame) (t : Tree) : (f.push t).ids = f.ids ++ t.ids := by
  rw [ids_eq, ids_eq, push, List.reverse_cons, List.flatMap_append, List.cons_append,
    List.flatMap_singleton]

theorem ids_loosen (f : Frame) : f.loosen.ids = f.ids := by
  unfold loosen
  split <;> rfl

end Frame

namespace Assembly

/-- The numbers in the stack, from the outermost construct inward. -/
def ids (a : Assembly) : List NodeId := a.below.reverse.flatMap Frame.ids ++ a.top.ids

/-- The nodes so far are numbered in their order. -/
def Numbered (a : Assembly) : Prop := a.ids = List.range a.size

variable {a : Assembly}

theorem ids_collapse (top : Frame) (below : List Frame) :
    (collapse top below).ids = below.reverse.flatMap Frame.ids ++ top.ids := by
  induction below generalizing top with
  | nil => rfl
  | cons f fs ih =>
    rw [collapse, ih, Frame.ids_push, List.reverse_cons, List.flatMap_append,
      List.flatMap_singleton, List.append_assoc]
    rfl

/-- A change that keeps the numbers and their count keeps the numbering. -/
theorem Numbered.of_same {b : Assembly} (h : Numbered a) (hids : b.ids = a.ids)
    (hsize : b.size = a.size) : Numbered b := by
  rw [Numbered, hids, hsize]
  exact h

/-- A change that adds the next number keeps the numbering. -/
theorem Numbered.of_next {b : Assembly} (h : Numbered a) (hids : b.ids = a.ids ++ [a.size])
    (hsize : b.size = a.size + 1) : Numbered b := by
  rw [Numbered, hids, hsize, List.range_succ, h]

/-! ## Each operation -/

theorem numbered_leaf {n : Node} (h : Numbered a) (hn : n.id = a.size) : Numbered (a.leaf n) := by
  refine h.of_next ?_ rfl
  rw [ids, leaf, Frame.ids_push, ← List.append_assoc, ← hn]
  rfl

theorem numbered_enter {n : Node} (offset : Nat) (implied : Bool) (h : Numbered a)
    (hn : n.id = a.size) : Numbered (a.enter n offset implied) := by
  refine h.of_next ?_ rfl
  rw [ids, enter, List.reverse_cons, List.flatMap_append, List.flatMap_singleton, ← hn]
  rfl

theorem size_leave (stop : Position) (a : Assembly) : (a.leave stop).size = a.size := by
  unfold leave
  split <;> rfl

theorem ids_leave (stop : Position) (a : Assembly) : (a.leave stop).ids = a.ids := by
  unfold leave
  split
  · rfl
  · rename_i f fs hbelow
    rw [ids, ids, hbelow, Frame.ids_push, List.reverse_cons, List.flatMap_append,
      List.flatMap_singleton, List.append_assoc]
    rfl

theorem numbered_leave (stop : Position) (h : Numbered a) : Numbered (a.leave stop) :=
  h.of_same (ids_leave stop a) (size_leave stop a)

theorem numbered_leaveImplied (s : Source) (h : Numbered a) : Numbered (a.leaveImplied s) := by
  unfold leaveImplied
  split
  · exact numbered_leave _ h
  · exact h

theorem numbered_loosenBelow (h : Numbered a) : Numbered a.loosenBelow := by
  unfold loosenBelow
  split
  · exact h
  · rename_i f fs hbelow
    refine h.of_same ?_ rfl
    rw [ids, ids, hbelow, List.reverse_cons, List.reverse_cons, List.flatMap_append,
      List.flatMap_append, List.flatMap_singleton, List.flatMap_singleton, Frame.ids_loosen]

theorem numbered_loosenForParagraph (h : Numbered a) : Numbered a.loosenForParagraph := by
  unfold loosenForParagraph
  split
  · exact numbered_loosenBelow h
  · exact h

theorem numbered_loosenForBlank (s : Source) (start : Nat) (h : Numbered a) :
    Numbered (a.loosenForBlank s start) := by
  unfold loosenForBlank
  split
  · exact h
  · split
    · refine h.of_same ?_ rfl
      rw [ids, ids, Frame.ids_loosen]
    · exact numbered_loosenBelow h
    · exact h

theorem numbered_enterBlock (s : Source) (content : Content) (start stop : Nat) (h : Numbered a) :
    Numbered (a.enterBlock s content start stop) :=
  numbered_enter _ _ (numbered_loosenForBlank s start (numbered_leaveImplied s h)) rfl

theorem numbered_forInline (s : Source) (kind : Kind) (start stop : Nat) (h : Numbered a) :
    Numbered (a.forInline s kind start stop) := by
  unfold forInline
  split
  · exact h
  · exact numbered_enter _ _ (numbered_loosenForBlank s start h) rfl

theorem numbered_enterInline (s : Source) (content : Content) (start stop : Nat)
    (h : Numbered a) : Numbered (a.enterInline s content start stop) :=
  numbered_enter _ _ (numbered_forInline s content.kind start stop h) rfl

theorem numbered_leafInline (s : Source) (content : Content) (start stop : Nat)
    (h : Numbered a) : Numbered (a.leafInline s content start stop) :=
  numbered_leaf (numbered_forInline s content.kind start stop h) rfl

theorem numbered_gather (s : Source) (t : Text) (content : Content) (start stop : Nat)
    (h : Numbered a) : Numbered (a.gather s t content start stop) := by
  unfold gather
  split
  · exact h.of_same rfl rfl
  · exact numbered_leafInline s content start stop h

/-! ## Events -/

theorem numbered_startTag (s : Source) (tag : Tag) (start stop : Nat) (h : Numbered a) :
    Numbered (a.startTag s tag start stop) := by
  unfold startTag
  split
  · exact numbered_enterBlock s _ start stop
      (numbered_loosenForParagraph (numbered_leaveImplied s h))
  · simp only
    split
    · exact numbered_enterBlock s _ start stop h
    · exact numbered_enterInline s _ start stop h

theorem numbered_finishTag (s : Source) (stop : Nat) (h : Numbered a) :
    Numbered (a.finishTag s stop) := by
  have hleft := numbered_leaveImplied s h
  unfold finishTag
  simp only
  split
  · exact hleft
  · split
    · exact numbered_leave _ hleft
    · exact numbered_leave _ hleft

theorem numbered_rule (s : Source) (start stop : Nat) (h : Numbered a) :
    Numbered (a.rule s start stop) :=
  numbered_leaf (numbered_loosenForBlank s start (numbered_leaveImplied s h)) rfl

/-- An event keeps the numbering. -/
theorem numbered_step (s : Source) (m : Marked) (h : Numbered a) : Numbered (a.step s m) := by
  unfold step
  cases m.event with
  | start tag => exact numbered_startTag s _ _ _ h
  | finish => exact numbered_finishTag s _ h
  | text | html => exact numbered_gather s _ _ _ _ h
  | code | inlineHtml | softBreak | hardBreak | math | footnoteReference =>
    exact numbered_leafInline s _ _ _ h
  | rule => exact numbered_rule s _ _ h
  | taskMarker => exact h

theorem numbered_run (s : Source) (events : List Marked) (h : Numbered a) :
    Numbered (a.run s events) := by
  unfold run
  induction events generalizing a with
  | nil => exact h
  | cons m ms ih => exact ih (numbered_step s m h)

theorem ids_finish (s : Source) (a : Assembly) : (a.finish s).trees.ids = a.ids := by
  have hleft : (a.leaveImplied s).ids = a.ids := by
    unfold leaveImplied
    split
    · exact ids_leave _ a
    · rfl
  rw [← hleft, ids, ← ids_collapse, finish, Forest.ids_cons, Forest.ids_nil, List.append_nil]
  rfl

end Assembly

/-- The nodes of a document from events are numbered in their order. -/
theorem Document.ids_ofEvents (s : Source) (events : List Marked) :
    (Document.ofEvents s events).trees.ids = List.range (Document.ofEvents s events).nodeCount := by
  have hbegin : Assembly.begin.Numbered := rfl
  have hrun := Assembly.numbered_run s events hbegin
  have hids := Assembly.ids_finish s (Assembly.begin.run s events)
  have hcount : (Document.ofEvents s events).nodeCount = (Assembly.begin.run s events).size := by
    have hlen := congrArg List.length hids
    rw [hrun, List.length_range, Forest.length_ids] at hlen
    exact hlen
  rw [hcount, ← hrun]
  exact hids

/-- A document from events is one tree, whose root has the first number. -/
theorem Document.trees_ofEvents (s : Source) (events : List Marked) :
    ∃ t : Tree, (Document.ofEvents s events).trees = t.alone ∧ t.node.id = rootId := by
  have hids := Document.ids_ofEvents s events
  refine ⟨⟨_, _⟩, rfl, ?_⟩
  rcases hn : (Document.ofEvents s events).nodeCount with _ | k
  · rw [hn] at hids
    cases hids
  · rw [hn, List.range_succ_eq_map] at hids
    exact (List.cons.inj hids).1

end MarkupTree
