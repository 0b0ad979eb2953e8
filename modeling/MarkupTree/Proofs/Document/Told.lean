-- The document that nested events build, told node by node: the tree is that of
-- the passages, and each node has the content and the place in the source of
-- the passage it stands for.
import MarkupTree.Proofs.Event.Telling
import MarkupTree.Proofs.Forest.Rows
import MarkupTree.Proofs.Source.Positions

namespace MarkupTree

namespace Forest

variable {α : Type}

theorem subrosesRow_roses (f : Node → α) (g : Forest) :
    Rose.subrosesRow (g.roses f) = g.subtrees.map (Tree.rose f) := by
  induction g with
  | nil => rfl
  | cons n cs rest ihc ihr =>
    simp [roses, Rose.subrosesRow, Rose.subroses, subtrees, Tree.rose, ihc, ihr]

theorem map_label_roses (f : Node → α) (g : Forest) :
    (g.roses f).map Rose.label = g.roots.map f := by
  induction g with
  | nil => rfl
  | cons n cs rest _ ihr =>
    rw [roses, roots, List.map_cons, List.map_cons, ihr]
    rfl

end Forest

/-- The tree stands for the rose of passages. -/
def Tree.Tells (s : Source) (t : Tree) (r : Rose Passage) : Prop :=
  t.rose Node.told = r.map (Passage.told s)

namespace Tree.Tells

variable {s : Source} {t : Tree} {r : Rose Passage}

theorem node (h : t.Tells s r) : t.node.told = r.label.told s := by
  have hlabel := congrArg Rose.label h
  rwa [Rose.label_map] at hlabel

theorem content (h : t.Tells s r) : t.node.content = r.label.content := congrArg (·.1) h.node

theorem start (h : t.Tells s r) : t.node.start = s.position r.label.start :=
  congrArg (·.2.1) h.node

theorem stop (h : t.Tells s r) : t.node.stop = s.endPosition r.label.start r.label.stop :=
  congrArg (·.2.2) h.node

theorem children (h : t.Tells s r) :
    t.row.children.map Node.told = r.children.map fun c => c.label.told s := by
  have hchildren := congrArg (fun q => q.children.map Rose.label) h
  simp only [Rose.children_map, Rose.mapRow_eq, List.map_map] at hchildren
  refine (Forest.map_label_roses Node.told t.children).symm.trans (hchildren.trans ?_)
  exact List.map_congr_left fun c _ => Rose.label_map _ c

end Tree.Tells

namespace Document

open Assembly

variable {o : Outline}

/-- At the end of the events only the root is open, with the passages of the outline in
it. -/
theorem opened_run (s : Source) (ho : o.fits .blocks = true) :
    (Assembly.begin.run s o.events).opened =
      [.ofPassages s .document 0 false (o.passages s)] := by
  have hbegin : Telling s .blocks .document 0 0 [] [] [] Assembly.begin := by
    refine ⟨rfl, by simp, by simp, ?_, by simp, by simp, by simp⟩
    rw [Opened.ofPassages, s.position_zero]
    rfl
  obtain ⟨kids, pending, h, heq⟩ := hbegin.run ho
  have hpending : pending = [] := by
    by_contra hne
    cases h.mixed hne
  subst hpending
  have hkids : kids = o.passages s := by simpa [Place.lay] using heq []
  rw [h.opened, hkids]
  rfl

theorem below_of_opened {a : Assembly} {b : Opened} (h : a.opened = [b]) : a.below = [] :=
  List.map_eq_nil_iff.mp (top_of_opened h).2

theorem roses_told_ofEvents (s : Source) (ho : o.fits .blocks = true) :
    (ofEvents s o.events).trees.roses Node.told = [(o.document s).map (Passage.told s)] := by
  have hopened := opened_run s ho
  have hopen : (Assembly.begin.run s o.events).leaveImplied s = Assembly.begin.run s o.events :=
    if_neg (by simp [implied_of_opened hopened, Opened.ofPassages])
  have hroot := Frame.rose_close (Assembly.begin.run s o.events).top (s.endPosition 0 s.bytes.length)
  rw [(top_of_opened hopened).1] at hroot
  rw [ofEvents, finish, hopen, below_of_opened hopened]
  exact congrArg (fun r => [r]) hroot

/-- Node by node, the document stands for the passages of the outline. -/
theorem tells_ofEvents (s : Source) (ho : o.fits .blocks = true) :
    List.Forall₂ (Tree.Tells s) (ofEvents s o.events).trees.subtrees (o.document s).subroses := by
  have hrow := congrArg Rose.subrosesRow (roses_told_ofEvents s ho)
  rw [Forest.subrosesRow_roses, Rose.subrosesRow, Rose.subrosesRow, List.append_nil,
    Rose.subroses_map] at hrow
  rw [← List.forall₂_eq_eq_eq, List.forall₂_map_left_iff, List.forall₂_map_right_iff] at hrow
  exact hrow

/-- What holds of every passage holds of the passage of each node. -/
theorem tells_ofEvents_with {s : Source} (ho : o.fits .blocks = true) {motive : Rose Passage → Prop}
    (h : ∀ r ∈ (o.document s).subroses, motive r) :
    List.Forall₂ (fun t r => t.Tells s r ∧ motive r) (ofEvents s o.events).trees.subtrees
      (o.document s).subroses := by
  obtain ⟨hlength, htells⟩ := List.forall₂_iff_zip.mp (tells_ofEvents s ho)
  exact List.forall₂_iff_zip.mpr
    ⟨hlength, fun hr => ⟨htells hr, h _ (List.of_mem_zip hr).2⟩⟩

/-- Each node stands for a passage. -/
theorem exists_told {s : Source} (ho : o.fits .blocks = true) {t : Tree}
    (ht : t ∈ (ofEvents s o.events).trees.subtrees) :
    ∃ r ∈ (o.document s).subroses, t.Tells s r := by
  obtain ⟨hlength, htells⟩ := List.forall₂_iff_get.mp (tells_ofEvents s ho)
  obtain ⟨i, hi, rfl⟩ := List.getElem_of_mem ht
  exact ⟨_, List.getElem_mem (hlength ▸ hi), htells i hi (hlength ▸ hi)⟩

/-- For each passage there is a node. -/
theorem exists_telling {s : Source} (ho : o.fits .blocks = true) {r : Rose Passage}
    (hr : r ∈ (o.document s).subroses) :
    ∃ t ∈ (ofEvents s o.events).trees.subtrees, t.Tells s r := by
  obtain ⟨hlength, htells⟩ := List.forall₂_iff_get.mp (tells_ofEvents s ho)
  obtain ⟨i, hi, rfl⟩ := List.getElem_of_mem hr
  exact ⟨_, List.getElem_mem (hlength ▸ hi), htells i (hlength ▸ hi) hi⟩

end Document

end MarkupTree
