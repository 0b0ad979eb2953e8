-- HTML before and after normalising. Text is escaped character by character,
-- and nothing else looks at the texts of a run one by one, so a node that is
-- no text has the same page before its document is normalised and after.
import MarkupTree.Proofs.Document.Normalized
import MarkupTree.Proofs.Html.Fragments
import MarkupTree.Proofs.Html.Pieces

namespace MarkupTree

namespace Html

variable {e : Encoder} {o : Options}

/-! ## Two texts in a row -/

theorem print_chars (fresh : Bool) (t : Text) (ps : List Piece) :
    print fresh (.chars t :: ps) = escape t ++ print (atLineStart fresh (escape t)) ps := rfl

/-- Two texts in a row print as one. -/
theorem printAlike_chars (a b : Text) (ps : List Piece) :
    PrintAlike (.chars (a ++ b) :: ps) (.chars a :: .chars b :: ps) := by
  intro fresh
  rw [print_chars, print_chars, print_chars, escape_append, atLineStart_append, List.append_assoc]

/-! ## Two texts that become one -/

theorem visit_cons_text {n : Node} {a : Text} (hn : n.content = .text a) (rest : Forest)
    (ancestors before : List Node) (depth : Nat) :
    (Forest.cons n .nil rest).visit (visitor e o) ancestors before depth =
      .chars a :: rest.visit (visitor e o) ancestors (n :: before) depth := by
  obtain ⟨id, content, start, stop⟩ := n
  simp only at hn
  subst hn
  rfl

theorem description_cons (n : Node) (cs rest : Forest) :
    description (.cons n cs rest) = plainText n ++ (description cs ++ description rest) := by
  unfold description
  rw [Forest.nodes, List.flatMap_cons, List.flatMap_append]

theorem plainText_of_text {n : Node} {a : Text} (hn : n.content = .text a) :
    plainText n = escape a := by
  unfold plainText Node.kind
  rw [hn]
  rfl

section

variable {n : Node} {cs f : Forest} (hn : n.isText = true → cs = .nil)
  (hf : ∀ m ms rest, f = .cons m ms rest → m.isText = true → ms = .nil)

include hn hf

theorem visit_joinText (ancestors before : List Node) (depth : Nat) :
    PrintAlike ((Forest.joinText n cs f).visit (visitor e o) ancestors before depth)
      ((Forest.cons n cs f).visit (visitor e o) ancestors before depth) := by
  cases f with
  | nil => exact PrintAlike.of_eq rfl
  | cons m ms rest =>
    rw [Forest.joinText_cons]
    split
    · obtain ⟨hnt, hmt⟩ := Bool.and_eq_true_iff.mp ‹_›
      obtain ⟨a, ha⟩ := Node.isText_iff.mp hnt
      obtain ⟨b, hb⟩ := Node.isText_iff.mp hmt
      rw [hn hnt, hf m ms rest rfl hmt, visit_cons_text ha, visit_cons_text hb,
        visit_cons_text rfl, visit_eq_of_place rest ancestors _ (m :: n :: before) depth depth,
        ha, hb]
      exact printAlike_chars a b _
    · exact PrintAlike.of_eq rfl

theorem description_joinText :
    description (Forest.joinText n cs f) = description (.cons n cs f) := by
  cases f with
  | nil => rfl
  | cons m ms rest =>
    rw [Forest.joinText_cons]
    split
    · obtain ⟨hnt, hmt⟩ := Bool.and_eq_true_iff.mp ‹_›
      obtain ⟨a, ha⟩ := Node.isText_iff.mp hnt
      obtain ⟨b, hb⟩ := Node.isText_iff.mp hmt
      rw [hn hnt, hf m ms rest rfl hmt, description_cons, description_cons, description_cons,
        plainText_of_text rfl, plainText_of_text ha, plainText_of_text hb, ha, hb]
      simp [Content.literal, Content.literal?, escape_append, description, Forest.nodes]
    · rfl

end

/-! ## Merged rows -/

/-- The description of an image is the same for merged texts. -/
theorem description_mergeTexts {f : Forest} (h : f.AreLeaves Node.isText) :
    description f.mergeTexts = description f := by
  induction f with
  | nil => rfl
  | cons n cs rest ihc ihr =>
    obtain ⟨-, hcs, hrest⟩ := Forest.areLeaves_cons h
    obtain ⟨hn, hf⟩ := Forest.leaf_of_merged h
    rw [Forest.mergeTexts, description_joinText hn hf, description_cons, description_cons,
      ihc hcs, ihr hrest]

/-- Of what stands below it, a node shows on entering no more than its
description. -/
theorem enter_eq_of_description {s t : Site} (hnode : s.node = t.node)
    (hancestors : s.ancestors = t.ancestors)
    (hdescription : description s.children = description t.children) :
    enter e o s = enter e o t := by
  obtain ⟨⟨id, content, start, stop⟩, cs, ancestors, before, after, depth⟩ := s
  obtain ⟨m, ds, ancestors', before', after', depth'⟩ := t
  simp only at hnode hancestors hdescription
  subst hnode hancestors
  cases content with
  | image url title =>
    show [Piece.tagStart _ [_, ⟨_, description cs⟩]] = _
    rw [hdescription]
    rfl
  | _ => rfl

/-- Merged texts are written as the texts one by one are. -/
theorem visit_mergeTexts {f : Forest} (h : f.AreLeaves Node.isText) (ancestors before before' : List Node)
    (depth : Nat) :
    PrintAlike (f.mergeTexts.visit (visitor e o) ancestors before depth)
      (f.visit (visitor e o) ancestors before' depth) := by
  induction f generalizing ancestors before before' depth with
  | nil => exact PrintAlike.of_eq rfl
  | cons n cs rest ihc ihr =>
    obtain ⟨-, hcs, hrest⟩ := Forest.areLeaves_cons h
    obtain ⟨hn, hf⟩ := Forest.leaf_of_merged h
    apply (visit_joinText hn hf ancestors before depth).trans
    unfold Forest.visit
    refine ((PrintAlike.append ?_ ?_).append ?_).append ?_
    · exact PrintAlike.of_eq (enter_eq_of_description rfl rfl (description_mergeTexts hcs))
    · show PrintAlike (if n.kind != .image then _ else _) (if n.kind != .image then _ else _)
      split
      · exact ihc hcs (n :: ancestors) [] [] (depth + 1)
      · exact PrintAlike.of_eq rfl
    · exact PrintAlike.of_eq rfl
    · exact ihr hrest ancestors (n :: before) (n :: before') depth

/-- A node has the same page with what is below it merged. -/
theorem render_mergeTexts {s t : Site} (h : s.tree.alone.AreLeaves Node.isText) (hnode : t.node = s.node)
    (hancestors : t.ancestors = s.ancestors) (hchildren : t.children = s.children.mergeTexts) :
    render e o t = render e o s := by
  have halone : t.tree.alone = s.tree.alone.mergeTexts := by
    rw [Tree.alone, Tree.alone, Forest.mergeTexts]
    show Forest.cons t.node t.children .nil = .cons s.node s.children.mergeTexts .nil
    rw [hnode, hchildren]
  rw [render_eq_alone, render_eq_alone, halone, hancestors]
  exact visit_mergeTexts h s.ancestors [] [] 0 true

end Html

namespace Document

/-- In every session, normalising the document changes the page of no node,
texts apart. -/
theorem Session.normalize_keeps_pages (x : Session) {id : NodeId} {n : Node}
    (hn : x.document.node? id = some n) (hk : n.kind ≠ .text) (o : Options) (width : Nat) :
    ∃ page, x.document.render? id .html o width = some page ∧
      x.document.normalize.render? id .html o width = some page := by
  have h := x.sound
  obtain ⟨s, hs, rfl⟩ := exists_site?_of_node? hn
  have htext : s.node.isText = false := beq_eq_false_iff_ne.mpr hk
  obtain ⟨u, hu, hunode, hancestors, hchildren⟩ := site?_normalize h hs htext
  refine ⟨Html.render Html.percentEncode o s, render?_html hs o width, ?_⟩
  rw [render?_html hu]
  rcases hchildren with hchildren | hchildren
  · have hleaves : s.tree.alone.AreLeaves Node.isText := fun r hr =>
      h.leaf r (Forest.rows_subset (mem_subtrees_of_site? hs) hr)
    rw [Html.render_mergeTexts hleaves hunode hancestors hchildren]
  · rw [Html.render_eq_of_place hunode hchildren hancestors]

/-- A custom block with two texts and an image described by two more: both runs
become one text, and the page of the document stays. -/
theorem normalize_keeps_pages_runs :
    let x : Session := ⟨.new, [.create .customBlock, .appendChild 0 1, .create .text,
      .appendChild 1 2, .set 2 (.literal (some "a&".toList)), .create .text, .appendChild 1 3,
      .set 3 (.literal (some "lt;".toList)), .create .paragraph, .appendChild 0 4,
      .create .image, .appendChild 4 5, .create .text, .appendChild 5 6, .create .text,
      .appendChild 5 7, .set 7 (.literal (some "\"".toList))]⟩
    let root : Node := { id := 0, content := .document, start := ⟨1, 1⟩, stop := ⟨1, 1⟩ }
    (x.document.node? 0 = some root ∧ root.kind ≠ .text) ∧
      ∃ page, x.document.render? 0 .html {} 0 = some page ∧
        x.document.normalize.render? 0 .html {} 0 = some page := by
  intro x root
  have hroot : x.document.node? 0 = some root := by decide +kernel
  have hkind : root.kind ≠ .text := by decide
  exact ⟨⟨hroot, hkind⟩, x.normalize_keeps_pages hroot hkind {} 0⟩

end Document

end MarkupTree
