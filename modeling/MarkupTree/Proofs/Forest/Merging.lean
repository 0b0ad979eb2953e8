-- Merging texts, told from left to right. The merged forest is read off the
-- lists of siblings: each run of texts becomes its first node, with the
-- literals of the run, and the other nodes of the run are absorbed.
import MarkupTree.Document.Normalize
import MarkupTree.Proofs.Forest.Places
import Mathlib.Data.List.SplitBy
import Mathlib.Data.List.TakeWhile

namespace MarkupTree

/-! ## Runs of texts among siblings -/

namespace Node

/-- The end of the last of the nodes whose end is known, or else `p`. -/
def lastStop (p : Position) (ms : List Node) : Position :=
  ((ms.map (·.stop)).filter Position.known).getLast?.getD p

/-- A text that takes in the texts after it. -/
def withTexts (n : Node) : List Node → Node
  | [] => n
  | m :: ms =>
    { n with
      content := .text (n.content.literal ++ (m :: ms).flatMap (·.content.literal))
      stop := lastStop n.stop (m :: ms) }

end Node

namespace Siblings

/-- A run, as its first node with the rest taken in. -/
def mergeRun : List Node → List Node
  | [] => []
  | n :: ms => [n.withTexts ms]

/-- The siblings with each longest run of texts made one text. A node that is
no text is a run of its own. -/
def merged (l : List Node) : List Node :=
  (l.splitBy fun a b => a.isText && b.isText).flatMap mergeRun

/-- The texts that follow a text. -/
def absorbed (afterText : Bool) : List Node → List Node
  | [] => []
  | n :: l => if n.isText && afterText then n :: absorbed true l else absorbed n.isText l

/-- The node `n` becomes `n'` by taking in the texts directly after it. -/
def Extends (l : List Node) (n n' : Node) : Prop :=
  n.isText = true ∧ ∃ ms, ms ≠ [] ∧ (∀ m ∈ ms, m.isText = true) ∧ n :: ms <:+: l ∧
    n' = n.withTexts ms

/-- No two neighbours are texts. -/
def Calm (l : List Node) : Prop := l.IsChain fun a b => ¬ (a.isText = true ∧ b.isText = true)

/-- The literals of the texts, joined. -/
def text (l : List Node) : Text := (l.filter Node.isText).flatMap (·.content.literal)

end Siblings

namespace Node

theorem isText_iff {n : Node} : n.isText = true ↔ ∃ t, n.content = .text t := by
  unfold isText kind
  cases n.content <;> simp [Content.kind]

theorem lastStop_cons (p : Position) (m : Node) (ms : List Node) :
    lastStop p (m :: ms) =
      if (lastStop m.stop ms).known then lastStop m.stop ms else p := by
  unfold lastStop
  rw [List.map_cons, List.filter_cons]
  rcases hl : ((ms.map (·.stop)).filter Position.known).getLast? with _ | q
  · rw [List.getLast?_eq_none_iff.mp hl]
    by_cases hk : m.stop.known = true <;> simp [hk]
  · have hq : q.known = true := (List.mem_filter.mp (List.mem_of_getLast? hl)).2
    by_cases hk : m.stop.known = true
    · rw [if_pos hk, List.getLast?_cons, hl]
      simp [hq]
    · rw [if_neg hk, hl]
      simp [hq]

theorem withTexts_eq {n : Node} (ms : List Node) (hn : n.isText = true) :
    n.withTexts ms =
      { n with
        content := .text (n.content.literal ++ ms.flatMap (·.content.literal))
        stop := lastStop n.stop ms } := by
  cases ms with
  | nil =>
    obtain ⟨t, ht⟩ := isText_iff.mp hn
    obtain ⟨id, content, start, stop⟩ := n
    simp only at ht
    subst ht
    simp [withTexts, lastStop, Content.literal, Content.literal?]
  | cons m ms => rfl

/-- Of two texts the second may take in its followers first. -/
theorem withTexts_cons {n m : Node} {ms : List Node} (hm : m.isText = true) :
    n.withTexts (m :: ms) =
      { n with
        content := .text (n.content.literal ++ (m.withTexts ms).content.literal)
        stop := if (m.withTexts ms).stop.known then (m.withTexts ms).stop else n.stop } := by
  rw [withTexts_eq ms hm, withTexts, lastStop_cons, List.flatMap_cons]
  rfl

@[simp] theorem id_withTexts (n : Node) (ms : List Node) : (n.withTexts ms).id = n.id := by
  cases ms <;> rfl

theorem kind_withTexts {n : Node} (ms : List Node) (hn : n.isText = true) :
    (n.withTexts ms).kind = n.kind := by
  obtain ⟨t, ht⟩ := isText_iff.mp hn
  rw [withTexts_eq ms hn, kind, kind, ht]
  rfl

theorem isText_withTexts {n : Node} (ms : List Node) (hn : n.isText = true) :
    (n.withTexts ms).isText = true := by
  rw [isText, kind_withTexts ms hn]
  exact hn

theorem literal_withTexts {n : Node} (ms : List Node) (hn : n.isText = true) :
    (n.withTexts ms).content.literal = n.content.literal ++ ms.flatMap (·.content.literal) := by
  rw [withTexts_eq ms hn]
  rfl

end Node

namespace Siblings

theorem merged_cons_text {n : Node} {l : List Node} (hn : n.isText = true) :
    merged (n :: l) = n.withTexts (l.takeWhile Node.isText) :: merged (l.dropWhile Node.isText) := by
  have hsplit : n :: l = (n :: l.takeWhile Node.isText) ++ l.dropWhile Node.isText := by
    rw [List.cons_append, List.takeWhile_append_dropWhile]
  have hall : ∀ m ∈ n :: l.takeWhile Node.isText, m.isText = true := by
    intro m hm
    rcases List.mem_cons.mp hm with rfl | hm
    · exact hn
    · exact List.mem_takeWhile_imp hm
  unfold merged
  rw [hsplit, List.splitBy_append, List.splitBy_of_isChain (List.cons_ne_nil _ _)]
  · rw [List.flatMap_append]
    rfl
  · refine List.Pairwise.isChain (List.Pairwise.imp_of_mem (R := fun _ _ => True) ?_ ?_)
    · intro a b ha hb _
      simp [hall a ha, hall b hb]
    · exact List.pairwise_of_forall fun _ _ => trivial
  · intro a _ b hb
    have := List.head?_dropWhile_not Node.isText l
    rw [Option.mem_def.mp hb] at this
    simp_all

theorem merged_cons_other {n : Node} {l : List Node} (hn : n.isText = false) :
    merged (n :: l) = n :: merged l := by
  unfold merged
  rw [show n :: l = [n] ++ l from rfl, List.splitBy_append, List.flatMap_append,
    List.splitBy_of_isChain (List.cons_ne_nil _ _) (List.isChain_singleton _)]
  · rfl
  · intro a ha b _
    simp only [List.getLast?_singleton, Option.mem_def, Option.some.injEq] at ha
    simp [← ha, hn]

/-- The last end that is known is the end of the run. -/
example :
    merged [⟨1, .text ['a'], ⟨1, 1⟩, ⟨1, 1⟩⟩, ⟨2, .text ['b'], ⟨1, 2⟩, ⟨1, 2⟩⟩,
      ⟨3, .text ['c'], .unknown, .unknown⟩, ⟨4, .softBreak, .unknown, .unknown⟩] =
    [⟨1, .text ['a', 'b', 'c'], ⟨1, 1⟩, ⟨1, 2⟩⟩, ⟨4, .softBreak, .unknown, .unknown⟩] := by
  decide

/-- Induction from run to run. -/
theorem run_induction {motive : List Node → Prop} (nil : motive [])
    (text : ∀ n l, n.isText = true → motive (l.dropWhile Node.isText) → motive (n :: l))
    (other : ∀ n l, n.isText = false → motive l → motive (n :: l)) (l : List Node) : motive l := by
  induction hk : l.length using Nat.strong_induction_on generalizing l with
  | _ k ih =>
    cases l with
    | nil => exact nil
    | cons n l =>
      rw [List.length_cons] at hk
      have hle := (List.dropWhile_sublist Node.isText (l := l)).length_le
      by_cases hn : n.isText = true
      · exact text n l hn (ih _ (by omega) _ rfl)
      · exact other n l (by simpa using hn) (ih _ (by omega) l rfl)

theorem text_cons {n : Node} {l : List Node} (hn : n.isText = true) :
    text (n :: l) = n.content.literal ++ text l := by
  unfold text
  rw [List.filter_cons, if_pos hn, List.flatMap_cons]

/-- Merging keeps the text of a list of siblings. -/
theorem text_merged (l : List Node) : text (merged l) = text l := by
  induction l using run_induction with
  | nil => rfl
  | text n l hn ih =>
    have hrun : ((l.takeWhile Node.isText).filter Node.isText) = l.takeWhile Node.isText :=
      List.filter_eq_self.mpr fun m hm => List.mem_takeWhile_imp hm
    have hl : text l = (l.takeWhile Node.isText).flatMap (·.content.literal) ++
        text (l.dropWhile Node.isText) := by
      rw [← hrun]
      unfold text
      rw [← List.flatMap_append, ← List.filter_append, List.takeWhile_append_dropWhile]
    rw [merged_cons_text hn, text_cons (Node.isText_withTexts _ hn), ih, text_cons hn, hl,
      Node.literal_withTexts _ hn, List.append_assoc]
  | other n l hn ih =>
    rw [merged_cons_other hn]
    unfold text at ih ⊢
    rw [List.filter_cons, List.filter_cons, if_neg (by simp [hn]), if_neg (by simp [hn]), ih]

theorem isText_head?_merged {l : List Node} {b : Node} (hb : (merged l).head? = some b) :
    ∃ a, l.head? = some a ∧ a.isText = b.isText := by
  cases l with
  | nil => cases hb
  | cons n l =>
    refine ⟨n, rfl, ?_⟩
    by_cases hn : n.isText = true
    · rw [merged_cons_text hn, List.head?_cons, Option.some.injEq] at hb
      rw [← hb, hn, Node.isText_withTexts _ hn]
    · rw [merged_cons_other (by simpa using hn), List.head?_cons, Option.some.injEq] at hb
      rw [hb]

/-- No two neighbours among merged siblings are texts. -/
theorem calm_merged (l : List Node) : Calm (merged l) := by
  unfold Calm
  induction l using run_induction with
  | nil => exact List.isChain_nil
  | text n l hn ih =>
    rw [merged_cons_text hn, List.isChain_cons]
    refine ⟨fun b hb => ?_, ih⟩
    obtain ⟨a, ha, hab⟩ := isText_head?_merged hb
    have hnot := List.head?_dropWhile_not Node.isText l
    simp only [ha] at hnot
    simp [← hab, hnot]
  | other n l hn ih =>
    rw [merged_cons_other hn, List.isChain_cons]
    exact ⟨fun b _ => by simp [hn], ih⟩

theorem mem_merged {l : List Node} {x : Node} (hx : x ∈ merged l) :
    ∃ y ∈ l, y.id = x.id ∧ y.kind = x.kind ∧ (y.isText = false → y = x) := by
  induction l using run_induction with
  | nil => cases hx
  | text n l hn ih =>
    rw [merged_cons_text hn] at hx
    rcases List.mem_cons.mp hx with rfl | hx
    · refine ⟨n, List.mem_cons_self, by simp, (Node.kind_withTexts _ hn).symm, ?_⟩
      simp [hn]
    · obtain ⟨y, hy, h⟩ := ih hx
      exact ⟨y, List.mem_cons_of_mem _ ((List.dropWhile_sublist _).subset hy), h⟩
  | other n l hn ih =>
    rw [merged_cons_other hn] at hx
    rcases List.mem_cons.mp hx with rfl | hx
    · exact ⟨x, List.mem_cons_self, rfl, rfl, fun _ => rfl⟩
    · obtain ⟨y, hy, h⟩ := ih hx
      exact ⟨y, List.mem_cons_of_mem _ hy, h⟩

/-- A sibling that is no text is left as it is. -/
theorem mem_merged_of_other {l : List Node} {n : Node} (hn : n ∈ l) (ht : n.isText = false) :
    n ∈ merged l := by
  induction l using run_induction with
  | nil => cases hn
  | text m l hm ih =>
    rw [merged_cons_text hm]
    rcases List.mem_cons.mp hn with rfl | hn
    · rw [hm] at ht
      cases ht
    · rw [← List.takeWhile_append_dropWhile (p := Node.isText) (l := l), List.mem_append] at hn
      rcases hn with hn | hn
      · rw [List.mem_takeWhile_imp hn] at ht
        cases ht
      · exact List.mem_cons_of_mem _ (ih hn)
  | other m l hm ih =>
    rw [merged_cons_other hm]
    rcases List.mem_cons.mp hn with rfl | hn
    · exact List.mem_cons_self
    · exact List.mem_cons_of_mem _ (ih hn)

/-- A text directly after a text is absorbed. -/
theorem mem_absorbed {l xs ys : List Node} {m n : Node} (b : Bool) (h : l = xs ++ m :: n :: ys)
    (hm : m.isText = true) (hn : n.isText = true) : n ∈ absorbed b l := by
  subst h
  induction xs generalizing b with
  | nil =>
    cases b
    · simp [absorbed, hm, hn]
    · simp [absorbed, hm, hn]
  | cons x xs ih =>
    rw [List.cons_append, absorbed]
    split
    · exact List.mem_cons_of_mem _ (ih true)
    · exact ih _

end Siblings

/-! ## The merged forest from left to right -/

namespace Forest

/-- The forest without its first tree if that is a text. -/
def dropText : Forest → Forest
  | .nil => .nil
  | .cons n cs rest => if n.isText then rest else .cons n cs rest

/-- What merging keeps of a forest that stands after a text or not. -/
def kept (afterText : Bool) (f : Forest) : Forest :=
  if afterText then f.mergeTexts.dropText else f.mergeTexts

/-- The label of a node with the texts that merging gives it from the forest
after it. -/
def label (n : Node) (rest : Forest) : Node :=
  if n.isText then n.withTexts (rest.roots.takeWhile Node.isText) else n

theorem id_label (n : Node) (rest : Forest) : (label n rest).id = n.id := by
  unfold label
  split <;> simp

theorem kind_label (n : Node) (rest : Forest) : (label n rest).kind = n.kind := by
  unfold label
  split
  · exact Node.kind_withTexts _ ‹_›
  · rfl

theorem isText_label (n : Node) (rest : Forest) : (label n rest).isText = n.isText := by
  rw [Node.isText, kind_label]
  rfl

theorem label_of_other {n : Node} (hn : n.isText = false) (rest : Forest) : label n rest = n := by
  simp [label, hn]

theorem kept_false (f : Forest) : f.kept false = f.mergeTexts := rfl

theorem kept_nil (b : Bool) : kept b .nil = .nil := by cases b <;> rfl

/-- Joining a node and a forest, by whether both begin with a text. -/
theorem joinText_cons (n m : Node) (cs ms rest : Forest) :
    joinText n cs (.cons m ms rest) =
      if n.isText && m.isText then
        .cons { n with
          content := .text (n.content.literal ++ m.content.literal)
          stop := if m.stop.known then m.stop else n.stop } cs rest
      else .cons n cs (.cons m ms rest) := by
  obtain ⟨i, c, p, q⟩ := n
  obtain ⟨j, d, r, t⟩ := m
  cases c <;> cases d <;> rfl

/-- Merging reads a forest from left to right: a tree is kept with its label,
and if it is a text, the texts after it go. -/
theorem mergeTexts_cons (n : Node) (cs rest : Forest) :
    (Forest.cons n cs rest).mergeTexts =
      .cons (label n rest) cs.mergeTexts (rest.kept n.isText) := by
  induction rest generalizing n cs with
  | nil =>
    rw [kept_nil, mergeTexts, mergeTexts, joinText]
    unfold label
    split <;> rfl
  | cons m ms rest _ ih =>
    have hm := ih m ms
    rw [mergeTexts, hm, joinText_cons, isText_label]
    by_cases hn : n.isText = true
    · by_cases ht : m.isText = true
      · have hnew : label n (.cons m ms rest) = { n with
            content := .text (n.content.literal ++ (label m rest).content.literal)
            stop := if (label m rest).stop.known then (label m rest).stop else n.stop } := by
          rw [label, label, if_pos hn, if_pos ht, roots, List.takeWhile_cons_of_pos ht,
            Node.withTexts_cons ht]
        have hrest : kept n.isText (.cons m ms rest) = rest.kept m.isText := by
          rw [hn, kept, if_pos rfl, hm, dropText, isText_label, if_pos ht]
        rw [if_pos (by simp [hn, ht]), hnew, hrest]
      · have hnew : label n (.cons m ms rest) = n := by
          rw [label, if_pos hn, roots, List.takeWhile_cons_of_neg ht]
          rfl
        have hrest : kept n.isText (.cons m ms rest) =
            .cons (label m rest) ms.mergeTexts (rest.kept m.isText) := by
          rw [hn, kept, if_pos rfl, hm, dropText, isText_label, if_neg ht]
        rw [if_neg (by simp [ht]), hnew, hrest]
    · have hn' : n.isText = false := by simpa using hn
      rw [if_neg (by simp [hn]), label_of_other hn', hn', kept_false, hm]

theorem kept_cons (b : Bool) (n : Node) (cs rest : Forest) :
    (Forest.cons n cs rest).kept b =
      if n.isText && b then rest.kept true
      else .cons (label n rest) (cs.kept false) (rest.kept n.isText) := by
  unfold kept
  rw [mergeTexts_cons]
  cases b
  · simp [kept]
  · by_cases hn : n.isText = true
    · simp [dropText, isText_label, hn, kept]
    · simp [dropText, isText_label, hn, kept]

/-! ## What is kept and what is absorbed -/

theorem absorbed_cons (b : Bool) (n : Node) (cs rest : Forest) :
    (Forest.cons n cs rest).absorbed b =
      if n.isText && b then .cons n cs (rest.absorbed true)
      else (cs.absorbed false).append (rest.absorbed n.isText) := rfl

/-- Merging neither loses a node nor makes one. -/
theorem ids_kept_absorbed (b : Bool) (f : Forest) :
    ((f.kept b).ids ++ (f.absorbed b).ids).Perm f.ids := by
  induction f generalizing b with
  | nil => rw [kept_nil]; exact List.Perm.refl _
  | cons n cs rest ihc ihr =>
    rw [kept_cons, absorbed_cons, ids_cons]
    by_cases h : (n.isText && b) = true
    · rw [if_pos h, if_pos h, ids_cons]
      refine List.perm_middle.trans (List.Perm.cons _ ?_)
      exact (List.perm_append_comm_assoc _ _ _).trans ((ihr true).append_left _)
    · rw [if_neg h, if_neg h, ids_cons, ids_append, id_label, List.cons_append]
      refine List.Perm.cons _ (List.Perm.trans ?_ ((ihc false).append (ihr n.isText)))
      simp only [List.append_assoc]
      exact (List.perm_append_comm_assoc _ _ _).append_left _

theorem kept_ids_subset (b : Bool) (f : Forest) : (f.kept b).ids ⊆ f.ids := fun _ hi =>
  (ids_kept_absorbed b f).subset (List.mem_append_left _ hi)

theorem absorbed_ids_subset (b : Bool) (f : Forest) : (f.absorbed b).ids ⊆ f.ids := fun _ hi =>
  (ids_kept_absorbed b f).subset (List.mem_append_right _ hi)

/-- The roots of what is kept are the roots, merged. -/
theorem roots_kept (b : Bool) (f : Forest) :
    (f.kept b).roots = Siblings.merged (if b then f.roots.dropWhile Node.isText else f.roots) := by
  induction f generalizing b with
  | nil => rw [kept_nil]; cases b <;> rfl
  | cons n cs rest _ ih =>
    rw [kept_cons, roots]
    by_cases hn : n.isText = true
    · cases b
      · rw [if_neg (by simp), roots, ih, hn, if_pos rfl, if_neg (by simp),
          Siblings.merged_cons_text hn, label, if_pos hn]
      · rw [if_pos (by simp [hn]), ih, if_pos rfl, if_pos rfl, List.dropWhile_cons_of_pos hn]
    · have hn' : n.isText = false := by simpa using hn
      rw [if_neg (by simp [hn']), roots, ih, hn', if_neg (by simp), label_of_other hn',
        List.dropWhile_cons_of_neg hn, ite_self, Siblings.merged_cons_other hn']

/-- Each row that is kept is a row of before with its children merged. Only
the label of a text changes, and it stays a text. -/
theorem row_of_kept {b : Bool} {f : Forest} {s : Row} (hs : s ∈ (f.kept b).rows) :
    ∃ r ∈ f.rows, r.node.id = s.node.id ∧ r.node.kind = s.node.kind ∧
      (r.node.isText = false → r.node = s.node) ∧ s.children = Siblings.merged r.children := by
  induction f generalizing b with
  | nil =>
    rw [kept_nil] at hs
    cases hs
  | cons n cs rest ihc ihr =>
    have hrest : ∀ b', s ∈ (rest.kept b').rows → ∃ r ∈ (Forest.cons n cs rest).rows,
        r.node.id = s.node.id ∧ r.node.kind = s.node.kind ∧
          (r.node.isText = false → r.node = s.node) ∧ s.children = Siblings.merged r.children := by
      intro b' hs
      obtain ⟨r, hr, h⟩ := ihr hs
      exact ⟨r, by simp [hr], h⟩
    rw [kept_cons] at hs
    split at hs
    · exact hrest _ hs
    · rw [rows_cons, List.mem_cons, List.mem_append] at hs
      rcases hs with rfl | hs | hs
      · refine ⟨⟨n, cs.roots⟩, by simp, (id_label _ _).symm, (kind_label _ _).symm, ?_, ?_⟩
        · intro hn
          exact (label_of_other hn rest).symm
        · exact roots_kept false cs
      · obtain ⟨r, hr, h⟩ := ihc hs
        exact ⟨r, by simp [hr], h⟩
      · exact hrest _ hs

theorem label_eq_or (n : Node) (cs rest : Forest) :
    label n rest = n ∨ Siblings.Extends (cons n cs rest).roots n (label n rest) := by
  unfold label
  split
  · rename_i hn
    rcases hms : rest.roots.takeWhile Node.isText with _ | ⟨m, ms⟩
    · exact Or.inl rfl
    · refine Or.inr ⟨hn, m :: ms, List.cons_ne_nil m ms, fun x hx => ?_, ?_, rfl⟩
      · exact List.mem_takeWhile_imp (hms ▸ hx)
      · rw [← hms, roots]
        exact ((List.prefix_cons_inj n).mpr (List.takeWhile_prefix _)).isInfix
  · exact Or.inl rfl

/-- A node that is kept is as it was, or a text that took in the texts after it
in its list of siblings. -/
theorem node_of_kept {b : Bool} {f : Forest} {n' : Node} (hn : n' ∈ (f.kept b).nodes) :
    ∃ n ∈ f.nodes, n' = n ∨ Siblings.Extends f.roots n n' ∨
      ∃ r ∈ f.rows, Siblings.Extends r.children n n' := by
  induction f generalizing b with
  | nil =>
    rw [kept_nil] at hn
    cases hn
  | cons n cs rest ihc ihr =>
    have hrest : ∀ b', n' ∈ (rest.kept b').nodes → ∃ m ∈ (cons n cs rest).nodes, n' = m ∨
        Siblings.Extends (cons n cs rest).roots m n' ∨
          ∃ r ∈ (cons n cs rest).rows, Siblings.Extends r.children m n' := by
      intro b' hn'
      obtain ⟨m, hm, h⟩ := ihr hn'
      refine ⟨m, by simp [nodes, hm], h.imp_right (Or.imp ?_ ?_)⟩
      · rintro ⟨ht, ms, hne, htexts, hin, heq⟩
        exact ⟨ht, ms, hne, htexts, hin.trans (List.suffix_cons n _).isInfix, heq⟩
      · rintro ⟨r, hr, hx⟩
        exact ⟨r, by simp [hr], hx⟩
    rw [kept_cons] at hn
    split at hn
    · exact hrest _ hn
    · rw [nodes, List.mem_cons, List.mem_append] at hn
      rcases hn with rfl | hn | hn
      · exact ⟨n, by simp [nodes], (label_eq_or n cs rest).imp_right Or.inl⟩
      · obtain ⟨m, hm, h⟩ := ihc hn
        refine ⟨m, by simp [nodes, hm], h.imp_right fun h => Or.inr ?_⟩
        rcases h with hx | ⟨r, hr, hx⟩
        · exact ⟨⟨n, cs.roots⟩, by simp, hx⟩
        · exact ⟨r, by simp [hr], hx⟩
      · exact hrest _ hn

/-- What is absorbed is absorbed with all that stands below it. -/
theorem subtrees_absorbed (b : Bool) (f : Forest) : (f.absorbed b).subtrees ⊆ f.subtrees := by
  induction f generalizing b with
  | nil => exact List.Subset.refl _
  | cons n cs rest ihc ihr =>
    intro t ht
    rw [absorbed_cons] at ht
    rw [subtrees, List.mem_cons, List.mem_append]
    split at ht
    · rw [subtrees, List.mem_cons, List.mem_append] at ht
      rcases ht with ht | ht | ht
      · exact Or.inl ht
      · exact Or.inr (Or.inl ht)
      · exact Or.inr (Or.inr (ihr _ ht))
    · rw [subtrees_append, List.mem_append] at ht
      rcases ht with ht | ht
      · exact Or.inr (Or.inl (ihc _ ht))
      · exact Or.inr (Or.inr (ihr _ ht))

/-- The texts that are absorbed in any list of siblings become trees of their
own. -/
theorem mem_roots_absorbed {f : Forest} (hleaf : f.AreLeaves Node.isText) {x : Node} (b : Bool)
    (hx : x ∈ Siblings.absorbed b f.roots ∨ ∃ r ∈ f.rows, x ∈ Siblings.absorbed false r.children) :
    x ∈ (f.absorbed b).roots := by
  induction f generalizing b with
  | nil => simp [roots, Siblings.absorbed] at hx
  | cons n cs rest ihc ihr =>
    obtain ⟨hleafn, hleafc, hleafr⟩ := areLeaves_cons hleaf
    rw [absorbed_cons]
    by_cases h : (n.isText && b) = true
    · -- a text has no children, so only the row after it matters
      have hn : n.isText = true := (Bool.and_eq_true_iff.mp h).1
      obtain rfl := hleafn hn
      rw [if_pos h, roots, List.mem_cons]
      simp only [roots, Siblings.absorbed, if_pos h, rows_cons, rows_nil, List.nil_append,
        List.mem_cons] at hx
      rcases hx with (rfl | hx) | ⟨r, rfl | hr, hx⟩
      · exact Or.inl rfl
      · exact Or.inr (ihr hleafr true (Or.inl hx))
      · cases hx
      · exact Or.inr (ihr hleafr true (Or.inr ⟨r, hr, hx⟩))
    · rw [if_neg h, roots_append, List.mem_append]
      simp only [roots, Siblings.absorbed, if_neg h, rows_cons, List.mem_cons,
        List.mem_append] at hx
      rcases hx with hx | ⟨r, rfl | hr | hr, hx⟩
      · exact Or.inr (ihr hleafr _ (Or.inl hx))
      · exact Or.inl (ihc hleafc false (Or.inl hx))
      · exact Or.inl (ihc hleafc false (Or.inr ⟨r, hr, hx⟩))
      · exact Or.inr (ihr hleafr _ (Or.inr ⟨r, hr, hx⟩))

/-- Nothing but texts is absorbed. -/
theorem isText_of_absorbed {f : Forest} (hleaf : f.AreLeaves Node.isText) {b : Bool} {s : Row}
    (hs : s ∈ (f.absorbed b).rows) : s.node.isText = true := by
  induction f generalizing b with
  | nil => cases hs
  | cons n cs rest ihc ihr =>
    obtain ⟨hleafn, hleafc, hleafr⟩ := areLeaves_cons hleaf
    rw [absorbed_cons] at hs
    split at hs
    · rename_i h
      have hn : n.isText = true := (Bool.and_eq_true_iff.mp h).1
      rw [hleafn hn, rows_cons, rows_nil, List.nil_append, List.mem_cons] at hs
      rcases hs with rfl | hs
      · exact hn
      · exact ihr hleafr hs
    · rw [rows_append, List.mem_append] at hs
      rcases hs with hs | hs
      · exact ihc hleafc hs
      · exact ihr hleafr hs

/-! ## Leaves and sites in what is kept -/

theorem AreLeaves.mergeTexts {f : Forest} (h : f.AreLeaves Node.isText) :
    f.mergeTexts.AreLeaves Node.isText := by
  intro s hs ht
  obtain ⟨r, hr, -, hkind, -, hchildren⟩ := row_of_kept (b := false) hs
  have hrt : r.node.isText = true := by
    rw [Node.isText, hkind]
    exact ht
  rw [hchildren, h r hr hrt]
  rfl

/-- What joining a tree to a merged row asks for. -/
theorem leaf_of_merged {n : Node} {cs rest : Forest} (h : (cons n cs rest).AreLeaves Node.isText) :
    (n.isText = true → cs.mergeTexts = .nil) ∧
      ∀ m ms others, rest.mergeTexts = .cons m ms others → m.isText = true → ms = .nil := by
  obtain ⟨hn, -, hrest⟩ := areLeaves_cons h
  constructor
  · intro hnt
    rw [hn hnt]
    rfl
  · intro m ms others hm
    have hmerged := hrest.mergeTexts
    rw [hm] at hmerged
    exact (areLeaves_cons hmerged).1

/-- A node that is no text keeps its label and the nodes above it. What stands
below it is merged. -/
theorem site?_kept {f : Forest} (hleaves : f.AreLeaves Node.isText) {id : NodeId}
    {ancestors before : List Node} {s : Site} (hs : f.site? id ancestors before = some s)
    (ht : s.node.isText = false) (b : Bool) (before' : List Node) :
    ∃ u, (f.kept b).site? id ancestors before' = some u ∧ u.node = s.node ∧
      u.ancestors = s.ancestors ∧ u.children = s.children.mergeTexts := by
  induction f generalizing ancestors before b before' with
  | nil => cases hs
  | cons n cs rest ihc ihr =>
    obtain ⟨hleaf, hleavesc, hleavesr⟩ := areLeaves_cons hleaves
    rw [kept_cons]
    unfold site? at hs
    by_cases hn : n.id = id
    · rw [if_pos hn] at hs
      cases hs
      rw [if_neg (by simp [show n.isText = false from ht]), label_of_other ht, site?, if_pos hn]
      exact ⟨_, rfl, rfl, rfl, rfl⟩
    · rw [if_neg hn] at hs
      rcases Option.or_eq_some_iff.mp hs with hs | ⟨hnone, hs⟩
      · -- a node with something below it is no text
        have hnt : n.isText = false := by
          refine Bool.eq_false_iff.mpr fun hnt => ?_
          rw [hleaf hnt] at hs
          cases hs
        obtain ⟨u, hu, h⟩ := ihc hleavesc hs false []
        rw [if_neg (by simp [hnt]), label_of_other hnt, site?, if_neg hn, hu]
        exact ⟨u, rfl, h⟩
      · split
        · exact ihr hleavesr hs true before'
        · obtain ⟨u, hu, h⟩ := ihr hleavesr hs n.isText (label n rest :: before')
          have hkept : id ∉ (cs.kept false).ids := fun hi =>
            site?_eq_none_iff.mp hnone (kept_ids_subset false cs hi)
          rw [site?, id_label, if_neg hn, site?_none hkept, Option.none_or, hu]
          exact ⟨u, rfl, h⟩

/-! ## Merging again -/

/-- Where no two neighbours are texts, merging keeps all as it is. -/
theorem kept_of_calm {f : Forest} (b : Bool) (hroots : Siblings.Calm f.roots)
    (hrows : ∀ r ∈ f.rows, Siblings.Calm r.children)
    (hb : b = true → ∀ n ∈ f.roots.head?, n.isText = false) :
    f.kept b = f ∧ f.absorbed b = .nil := by
  induction f generalizing b with
  | nil => exact ⟨kept_nil b, rfl⟩
  | cons n cs rest ihc ihr =>
    rw [roots, Siblings.Calm, List.isChain_cons] at hroots
    have hn : (n.isText && b) = false := by
      cases b
      · simp
      · simp [hb rfl n rfl]
    have hnext : n.isText = true → ∀ m ∈ rest.roots.head?, m.isText = false := by
      intro hnt m hm
      have := hroots.1 m hm
      simpa [hnt] using this
    have hlabel : label n rest = n := by
      by_cases hnt : n.isText = true
      · rw [label, if_pos hnt]
        rcases hl : rest.roots with _ | ⟨m, ms⟩
        · rfl
        · have hm := hnext hnt m (by rw [hl]; rfl)
          rw [List.takeWhile_cons_of_neg (by simp [hm])]
          rfl
      · exact label_of_other (by simpa using hnt) rest
    obtain ⟨hkc, hac⟩ := ihc false (hrows ⟨n, cs.roots⟩ (by simp))
      (fun r hr => hrows r (by simp [hr])) (by simp)
    obtain ⟨hkr, har⟩ := ihr n.isText hroots.2 (fun r hr => hrows r (by simp [hr])) hnext
    rw [kept_cons, absorbed_cons, if_neg (by simp [hn]), if_neg (by simp [hn]), hlabel, hkc, hkr,
      hac, har]
    exact ⟨rfl, rfl⟩

theorem calm_kept (b : Bool) (f : Forest) :
    Siblings.Calm (f.kept b).roots ∧ ∀ r ∈ (f.kept b).rows, Siblings.Calm r.children := by
  constructor
  · rw [roots_kept]
    exact Siblings.calm_merged _
  · intro s hs
    obtain ⟨r, -, -, -, -, h⟩ := row_of_kept hs
    rw [h]
    exact Siblings.calm_merged _

end Forest

end MarkupTree
