-- The XML of a node holds the whole tree below the node. A reader that is told
-- nothing finds the tree of elements in it, and so two trees with the same XML
-- differ at most in what no element tells.
import MarkupTree.Proofs.Document.Contents
import MarkupTree.Proofs.Xml.Written

namespace MarkupTree

namespace Xml

open Markup (Mark Token)

/-! ## Reading the tokens back -/

namespace Reader

variable {r : Reader} {name : Text} {as : List (Text × Text)} {us : List Token}

/-- Characters are kept as they are. -/
theorem run_chars (t : Text) (us : List Token) :
    r.run (t.map Token.char ++ us) = Reader.run { r with chars := r.chars ++ t } us := by
  induction t generalizing r with
  | nil => simp
  | cons c t ih =>
    rw [List.map_cons, List.cons_append, run, step, Option.bind_some, ih]
    simp

theorem run_indent (hr : r.chars = ['\n']) (depth : Nat) (us : List Token) :
    r.run (indentTokens depth ++ us) = Reader.run { r with chars := '\n' :: indent depth } us := by
  rw [indentTokens, run_chars, hr]
  rfl

theorem run_opening (hr : r.chars = ['\n']) :
    r.run (indentTokens r.around.length ++ .mark (.opening name (escaped as)) :: us) =
      Reader.run ⟨⟨name, as, r.row⟩ :: r.around, [], []⟩ us := by
  rw [run_indent hr, run, step, decodeAttributes_escaped]
  simp [atTag]

/-- The reader with more elements at the end of the row. -/
def add (r : Reader) (es : List (Rose Element)) : Reader := { r with row := r.row ++ es }

theorem add_nil : r.add [] = r := by simp [add]

theorem add_add (es fs : List (Rose Element)) : (r.add es).add fs = r.add (es ++ fs) := by
  simp [add]

theorem run_void (hr : r.chars = ['\n']) :
    r.run (indentTokens r.around.length ++ .mark (.void name (escaped as)) :: .char '\n' :: us) =
      (r.add [.node ⟨name, as, none⟩ []]).run us := by
  rw [run_indent hr, run, step, decodeAttributes_escaped]
  simp [atTag, put, run, step, add, hr]

theorem run_literal (hr : r.chars = ['\n']) (t : Text) :
    r.run (indentTokens r.around.length ++ .mark (.opening name (escaped as)) ::
        ((escape t).map Token.char ++ .mark (.closing name) :: .char '\n' :: us)) =
      (r.add [.node ⟨name, as, some t⟩ []]).run us := by
  rw [run_opening hr, run_chars, run, step]
  simp [put, run, step, decode_escape, add, hr]

/-- An element with the elements `es` in it, which `inner` is read as. -/
theorem run_enclosed (hr : r.chars = ['\n']) {es : List (Rose Element)} (hes : es ≠ [])
    {inner : List Token}
    (hinner : ∀ {r' : Reader}, r'.chars = ['\n'] → r'.around.length = r.around.length + 1 →
      ∀ us, r'.run (inner ++ us) = (r'.add es).run us) :
    r.run (indentTokens r.around.length ++ .mark (.opening name (escaped as)) :: .char '\n' ::
        (inner ++ (indentTokens r.around.length ++
          .mark (.closing name) :: .char '\n' :: us))) =
      (r.add [.node ⟨name, as, none⟩ es]).run us := by
  rw [run_opening hr, run, step, Option.bind_some, hinner (by rfl) (by rfl),
    run_indent (by rfl), run, step]
  simp [atTag, put, run, step, add, hr, hes]

end Reader

/-! ## Reading a tree back -/

/-- In the forest, what holds a literal has no children. -/
def LiteralsAreLeaves (f : Forest) : Prop :=
  ∀ r ∈ f.rows, r.node.content.literal?.isSome → r.children = []

theorem literalsAreLeaves_cons {n : Node} {cs rest : Forest}
    (h : LiteralsAreLeaves (.cons n cs rest)) :
    (n.content.literal?.isSome → cs = .nil) ∧ LiteralsAreLeaves cs ∧ LiteralsAreLeaves rest :=
  Forest.areLeaves_cons (p := fun n => n.content.literal?.isSome) h

/-- The row of elements that stands for a row of trees. -/
def elements (f : Forest) : List (Rose Element) := f.roses fun n => element n.content

/-- The tokens of one node are read as its element, if those below it are. -/
theorem run_site {s : Site} (hleaf : s.content.literal?.isSome → s.children = .nil)
    (hinner : ∀ {r : Reader}, r.chars = ['\n'] → r.around.length = s.depth + 1 → ∀ us,
      r.run (s.children.visit tokens (s.node :: s.ancestors) [] (s.depth + 1) ++ us) =
        (r.add (elements s.children)).run us)
    {r : Reader} (hr : r.chars = ['\n']) (hdepth : r.around.length = s.depth) (us : List Token) :
    r.run (s.visit tokens ++ us) = (r.add [s.tree.rose fun n => element n.content]).run us := by
  have hvisit : s.visit tokens = enterTokens s ++
      s.children.visit tokens (s.node :: s.ancestors) [] (s.depth + 1) ++ exitTokens s := rfl
  have hrose : s.tree.rose (fun n => element n.content) =
      .node ⟨s.kind.name, (element s.content).attributes, s.content.literal?⟩
        (elements s.children) := rfl
  rw [hvisit, hrose, enterTokens, exitTokens, ← hdepth]
  rw [← hdepth] at hinner
  rcases hl : s.content.literal? with _ | t
  · rcases hc : s.children with _ | ⟨m, below, rest⟩
    · simp only [Forest.isEmpty, Forest.visit, if_true, List.append_assoc, List.cons_append,
        List.nil_append]
      exact Reader.run_void hr
    · rw [hc] at hinner
      simp only [Forest.isEmpty, Bool.false_eq_true, if_false, List.append_assoc, List.cons_append,
        List.nil_append]
      exact Reader.run_enclosed hr (List.cons_ne_nil _ _) hinner
  · rw [hleaf (by rw [hl]; rfl)]
    simp only [Forest.isEmpty, Forest.visit, if_true, List.append_assoc, List.cons_append,
      List.nil_append]
    exact Reader.run_literal hr t

/-- The tokens of a row of siblings are read as the row of their elements. -/
theorem run_visit {f : Forest} (hf : LiteralsAreLeaves f) {ancestors before : List Node}
    {depth : Nat} {r : Reader} (hr : r.chars = ['\n']) (hdepth : r.around.length = depth)
    (us : List Token) :
    r.run (f.visit tokens ancestors before depth ++ us) = (r.add (elements f)).run us := by
  induction f generalizing ancestors before depth r us with
  | nil => rw [Forest.visit, List.nil_append, elements, Forest.roses, Reader.add_nil]
  | cons n cs rest ihc ihr =>
    obtain ⟨hleaf, hcs, hrest⟩ := literalsAreLeaves_cons hf
    let s : Site := { node := n, children := cs, ancestors, before, after := rest, depth }
    have hvisit : (Forest.cons n cs rest).visit tokens ancestors before depth =
        s.visit tokens ++ rest.visit tokens ancestors (n :: before) depth := rfl
    rw [hvisit, List.append_assoc, run_site (s := s) hleaf (ihc hcs) hr hdepth,
      ihr hrest (by exact hr) (by exact hdepth), Reader.add_add]
    rfl

/-! ## Trees with the same XML -/

/-- What XML tells of the tree of a node. -/
def told (s : Site) : Rose Content := s.tree.rose fun n => essence n.content

theorem told_eq_of_elements {s t : Site}
    (h : s.tree.rose (fun n => element n.content) = t.tree.rose fun n => element n.content) :
    told s = told t := by
  have hcontent : (fun n : Node => essence n.content) =
      Element.content ∘ fun n : Node => element n.content :=
    funext fun n => (content_element n.content).symm
  rw [told, told, hcontent, ← Tree.map_rose, h, Tree.map_rose]

/-- The tokens hang on what is told only. -/
theorem looksAt_tokens : tokens.LooksAt fun n => essence n.content := by
  intro s t hcontent hdepth hchildren
  have helement : element s.content = element t.content := by
    rw [← element_essence, ← element_essence t.content]
    exact congrArg element hcontent
  have hname : s.kind.name = t.kind.name := congrArg Element.name helement
  have hliteral : s.content.literal? = t.content.literal? := congrArg Element.literal helement
  refine ⟨?_, ?_, rfl⟩
  · show enterTokens s = enterTokens t
    unfold enterTokens
    rw [helement, hname, hliteral, hdepth, hchildren]
  · show exitTokens s = exitTokens t
    unfold exitTokens
    rw [hname, hdepth, hchildren]

/-- What the XML of a node is to the reader. -/
structure ReadsBack (e : Escaper) (o : Options) (s : Site) (tokens : List Token) : Prop where
  /-- The tokens are all that follows the header. -/
  whole : render e o s = header ++ tokens.flatMap Token.text
  split : Markup.read? (tokens.flatMap Token.text) = some tokens
  /-- Brackets stand at the ends of marks only, and each value is between
  quotes without holding any. -/
  clean : ∀ t ∈ tokens, t.isClean = true
  laidOut : IsLaidOut tokens
  /-- Where a node is entered, the running indent is two spaces for each element
  around it. -/
  indented : ∀ above written t, s.Enters (visitor e o) above written t →
    spacesAfter 0 written = 2 * above.length
  tree : read? (render e o s) = some [s.tree.rose fun n => element n.content]

theorem readsBack {e : Escaper} (he : e.Documented) {o : Options} (ho : o.sourcePos = false)
    {s : Site} (hdepth : s.depth = 0) (hf : LiteralsAreLeaves s.tree.alone) :
    ReadsBack e o s (s.visit tokens) := by
  obtain rfl := he.eq_escape
  obtain ⟨hleaf, hchildren, -⟩ := literalsAreLeaves_cons hf
  have hwhole : render escape o s = header ++ (s.visit tokens).flatMap Token.text := by
    rw [render, ← print_visit ho, hdepth]
  have hsplit := Markup.read?_flatMap_text (isClean_tokens s)
  have hrun : Reader.begin.run (s.visit tokens) =
      some (Reader.begin.add [s.tree.rose fun n => element n.content]) := by
    have h := run_site hleaf (run_visit hchildren) (r := Reader.begin) rfl hdepth.symm []
    rwa [List.append_nil] at h
  refine ⟨hwhole, hsplit, isClean_tokens s, isLaidOut_of_run hrun rfl,
    fun _ _ _ => spacesAfter_enters, ?_⟩
  rw [read?, hwhole, Text.after?_append, Option.bind_some, hsplit, Option.bind_some, hrun]
  rfl

end Xml

namespace Document

/-! ## XML of sessions -/

/-- What holds a literal cannot contain anything. -/
theorem Sound.literalsAreLeaves {d : Document} (h : Sound d) : Xml.LiteralsAreLeaves d.trees := by
  refine h.areLeaves (p := fun n => n.content.literal?.isSome) fun n hn k => ?_
  rw [Node.kind]
  cases hcontent : n.content with
  | codeBlock | htmlBlock | text | code | htmlInline => simp [Content.kind, Kind.canContain]
  | _ =>
    rw [hcontent] at hn
    cases hn

theorem Sound.children_of_literal {d : Document} (h : d.Sound) {id : NodeId} {s : Site}
    (hs : d.site? id = some s) (hliteral : s.content.literal?.isSome = true) : s.children = .nil := by
  have hrow : s.tree.row ∈ d.trees.rows := List.mem_map_of_mem (mem_subtrees_of_site? hs)
  exact Forest.eq_nil_of_roots (h.literalsAreLeaves s.tree.row hrow hliteral)

/-- The XML of any node holds the whole tree below it: one reader finds it in
every XML, so that two of them are equal just if what they tell is. -/
theorem Session.xml_determines_trees {e : Xml.Escaper} (he : e.Documented) (x y : Session)
    {i j : NodeId} {s u : Site} (hs : x.document.site? i = some s)
    (hu : y.document.site? j = some u) {o p : Options} (ho : o.sourcePos = false)
    (hp : p.sourcePos = false) :
    (∃ tokens, Xml.ReadsBack e o s tokens) ∧
      (Xml.render e o s = Xml.render e p u ↔ Xml.told s = Xml.told u) := by
  have hreads : ∀ (z : Session) {k : NodeId} {t : Site}, z.document.site? k = some t →
      ∀ {q : Options}, q.sourcePos = false → Xml.ReadsBack e q t (t.visit Xml.tokens) := by
    intro z k t ht q hq
    refine Xml.readsBack he hq (Forest.depth_of_siteAmong? ht) fun r hr => ?_
    exact z.sound.literalsAreLeaves r (Forest.rows_subset (mem_subtrees_of_site? ht) hr)
  refine ⟨⟨_, hreads x hs ho⟩, fun hxml => ?_, fun htold => ?_⟩
  · have helements := (hreads x hs ho).tree
    rw [hxml, (hreads y hu hp).tree, Option.some.injEq, List.cons.injEq] at helements
    exact Xml.told_eq_of_elements helements.1.symm
  · have hdepth := (Forest.depth_of_siteAmong? hs).trans (Forest.depth_of_siteAmong? hu).symm
    rw [(hreads x hs ho).whole, (hreads y hu hp).whole,
      Site.visit_eq_of_rose Xml.looksAt_tokens htold hdepth]

/-- Two documents with other numbers, one of them with an empty info string.
Their texts look like markup, and their XML is the same. -/
theorem xml_determines_trees_markup :
    let x : Session := ⟨.new, [.create .codeBlock, .set 1 (.literal (some "</code_block>\n <".toList)),
      .create .list, .set 2 (.listType .ordered), .set 2 (.listStart 7), .appendChild 0 2,
      .appendChild 0 1, .create .item, .appendChild 2 3]⟩
    let y : Session := ⟨.new, [.create .list, .appendChild 0 1, .create .item, .appendChild 1 2,
      .set 1 (.listStart 7), .set 1 (.listType .ordered), .create .codeBlock,
      .set 3 (.fenceInfo (some [])), .insertAfter 1 3,
      .set 3 (.literal (some "</code_block>\n <".toList))]⟩
    ∃ s u, x.document.site? 0 = some s ∧ y.document.site? 0 = some u ∧ s ≠ u ∧
      (∃ tokens, Xml.ReadsBack Xml.escape {} s tokens) ∧
      Xml.render Xml.escape {} s = Xml.render Xml.escape {} u ∧
      Xml.told s = Xml.told u := by
  intro x y
  have hs : x.document.site? 0 = some ((x.document.site? 0).get (by decide +kernel)) := by simp
  have hu : y.document.site? 0 = some ((y.document.site? 0).get (by decide +kernel)) := by simp
  have hxml : Xml.render Xml.escape {} ((x.document.site? 0).get (by decide +kernel)) =
      Xml.render Xml.escape {} ((y.document.site? 0).get (by decide +kernel)) := by decide +kernel
  obtain ⟨hreads, hiff⟩ :=
    x.xml_determines_trees Xml.documented_escape y hs hu (o := {}) (p := {}) rfl rfl
  exact ⟨_, _, hs, hu, by decide +kernel, hreads, hxml, hiff.mp hxml⟩

end Document

end MarkupTree
