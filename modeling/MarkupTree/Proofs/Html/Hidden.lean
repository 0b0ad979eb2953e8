-- What HTML without raw HTML hides. Two documents that differ in nothing but
-- raw HTML outside images and in dangerous addresses have the same pages. The
-- description of an image shows raw HTML as text, so there it must agree.
import MarkupTree.Proofs.Html.Fragments

namespace MarkupTree

/-! ## Documents that show the same -/

/-- The contents are the same but for raw HTML and for addresses that are
dangerous in both. Raw HTML in the description of an image is the same. -/
inductive Content.SameShown (described : Bool) : Content → Content → Prop
  | same (c : Content) : SameShown described c c
  | htmlBlock (t u : Text) : SameShown described (.htmlBlock t) (.htmlBlock u)
  | htmlInline (t u : Text) (h : described = false) :
    SameShown described (.htmlInline t) (.htmlInline u)
  | link {url url' : Text} (h : Html.isDangerous url = true) (h' : Html.isDangerous url' = true)
    (title : Text) : SameShown described (.link url title) (.link url' title)
  | image {url url' : Text} (h : Html.isDangerous url = true) (h' : Html.isDangerous url' = true)
    (title : Text) : SameShown described (.image url title) (.image url' title)

structure Node.SameShown (described : Bool) (n m : Node) : Prop where
  content : n.content.SameShown described m.content
  start : n.start = m.start
  stop : n.stop = m.stop

/-- The rows have the same shape, and their nodes show the same. -/
inductive Forest.SameShown : Bool → Forest → Forest → Prop
  | nil {described : Bool} : SameShown described .nil .nil
  | cons {described : Bool} {n m : Node} {cs ds rest others : Forest}
    (node : n.SameShown described m)
    (below : SameShown (described || n.kind == .image) cs ds)
    (beside : SameShown described rest others) :
    SameShown described (.cons n cs rest) (.cons m ds others)

namespace Document

/-- Whether an image stands above the node. -/
def described (d : Document) (id : NodeId) : Bool :=
  match d.site? id with
  | some s => s.ancestors.any fun n => n.kind == .image
  | none => false

/-- `φ` takes each node of the first document to one in the same place of the
second that shows the same. -/
structure SameShown (d e : Document) (φ : NodeId → NodeId) : Prop where
  parent : ∀ id, d.contains id = true → e.parent? (φ id) = (d.parent? id).map φ
  children : ∀ id, d.contains id = true → e.children (φ id) = (d.children id).map φ
  nodes : ∀ id n, d.node? id = some n →
    ∃ m, e.node? (φ id) = some m ∧ n.SameShown (d.described id) m

end Document

/-! ## Nodes that show the same -/

namespace Content.SameShown

variable {described : Bool} {c c' : Content}

theorem kind_eq (h : c.SameShown described c') : c.kind = c'.kind := by
  cases h <;> rfl

theorem isTight_eq (h : c.SameShown described c') : c.isTight = c'.isTight := by
  cases h <;> rfl

/-- What is the same in a description is the same outside one. -/
theorem undescribed (h : c.SameShown described c') : c.SameShown false c' := by
  cases h with
  | same => exact .same c
  | htmlBlock t u => exact .htmlBlock t u
  | htmlInline t u _ => exact .htmlInline t u rfl
  | link h h' title => exact .link h h' title
  | image h h' title => exact .image h h' title

end Content.SameShown

namespace Node.SameShown

variable {described : Bool} {n m : Node}

theorem kind_eq (h : n.SameShown described m) : n.kind = m.kind := h.content.kind_eq

theorem undescribed (h : n.SameShown described m) : n.SameShown false m :=
  ⟨h.content.undescribed, h.start, h.stop⟩

end Node.SameShown

/-! ## Pages that show the same -/

namespace Html

variable {e : Encoder} {o : Options} {described : Bool}

theorem plainText_eq {n m : Node} (h : n.SameShown described m) (hd : described = true) :
    plainText n = plainText m := by
  unfold plainText Node.kind
  have hc := h.content
  generalize n.content = c at hc
  generalize m.content = c' at hc
  cases hc with
  | htmlInline t u h => exact absurd hd (Bool.eq_false_iff.mp h)
  | _ => rfl

theorem description_eq {f g : Forest} (h : f.SameShown described g) (hd : described = true) :
    description f = description g := by
  unfold description
  induction h with
  | nil => rfl
  | cons node _ _ ihb ihr =>
    simp only [Forest.nodes, List.flatMap_cons, List.flatMap_append]
    rw [plainText_eq node hd, ihb (by simp [hd]), ihr hd]

theorem sourceAttribute_eq {n m : Node} (h : n.SameShown described m) :
    sourceAttribute o n = sourceAttribute o m := by
  rw [sourceAttribute, sourceAttribute, Node.span, Node.span, h.start, h.stop]

theorem addressValue_eq {url url' : Text} (ho : o.allowUnsafe = false)
    (h : isDangerous url = true) (h' : isDangerous url' = true) :
    addressValue e o url = addressValue e o url' := by
  simp [addressValue, ho, h, h']

theorem rawPiece_eq (ho : o.allowUnsafe = false) (t u : Text) : rawPiece o t = rawPiece o u := by
  simp [rawPiece, ho]

/-- The nodes above show the same, whether or not they are described. -/
def SameAbove : List Node → List Node → Prop := List.Forall₂ (Node.SameShown false)

theorem inTightList_eq {s t : Site} (h : SameAbove s.ancestors t.ancestors) :
    inTightList s = inTightList t := by
  unfold inTightList
  generalize s.ancestors = above at h
  generalize t.ancestors = above' at h
  rcases h with _ | ⟨hitem, _ | ⟨hlist, -⟩⟩
  · rfl
  · rfl
  · simp only [hitem.kind_eq, hlist.content.isTight_eq]

section

variable {s t : Site} (hnode : s.node.SameShown described t.node)
  (habove : SameAbove s.ancestors t.ancestors)

include hnode habove

theorem enter_eq (ho : o.allowUnsafe = false)
    (hbelow : s.children.SameShown (described || s.kind == .image) t.children) :
    enter e o s = enter e o t := by
  have hdescription : s.content.kind = .image → description s.children = description t.children :=
    fun himage => description_eq hbelow (by simp [show s.kind = .image from himage])
  have hc : s.content.SameShown described t.content := hnode.content
  unfold enter
  rw [sourceAttribute_eq hnode, inTightList_eq habove]
  generalize s.content = c at hc hdescription
  generalize t.content = c' at hc
  cases hc with
  | same c =>
    cases c with
    | image url title => simp only [hdescription rfl]
    | _ => rfl
  | htmlBlock t u => simp only [rawPiece_eq ho t u]
  | htmlInline t u h => simp only [rawPiece_eq ho t u]
  | link h h' title => simp only [addressValue_eq ho h h']
  | image h h' title => simp only [addressValue_eq ho h h', hdescription rfl]

theorem exit_eq : exit s = exit t := by
  have hc : s.content.SameShown described t.content := hnode.content
  unfold exit
  rw [inTightList_eq habove]
  generalize s.content = c at hc
  generalize t.content = c' at hc
  cases hc <;> rfl

end

theorem visit_eq_of_sameShown (ho : o.allowUnsafe = false) {f g : Forest}
    (h : f.SameShown described g) {above above' : List Node} (habove : SameAbove above above')
    (before before' : List Node) (depth : Nat) :
    f.visit (visitor e o) above before depth = g.visit (visitor e o) above' before' depth := by
  induction h generalizing above above' before before' depth with
  | nil => rfl
  | @cons described n m cs ds rest others node below beside ihb ihr =>
    let s : Site :=
      { node := n, children := cs, ancestors := above, before, after := rest, depth }
    let t : Site :=
      { node := m, children := ds, ancestors := above', before := before', after := others, depth }
    have henter : (visitor e o).enter s = (visitor e o).enter t := enter_eq node habove ho below
    have hexit : (visitor e o).exit s = (visitor e o).exit t := exit_eq node habove
    have hdescends : (visitor e o).descends s = (visitor e o).descends t :=
      congrArg (· != Kind.image) node.kind_eq
    have hbelow := ihb (List.Forall₂.cons node.undescribed habove) [] [] (depth + 1)
    have hbeside := ihr habove (n :: before) (m :: before') depth
    simp only [Forest.visit]
    rw [henter, hexit, hdescends, hbelow, hbeside]

/-- Sites that show the same have the same page. -/
theorem render_eq_of_sameShown (ho : o.allowUnsafe = false) {s t : Site}
    (h : s.tree.alone.SameShown described t.tree.alone)
    (habove : SameAbove s.ancestors t.ancestors) : render e o s = render e o t := by
  rw [render_eq_alone, render_eq_alone]
  exact congrArg (print true) (visit_eq_of_sameShown ho h habove [] [] 0)

end Html

/-! ## Documents that show the same have the same pages -/

namespace Document

variable {d e : Document} {φ : NodeId → NodeId}

theorem described_of_child (hd : d.trees.Distinct) {p c : NodeId} {n : Node}
    (hn : d.node? p = some n) (hc : c ∈ d.children p) :
    d.described c = (d.described p || n.kind == .image) := by
  obtain ⟨s, hs⟩ := exists_site?_of_mem (mem_ids_of_mem_children hd hc).2
  obtain ⟨u, hu, rfl⟩ := exists_site?_of_node? hn
  have hparent : d.parent? c = some p := (parent?_eq_some_iff hd).mpr hc
  rw [described, described, hs, hu]
  simp only [ancestors_of_child hd hs hu hparent, List.any_cons, Bool.or_comm]

/-- Rows of corresponding nodes show the same. -/
theorem SameShown.row (h : SameShown d e φ) (hd : d.trees.Distinct) (he : e.trees.Distinct)
    {f g : Forest} (hf : f.trees ⊆ d.trees.subtrees) (hg : g.trees ⊆ e.trees.subtrees)
    (hids : g.roots.map (·.id) = (f.roots.map (·.id)).map φ) {described : Bool}
    (hdescribed : ∀ n ∈ f.roots, d.described n.id = described) : f.SameShown described g := by
  induction f generalizing g described with
  | nil =>
    cases g with
    | nil => exact .nil
    | cons => simp [Forest.roots] at hids
  | cons n cs rest ihc ihr =>
    cases g with
    | nil => simp [Forest.roots] at hids
    | cons m ds others =>
      simp only [Forest.roots, List.map_cons, List.cons.injEq] at hids
      obtain ⟨hid, hids⟩ := hids
      obtain ⟨hn, hrest⟩ := List.forall_mem_cons.mp hdescribed
      have hsub : (⟨n, cs⟩ : Tree) ∈ d.trees.subtrees := hf List.mem_cons_self
      have hsub' : (⟨m, ds⟩ : Tree) ∈ e.trees.subtrees := hg List.mem_cons_self
      have hnode : d.node? n.id = some n :=
        node?_of_mem_nodes hd (Forest.mem_nodes_of_mem_subtrees hsub)
      have hchildren : d.children n.id = cs.roots.map (·.id) := children_of_mem_subtrees hd hsub
      refine .cons ?_ ?_ ?_
      · obtain ⟨m', hm', hshown⟩ := h.nodes n.id n hnode
        rw [← hid, node?_of_mem_nodes he (Forest.mem_nodes_of_mem_subtrees hsub')] at hm'
        cases hm'
        exact hn ▸ hshown
      · refine ihc (Forest.children_subset_subtrees hsub) (Forest.children_subset_subtrees hsub')
          ?_ fun c hc => ?_
        · have hcontains : d.contains n.id = true :=
            contains_iff.mpr (Forest.mem_ids_of_mem_subtrees hsub)
          have hrow := h.children n.id hcontains
          rwa [← hid, children_of_mem_subtrees he hsub', hchildren] at hrow
        · have hmem : c.id ∈ d.children n.id := by
            rw [hchildren]
            exact List.mem_map_of_mem hc
          rw [described_of_child hd hnode hmem, hn]
      · exact ihr (fun t ht => hf (List.mem_cons_of_mem _ ht))
          (fun t ht => hg (List.mem_cons_of_mem _ ht)) hids hrest

/-- Above corresponding nodes stand nodes that show the same. -/
theorem SameShown.above (h : SameShown d e φ) (hd : d.trees.Distinct) (he : e.trees.Distinct)
    {id : NodeId} {s t : Site} (hs : d.site? id = some s) (ht : e.site? (φ id) = some t) :
    Html.SameAbove s.ancestors t.ancestors := by
  have hid : id ∈ d.trees.ids := by
    rw [← contains_iff, contains, tree?_of_site? hs]
    rfl
  revert s t
  refine upward_induction hd (motive := fun id => ∀ {s t : Site}, d.site? id = some s →
    e.site? (φ id) = some t → Html.SameAbove s.ancestors t.ancestors) ?_ ?_ id hid
  · intro id hid hp s t hs ht
    have hparent := h.parent id (contains_iff.mpr hid)
    rw [hp] at hparent
    rw [ancestors_of_parentless hs hp, ancestors_of_parentless ht hparent]
    exact .nil
  · intro p id hp ih s t hs ht
    have hcontains : d.contains id = true := contains_iff.mpr (mem_ids_of_parent? hd hp).2
    have hparent : e.parent? (φ id) = some (φ p) := by rw [h.parent id hcontains, hp]; rfl
    obtain ⟨u, hu⟩ := exists_site?_of_mem (mem_ids_of_parent? hd hp).1
    obtain ⟨m, hm, hshown⟩ := h.nodes p u.node (node?_of_site? hu)
    obtain ⟨v, hv, rfl⟩ := exists_site?_of_node? hm
    rw [ancestors_of_child hd hs hu hp, ancestors_of_child he ht hv hparent]
    exact .cons hshown.undescribed (ih hu hv)

/-- Corresponding sites show the same. -/
theorem SameShown.site (h : SameShown d e φ) (hd : d.trees.Distinct) (he : e.trees.Distinct)
    {id : NodeId} {s t : Site} (hs : d.site? id = some s) (ht : e.site? (φ id) = some t) :
    s.tree.alone.SameShown (d.described id) t.tree.alone := by
  have hids : [t.node.id] = [φ s.node.id] := by rw [id_of_site? hs, id_of_site? ht]
  refine h.row hd he (f := s.tree.alone) (g := t.tree.alone) ?_ ?_ hids fun n hn => ?_
  · exact List.cons_subset.mpr ⟨mem_subtrees_of_site? hs, List.nil_subset _⟩
  · exact List.cons_subset.mpr ⟨mem_subtrees_of_site? ht, List.nil_subset _⟩
  · rw [List.mem_singleton.mp hn, show s.tree.node.id = id from id_of_site? hs]

/-- In every two sessions whose documents show the same, corresponding nodes
have the same page for every option set without raw HTML. -/
theorem Session.hidden_content_stays_hidden (x y : Session) {φ : NodeId → NodeId}
    (h : SameShown x.document y.document φ) {o : Options} (ho : o.allowUnsafe = false)
    {id : NodeId} (hid : x.document.contains id = true) (width : Nat) :
    ∃ page, x.document.render? id .html o width = some page ∧
      y.document.render? (φ id) .html o width = some page := by
  have hd := x.sound.distinct
  have he := y.sound.distinct
  obtain ⟨s, hs⟩ := exists_site?_of_mem (contains_iff.mp hid)
  obtain ⟨m, hm, -⟩ := h.nodes id s.node (node?_of_site? hs)
  obtain ⟨t, ht, -⟩ := exists_site?_of_node? hm
  have hpage : Html.render Html.percentEncode o s = Html.render Html.percentEncode o t :=
    Html.render_eq_of_sameShown ho (h.site hd he hs ht) (h.above hd he hs ht)
  refine ⟨Html.render Html.percentEncode o s, render?_html hs o width, ?_⟩
  rw [render?_html ht, hpage]

/-- The second session makes its nodes in another order, and its raw HTML and
its image differ. The raw HTML below the image is the same. -/
theorem hidden_content_stays_hidden_image :
    let x : Session := ⟨.new, [.create .htmlBlock, .appendChild 0 1,
      .set 1 (.literal (some "<p>".toList)), .create .paragraph, .appendChild 0 2,
      .create .htmlInline, .appendChild 2 3, .create .image, .appendChild 2 4,
      .set 4 (.url (some "file:a".toList)), .create .htmlInline, .appendChild 4 5,
      .set 5 (.literal (some "<i>".toList))]⟩
    let y : Session := ⟨.new, [.create .paragraph, .appendChild 0 1, .create .htmlBlock,
      .prependChild 0 2, .create .htmlInline, .appendChild 1 3,
      .set 3 (.literal (some "<b>".toList)), .create .image, .appendChild 1 4,
      .set 4 (.url (some "javascript:b".toList)), .create .htmlInline, .appendChild 4 5,
      .set 5 (.literal (some "<i>".toList))]⟩
    let φ : NodeId → NodeId := fun id => if id = 1 then 2 else if id = 2 then 1 else id
    (SameShown x.document y.document φ ∧ x.document.contains 0 = true) ∧
      ∃ page, x.document.render? 0 .html {} 0 = some page ∧
        y.document.render? (φ 0) .html {} 0 = some page := by
  intro x y φ
  let root : Node := { id := 0, content := .document, start := ⟨1, 1⟩, stop := ⟨1, 1⟩ }
  let block (id : NodeId) (t : String) : Node := { id, content := .htmlBlock t.toList }
  let inline (id : NodeId) (t : String) : Node := { id, content := .htmlInline t.toList }
  let image (id : NodeId) (url : String) : Node := { id, content := .image url.toList [] }
  have hnodes : x.document.trees.nodes = [root, block 1 "<p>",
      { id := 2, content := .paragraph }, inline 3 "", image 4 "file:a", inline 5 "<i>"] := by
    decide +kernel
  have hids : x.document.trees.ids = [0, 1, 2, 3, 4, 5] := by rw [Forest.ids, hnodes]; rfl
  have hroot : x.document.contains 0 = true := by decide +kernel
  have h : SameShown x.document y.document φ := by
    constructor
    · intro id hid
      rw [contains_iff, hids] at hid
      revert id
      decide +kernel
    · intro id hid
      rw [contains_iff, hids] at hid
      revert id
      decide +kernel
    · intro id n hn
      obtain ⟨hmem, rfl⟩ := (node?_eq_some_iff x.sound.distinct).mp hn
      rw [hnodes] at hmem
      simp only [List.mem_cons, List.not_mem_nil, or_false] at hmem
      rcases hmem with rfl | rfl | rfl | rfl | rfl | rfl
      · exact ⟨root, by decide +kernel, .same _, rfl, rfl⟩
      · exact ⟨block 2 "", by decide +kernel, .htmlBlock _ _, rfl, rfl⟩
      · exact ⟨{ id := 1, content := .paragraph }, by decide +kernel, .same _, rfl, rfl⟩
      · exact ⟨inline 3 "<b>", by decide +kernel, .htmlInline _ _ (by decide +kernel), rfl, rfl⟩
      · have hfile : Html.isDangerous "file:a".toList = true := by decide +kernel
        have hscript : Html.isDangerous "javascript:b".toList = true := by decide +kernel
        exact ⟨image 4 "javascript:b", by decide +kernel, .image hfile hscript _, rfl, rfl⟩
      · exact ⟨inline 5 "<i>", by decide +kernel, .same _, rfl, rfl⟩
  exact ⟨⟨h, hroot⟩, x.hidden_content_stays_hidden y h rfl hroot 0⟩

end Document

end MarkupTree
