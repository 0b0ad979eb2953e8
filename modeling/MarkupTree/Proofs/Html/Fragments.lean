-- The page of a document and the pages of its blocks. A node is written the
-- same way on its own and in its place, since each block leaves the output at
-- the start of a line. So the page of the root is the pages of its children,
-- one after the other.
import MarkupTree.Output
import MarkupTree.Proofs.Document.Sessions
import MarkupTree.Proofs.Document.Sites

namespace MarkupTree

namespace Html

variable {e : Encoder} {o : Options}

/-! ## Where a node stands -/

/-- What stands before a row of siblings and how deep it stands change nothing. -/
theorem visit_eq_of_place (f : Forest) (ancestors before before' : List Node)
    (depth depth' : Nat) :
    f.visit (visitor e o) ancestors before depth = f.visit (visitor e o) ancestors before' depth' := by
  induction f generalizing ancestors before before' depth depth' with
  | nil => rfl
  | cons n cs rest ihc ihr =>
    unfold Forest.visit
    rw [ihc (n :: ancestors) [] [] (depth + 1) (depth' + 1),
      ihr ancestors (n :: before) (n :: before') depth depth']
    rfl

/-- A node, what stands below it and what stands above it make its page. -/
theorem render_eq_of_place {s t : Site} (hnode : s.node = t.node)
    (hchildren : s.children = t.children) (hancestors : s.ancestors = t.ancestors) :
    render e o s = render e o t := by
  obtain ⟨n, cs, ancestors, before, after, depth⟩ := s
  obtain ⟨m, ds, ancestors', before', after', depth'⟩ := t
  simp only at hnode hchildren hancestors
  subst hnode hchildren hancestors
  unfold render Site.visit
  simp only
  rw [visit_eq_of_place cs (n :: ancestors) [] [] (depth + 1) (depth' + 1)]
  rfl

/-- The page of a site is that of its tree, standing alone. -/
theorem render_eq_alone (s : Site) :
    render e o s = print true (s.tree.alone.visit (visitor e o) s.ancestors [] 0) := by
  have hplace : render e o s =
      render e o { node := s.node, children := s.children, ancestors := s.ancestors } :=
    render_eq_of_place rfl rfl rfl
  rw [hplace]
  exact congrArg (print true) (List.append_nil _).symm

/-! ## Ends of lines -/

/-- The text is empty or ends with a line break. -/
def EndsLine (t : Text) : Prop := t = [] ∨ t.getLast? = some '\n'

theorem atLineStart_iff {t : Text} : atLineStart true t = true ↔ EndsLine t := by
  rcases List.eq_nil_or_concat t with rfl | ⟨ts, c, rfl⟩
  · exact ⟨fun _ => Or.inl rfl, fun _ => rfl⟩
  · have hlast : atLineStart true (ts ++ [c]) = (c == '\n') := atLineStart_append true ts [c]
    simp [hlast, EndsLine]

/-- Pieces of which the last one breaks the line. -/
def BreaksLine (ps : List Piece) : Prop :=
  ps.getLast? = some .newline ∨ ps.getLast? = some .freshLine

theorem BreaksLine.append {qs : List Piece} (ps : List Piece) (h : BreaksLine qs) :
    BreaksLine (ps ++ qs) := by
  unfold BreaksLine at h ⊢
  rw [List.getLast?_append]
  rcases h with h | h
  · simp [h]
  · simp [h]

theorem endsLine_print {ps : List Piece} (h : BreaksLine ps) : EndsLine (print true ps) := by
  rcases h with h | h
  · obtain ⟨qs, rfl⟩ := List.getLast?_eq_some_iff.mp h
    rw [print_append]
    exact Or.inr List.getLast?_concat
  · obtain ⟨qs, rfl⟩ := List.getLast?_eq_some_iff.mp h
    rw [print_append]
    rcases hfresh : atLineStart true (print true qs)
    · exact Or.inr List.getLast?_concat
    · rw [← atLineStart_iff]
      exact (congrArg (atLineStart true) (List.append_nil _)).trans hfresh

/-! ## Blocks -/

/-- Blocks that are written on entering alone. -/
def isBare (k : Kind) : Bool := k == .codeBlock || k == .htmlBlock || k == .thematicBreak

theorem breaksLine_enter {s : Site} (hbare : isBare s.content.kind = true) :
    BreaksLine (enter e o s) ∧ exit s = [] := by
  unfold enter exit
  cases hc : s.content with
  | codeBlock | thematicBreak => exact ⟨Or.inl rfl, rfl⟩
  | htmlBlock => exact ⟨Or.inr rfl, rfl⟩
  | document | blockQuote | list | item | customBlock | paragraph | heading | text | softBreak
  | lineBreak | code | htmlInline | customInline | emphasis | strong | link | image =>
    rw [hc] at hbare
    cases hbare

theorem breaksLine_exit {s : Site} (hblock : s.content.kind.isBlock = true)
    (hroot : s.content.kind ≠ .document) (htight : inTightList s = false)
    (hbare : isBare s.content.kind = false) : BreaksLine (exit s) := by
  unfold exit
  cases hc : s.content with
  | blockQuote | list | item | heading => exact Or.inl rfl
  | customBlock => exact Or.inr rfl
  | paragraph =>
    rw [htight]
    exact Or.inl rfl
  | document =>
    rw [hc] at hroot
    exact absurd rfl hroot
  | codeBlock | htmlBlock | thematicBreak =>
    rw [hc] at hbare
    cases hbare
  | text | softBreak | lineBreak | code | htmlInline | customInline | emphasis | strong | link
  | image =>
    rw [hc] at hblock
    cases hblock

/-- The page of a block ends with a line, unless the block is a paragraph of a
tight list. -/
theorem endsLine_render {s : Site} (hblock : s.content.kind.isBlock = true)
    (hroot : s.content.kind ≠ .document) (htight : inTightList s = false)
    (hleaf : isBare s.content.kind = true → s.children = .nil) : EndsLine (render e o s) := by
  apply endsLine_print
  unfold Site.visit
  rcases hbare : isBare s.content.kind
  · exact (breaksLine_exit hblock hroot htight hbare).append _
  · obtain ⟨henter, hexit⟩ := breaksLine_enter (e := e) (o := o) hbare
    show BreaksLine (enter e o s ++ _ ++ exit s)
    rw [hleaf hbare, hexit, Forest.visit, ite_self, List.append_nil, List.append_nil]
    exact henter

/-- The page of a tree among siblings, given what stands above them. -/
def pageOf (e : Encoder) (o : Options) (ancestors : List Node) (t : Tree) : Text :=
  render e o { node := t.node, children := t.children, ancestors }

/-- Trees whose pages end with their lines are written one after the other. -/
theorem print_visit {f : Forest} {ancestors : List Node}
    (h : ∀ t ∈ f.trees, EndsLine (pageOf e o ancestors t)) (before : List Node) (depth : Nat) :
    print true (f.visit (visitor e o) ancestors before depth) =
      f.trees.flatMap (pageOf e o ancestors) := by
  induction f generalizing before with
  | nil => rfl
  | cons n cs rest _ ih =>
    obtain ⟨hn, hrest⟩ := List.forall_mem_cons.mp h
    let s : Site := { node := n, children := cs, ancestors, before, after := rest, depth }
    have hpage : print true (s.visit (visitor e o)) = pageOf e o ancestors ⟨n, cs⟩ :=
      render_eq_of_place (s := s) rfl rfl rfl
    have hvisit : (Forest.cons n cs rest).visit (visitor e o) ancestors before depth =
        s.visit (visitor e o) ++ rest.visit (visitor e o) ancestors (n :: before) depth := rfl
    rw [hvisit, print_append, hpage, atLineStart_iff.mpr hn, ih hrest, Forest.trees,
      List.flatMap_cons]

/-- The root of a document writes nothing of its own. -/
theorem render_document {s : Site} (h : s.content = .document) :
    render e o s =
      print true (s.children.visit (visitor e o) (s.node :: s.ancestors) [] (s.depth + 1)) := by
  have henter : (visitor e o).enter s = [] := by
    show enter e o s = []
    simp only [enter, h]
  have hexit : (visitor e o).exit s = [] := by
    show exit s = []
    simp only [exit, h]
  have hdescends : (visitor e o).descends s = true := by
    show (s.content.kind != .image) = true
    rw [h]
    rfl
  unfold render Site.visit
  rw [henter, hexit, hdescends, if_pos rfl, List.nil_append, List.append_nil]

end Html

namespace Document

variable {d : Document}

theorem render?_html {id : NodeId} {s : Site} (hs : d.site? id = some s) (o : Options)
    (width : Nat) : d.render? id .html o width = some (Html.render Html.percentEncode o s) := by
  rw [render?, hs]
  rfl

theorem Sound.bare_leaves (h : Sound d) : d.trees.AreLeaves fun n => Html.isBare n.kind := by
  refine h.areLeaves fun n hn k => ?_
  revert hn
  cases n.kind <;> cases k <;> decide

/-- The blocks of the root end with their lines. -/
theorem endsLine_pageOf (h : Sound d) {root : Node} {body rest : Forest}
    (hroot : d.trees = .cons root body rest) (hkind : root.kind = .document) {t : Tree}
    (ht : t ∈ body.trees) (o : Options) : Html.EndsLine (Html.pageOf Html.percentEncode o [root] t) := by
  have htop : (⟨root, body⟩ : Tree) ∈ d.trees.subtrees := by
    rw [hroot]
    exact List.mem_cons_self
  have hfit : root.kind.canContain t.node.kind = true := by
    refine h.fits _ (List.mem_map_of_mem htop) t.node ?_
    show t.node ∈ body.roots
    rw [← Forest.map_node_trees]
    exact List.mem_map_of_mem ht
  rw [hkind] at hfit
  apply Html.endsLine_render
  · show t.node.kind.isBlock = true
    revert hfit
    cases t.node.kind <;> decide
  · show t.node.kind ≠ .document
    revert hfit
    cases t.node.kind <;> decide
  · rfl
  · intro hbare
    have hsub : t ∈ d.trees.subtrees := Forest.children_subset_subtrees htop ht
    exact Forest.eq_nil_of_roots (h.bare_leaves t.row (List.mem_map_of_mem hsub) hbare)

/-- The page of a child, on its own, is the page of its tree below the root. -/
theorem render?_child (hd : d.trees.Distinct) {u : Site} {p : NodeId} (hu : d.site? p = some u)
    {t : Tree} (ht : t ∈ u.children.trees) (o : Options) (width : Nat) :
    d.render? t.node.id .html o width = some (Html.pageOf Html.percentEncode o (u.node :: u.ancestors) t) := by
  have hsub : u.tree ∈ d.trees.subtrees := mem_subtrees_of_site? hu
  obtain ⟨s, hs, hst⟩ := site?_of_mem_subtrees hd (Forest.children_subset_subtrees hsub ht)
  have hparent : d.parent? t.node.id = some p := by
    rw [parent?_eq_some_iff hd, children, tree?_of_site? hu]
    show t.node.id ∈ u.children.roots.map (·.id)
    rw [← Forest.map_node_trees, List.map_map]
    exact List.mem_map_of_mem ht
  subst hst
  rw [render?_html hs, Html.pageOf]
  exact congrArg some (Html.render_eq_of_place rfl rfl (ancestors_of_child hd hs hu hparent))

/-- In every session, the page of the document is the pages of its blocks, one
after the other, and each of them is empty or ends with a line break. -/
theorem Session.page_joins_blocks (x : Session) (o : Options) (width : Nat) :
    ∃ pages : List Text,
      (x.document.children rootId).map (fun c => x.document.render? c .html o width) =
        pages.map some ∧
      x.document.render? rootId .html o width = some pages.flatten ∧
      ∀ page ∈ pages, page = [] ∨ page.getLast? = some '\n' := by
  obtain ⟨root, body, rest, hroot, hid⟩ := x.sound.exists_root
  obtain ⟨root', hfirst, -, hkind⟩ := x.sound.rooted
  rw [hroot] at hfirst
  cases hfirst
  have hsite : x.document.site? rootId = some { node := root, children := body } := by
    rw [site?, hroot, Forest.siteAmong?, if_pos hid]
  have hends : ∀ t ∈ body.trees, Html.EndsLine (Html.pageOf Html.percentEncode o [root] t) := fun t ht =>
    endsLine_pageOf x.sound hroot hkind ht o
  refine ⟨body.trees.map (Html.pageOf Html.percentEncode o [root]), ?_, ?_, ?_⟩
  · rw [children, tree?_of_site? hsite]
    show (body.roots.map (·.id)).map _ = _
    rw [← Forest.map_node_trees, List.map_map, List.map_map, List.map_map]
    exact List.map_congr_left fun t ht => render?_child x.sound.distinct hsite ht o width
  · have hcontent : root.content = .document := by
      unfold Node.kind at hkind
      cases hc : root.content with
      | document => rfl
      | _ =>
        rw [hc] at hkind
        cases hkind
    have hpage := Html.render_document (e := Html.percentEncode) (o := o)
      (s := { node := root, children := body }) hcontent
    rw [render?_html hsite, hpage, Html.print_visit hends, List.flatMap_def]
  · intro page hpage
    obtain ⟨t, ht, rfl⟩ := List.mem_map.mp hpage
    exact hends t ht

end Document

end MarkupTree
