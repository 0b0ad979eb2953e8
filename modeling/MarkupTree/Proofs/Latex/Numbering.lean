-- The numbers of items in LaTeX. A list sets a counter if its first number is greater than one. It
-- takes the counter of its depth in the whole document, so this has an effect on its own items only
-- where no ordered list stands above the node that is written. A list that starts with zero sets
-- none, and its items are numbered from one.
import MarkupTree.CommonMark.Marker
import MarkupTree.Output
import MarkupTree.Proofs.Latex.Balance
import MarkupTree.Proofs.Latex.Counters

namespace MarkupTree

namespace Latex

variable {k : Counting} {t : Site}

/-- The numbers of the items of a page, in their order. -/
def itemNumbers (page : Text) : List (Option Nat) := (Counting.run {} (commands page)).numbers

/-! ## Where an item stands -/

/-- The nodes above a site within the tree that is written, the parent first. -/
def within (s : Site) : List Node := s.ancestors.take s.depth

/-- The nodes above the tree that is written. -/
def outside (s : Site) : List Node := s.ancestors.drop s.depth

def countOrdered (ns : List Node) : Nat := ns.countP fun n => n.content.isOrdered

theorem isOrdered_of_list {n : Node} {style : ListStyle} (h : n.content = .list style) :
    n.content.isOrdered = (style.kind == .ordered) := by
  rw [h]
  cases hkind : style.kind <;> simp [Content.isOrdered, Content.listKind?, Content.style?, hkind]

theorem isOrdered_of_kind {n : Node} (h : n.kind ≠ .list) : n.content.isOrdered = false := by
  have hkind : n.kind = n.content.kind := rfl
  cases hcontent : n.content with
  | list => exact absurd (hkind.trans (congrArg Content.kind hcontent)) h
  | _ => rfl

theorem exists_style {s : Site} (h : s.kind = .list) : ∃ style, s.content = .list style := by
  have hkind : s.content.kind = .list := h
  cases hcontent : s.content with
  | list style => exact ⟨style, rfl⟩
  | _ =>
    rw [hcontent] at hkind
    cases hkind

theorem countOrdered_cons (n : Node) (ns : List Node) :
    countOrdered (n :: ns) = countOrdered ns + if n.content.isOrdered then 1 else 0 := List.countP_cons

/-- As many ordered lists stand above the children of a node as above the node, if that is no list. -/
theorem countOrdered_below (h : t.kind ≠ .list) :
    countOrdered ((t.node :: t.ancestors).take (t.depth + 1)) = countOrdered (within t) := by
  rw [List.take_succ_cons, countOrdered_cons, isOrdered_of_kind h]
  rfl

theorem enumDepth_eq (s : Site) :
    enumDepth s = countOrdered [s.node] + countOrdered (within s) + countOrdered (outside s) := by
  have hsplit : countOrdered s.ancestors = countOrdered (within s) + countOrdered (outside s) := by
    unfold within outside countOrdered
    rw [← List.countP_append, List.take_append_drop]
  rw [enumDepth, ← List.singleton_append, List.countP_append, Nat.add_assoc, ← hsplit]
  rfl

/-- The first number of an ordered list, below the nodes that are not written. -/
def firstNumber (style : ListStyle) (above : List Node) : Nat :=
  if 1 < style.start ∧ countOrdered above = 0 then style.start else 1

/-- The list that an item stands in, if it is written too. -/
def style? (s : Site) : Option ListStyle := (within s).head?.bind (·.content.style?)

/-- The number that an item has. -/
def numberOf? (s : Site) : Option Nat :=
  match style? s with
  | some style =>
    if style.kind = .ordered ∧ countOrdered (within s) ≤ 4 then
      some (firstNumber style (outside s) + s.before.length)
    else none
  | none => none

/-- A visitor that finds the items. -/
def itemVisitor : Visitor Site where
  enter s := if s.kind = .item then [s] else []
  exit _ := []
  descends _ := true

/-- The items of the tree, in their order. -/
def items (s : Site) : List Site := s.visit itemVisitor

theorem items_eq (s : Site) :
    items s = (if s.kind = .item then [s] else []) ++
      s.children.visit itemVisitor (s.node :: s.ancestors) [] (s.depth + 1) := List.append_nil _

theorem visit_cons_eq_items (n : Node) (cs rest : Forest) (ancestors before : List Node) (depth : Nat) :
    (Forest.cons n cs rest).visit itemVisitor ancestors before depth =
      items { node := n, children := cs, ancestors, before, after := rest, depth } ++
        rest.visit itemVisitor ancestors (n :: before) depth := rfl

/-! ## Lists and items -/

/-- An ordered list begins with one, until it sets its counter. -/
theorem begins_setCommand {style : ListStyle} (hkind : style.kind = .ordered)
    (hdepth : enumDepth t = k.depth + 1 + countOrdered (outside t)) :
    Begins true (firstNumber style (outside t)) k (k.enumerate.run (setCommand t style)) := by
  have hbegins := begins_enumerate k
  by_cases hstart : 1 < style.start
  · have hset : setCommand t style =
        ((counter? (enumDepth t)).map fun name => .sets name (style.start - 1)).toList := if_pos ⟨hkind, hstart⟩
    have hfirst : firstNumber style (outside t) = if countOrdered (outside t) = 0 then style.start else 1 := by
      simp [firstNumber, hstart]
    rw [hset, hfirst, hdepth]
    cases hname : counter? (k.depth + 1 + countOrdered (outside t)) with
    | none => exact hbegins.unset hname style.start
    | some name =>
      have hnumber := hbegins.set hname (style.start - 1)
      rw [Nat.sub_add_cancel (Nat.le_of_lt hstart)] at hnumber
      exact hnumber
  · have hset : setCommand t style = [] := if_neg fun h => hstart h.2
    have hfirst : firstNumber style (outside t) = 1 := if_neg fun h => hstart h.1
    rw [hset, hfirst]
    exact hbegins

/-- A list has its first number, if it can set its counter. -/
theorem begins_enterCommands {style : ListStyle} (hcontent : t.content = .list style)
    (hk : k.depth = countOrdered (within t)) :
    Begins (style.kind == .ordered) (firstNumber style (outside t)) k (k.run (enterCommands t)) := by
  have hcommands : enterCommands t = .begins (environmentOf style) :: setCommand t style := by
    rw [enterCommands, hcontent]
  rw [hcommands, environmentOf]
  cases hkind : style.kind with
  | bullet =>
    have hnone : setCommand t style = [] := by simp [setCommand, hkind]
    rw [hnone]
    exact begins_itemize k _
  | ordered =>
    have hself : countOrdered [t.node] = 1 := by
      rw [countOrdered_cons, isOrdered_of_list hcontent, hkind]
      rfl
    have hdepth : enumDepth t = k.depth + 1 + countOrdered (outside t) := by
      rw [enumDepth_eq, hself, hk, Nat.add_comm 1]
    exact begins_setCommand hkind hdepth

theorem numberOf?_eq {style : ListStyle} (hstyle : style? t = some style) (hk : k.depth = countOrdered (within t)) :
    numberOf? t = if (style.kind == .ordered) = true ∧ k.depth ≤ 4 then
      some (firstNumber style (outside t) + t.before.length) else none := by
  rw [numberOf?, hstyle, hk]
  simp

/-! ## Rows -/

/-- Nodes hold what fits into them, and no custom block holds an item. -/
structure Listed (f : Forest) : Prop where
  fits : ∀ r ∈ f.rows, ∀ c ∈ r.children, r.node.kind.canContain c.kind = true
  custom : ∀ r ∈ f.rows, r.node.kind = .customBlock → ∀ c ∈ r.children, c.kind ≠ .item

theorem row_mem_rows (n : Node) (cs rest : Forest) : (⟨n, cs.roots⟩ : Row) ∈ (Forest.cons n cs rest).rows := by
  rw [Forest.rows_cons]
  exact List.mem_cons_self

namespace Listed

variable {f cs rest : Forest} {n : Node}

theorem of_cons (h : Listed (.cons n cs rest)) : Listed cs ∧ Listed rest := by
  obtain ⟨hfits, hcustom⟩ := h
  rw [Forest.rows_cons] at hfits hcustom
  obtain ⟨-, hfits⟩ := List.forall_mem_cons.mp hfits
  obtain ⟨-, hcustom⟩ := List.forall_mem_cons.mp hcustom
  rw [List.forall_mem_append] at hfits hcustom
  exact ⟨⟨hfits.1, hcustom.1⟩, hfits.2, hcustom.2⟩

theorem alone (h : Listed (.cons n cs rest)) : Listed (.cons n cs .nil) := by
  have hsub : (Forest.cons n cs .nil).rows ⊆ (Forest.cons n cs rest).rows := by
    simp
  exact ⟨fun r hr => h.fits r (hsub hr), fun r hr => h.custom r (hsub hr)⟩

/-- The children of a list are items, and those of other nodes are none. -/
theorem roots (h : Listed (.cons n cs rest)) :
    (n.kind = .list → ∀ c ∈ cs.roots, c.kind = .item) ∧ (n.kind ≠ .list → ∀ c ∈ cs.roots, c.kind ≠ .item) := by
  have hfits : ∀ c ∈ cs.roots, n.kind.canContain c.kind = true := h.fits _ (row_mem_rows n cs rest)
  constructor
  · intro hlist c hc
    have hcontain := hfits c hc
    rw [hlist] at hcontain
    revert hcontain
    cases c.kind <;> decide
  · intro hlist c hc hitem
    have hcontain := hfits c hc
    rw [hitem] at hcontain
    cases hkind : n.kind with
    | list => exact hlist hkind
    | customBlock => exact h.custom _ (row_mem_rows n cs rest) hkind c hc hitem
    | _ =>
      rw [hkind] at hcontain
      cases hcontain

/-- Below an inline node there are inline nodes only, and so no items. -/
theorem not_item_below (h : Listed (.cons n cs rest)) (hinline : n.kind.isInline = true) :
    ∀ m ∈ cs.nodes, m.kind ≠ .item := by
  have hholds : n.kind.holdsInlines = true := by
    rw [Kind.holdsInlines, hinline, Bool.or_true]
  have hroots : ∀ c ∈ cs.roots, c.kind.isInline = true := fun c hc =>
    Kind.isInline_of_canContain hholds (h.fits _ (row_mem_rows n cs rest) c hc)
  intro m hm hitem
  have hall := Forest.isInline_of_roots h.of_cons.1.fits hroots m hm
  rw [hitem] at hall
  cases hall

end Listed

theorem visit_itemVisitor_eq_nil {f : Forest} (h : ∀ n ∈ f.nodes, n.kind ≠ .item) (ancestors before : List Node)
    (depth : Nat) : f.visit itemVisitor ancestors before depth = [] := by
  apply List.eq_nil_iff_forall_not_mem.mpr
  intro u hu
  obtain ⟨t, ht, hmem⟩ := Forest.mem_visit hu
  have hnone : itemVisitor.enter t = [] := if_neg (h _ ht)
  rw [hnone] at hmem
  rcases hmem with hmem | hmem <;> cases hmem

/-- Nodes that are neither lists nor items have no effect on the count. -/
theorem run_enterCommands (hlist : t.kind ≠ .list) (hitem : t.kind ≠ .item) : k.run (enterCommands t) = k := by
  have hkind : t.kind = t.content.kind := rfl
  unfold enterCommands
  cases hcontent : t.content with
  | list => exact absurd (hkind.trans (congrArg Content.kind hcontent)) hlist
  | item => exact absurd (hkind.trans (congrArg Content.kind hcontent)) hitem
  | _ => rfl

theorem run_exitCommands (hlist : t.kind ≠ .list) : k.run (exitCommands t) = k := by
  have hkind : t.kind = t.content.kind := rfl
  unfold exitCommands
  cases hcontent : t.content with
  | list => exact absurd (hkind.trans (congrArg Content.kind hcontent)) hlist
  | _ => rfl

/-- A list ends, and those before it are open. -/
theorem run_ends {style : ListStyle} (hcontent : t.content = .list style) (k : Counting) :
    k.run (exitCommands t) = { k with opened := k.opened.tail } := by
  unfold exitCommands environmentOf
  rw [hcontent]
  dsimp only
  cases style.kind <;> rfl

/-- What the commands of a row do to the count: the items of the row and below it have their numbers. -/
structure RowCounts (f : Forest) : Prop where
  /-- No item stands in the row. -/
  apart : (∀ n ∈ f.roots, n.kind ≠ .item) → ∀ ancestors before depth (k : Counting),
    k.depth = countOrdered (ancestors.take depth) →
      Counts k.depth k (k.run (f.visit commandVisitor ancestors before depth))
        ((f.visit itemVisitor ancestors before depth).map numberOf?)
  /-- The row is one of items, in a list that is at the number of the first of them. -/
  listed : (∀ n ∈ f.roots, n.kind = .item) → ∀ (list : Node) style, list.content = .list style →
    ∀ ancestors before depth (k : Counting) opened, k.opened = (style.kind == .ordered) :: opened →
      k.depth = countOrdered ((list :: ancestors).take (depth + 1)) →
        k.IsAt (firstNumber style (ancestors.drop depth) + before.length) →
          Counts (opened.count true) k (k.run (f.visit commandVisitor (list :: ancestors) before (depth + 1)))
            ((f.visit itemVisitor (list :: ancestors) before (depth + 1)).map numberOf?)

theorem items_of_not_item (hitem : t.kind ≠ .item) :
    items t = t.children.visit itemVisitor (t.node :: t.ancestors) [] (t.depth + 1) := by
  rw [items_eq, if_neg hitem, List.nil_append]

/-- A list, with all below it. -/
theorem counts_list (hlisted : Listed t.tree.alone) {style : ListStyle} (hcontent : t.content = .list style)
    (hcs : RowCounts t.children) (hk : k.depth = countOrdered (within t)) :
    Counts k.depth k (k.run (t.visit commandVisitor)) ((items t).map numberOf?) := by
  have hlist : t.kind = .list := congrArg Content.kind hcontent
  have hitem : t.kind ≠ .item := by
    rw [hlist]
    decide
  have hdescends : commandVisitor.descends t = true := by simp [commandVisitor, hlist]
  have hbegins := begins_enterCommands hcontent hk
  let first := k.run (enterCommands t)
  have hdepth : first.depth = countOrdered ((t.node :: t.ancestors).take (t.depth + 1)) := by
    show first.opened.count true = countOrdered (t.node :: within t)
    rw [hbegins.opened, countOrdered_cons, isOrdered_of_list hcontent, ← hk, List.count_cons]
    cases style.kind <;> rfl
  have hrow := hcs.listed (hlisted.roots.1 hlist) t.node style hcontent t.ancestors [] t.depth first k.opened
    hbegins.opened hdepth hbegins.first
  rw [items_of_not_item hitem, Site.visit, Counting.run_append, Counting.run_append, if_pos hdescends]
  exact hbegins.close hrow (run_ends hcontent _)

/-- A node that is neither a list nor an item, with all below it. -/
theorem counts_other (hlisted : Listed t.tree.alone) (hlist : t.kind ≠ .list) (hitem : t.kind ≠ .item)
    (hcs : RowCounts t.children) (hk : k.depth = countOrdered (within t)) :
    Counts k.depth k (k.run (t.visit commandVisitor)) ((items t).map numberOf?) := by
  have hends : ∀ k : Counting, k.run (exitCommands t) = k := fun _ => run_exitCommands hlist
  rw [items_of_not_item hitem, Site.visit, Counting.run_append, Counting.run_append]
  show Counts _ _ (Counting.run (Counting.run (k.run (enterCommands t)) _) (exitCommands t)) _
  rw [run_enterCommands hlist hitem, hends]
  by_cases hdescends : commandVisitor.descends t = true
  · have hdepth := hk.trans (countOrdered_below hlist).symm
    rw [if_pos hdescends]
    exact hcs.apart (hlisted.roots.2 hlist) (t.node :: t.ancestors) [] (t.depth + 1) k hdepth
  · -- the text of a link or an image is left out, and holds no items
    have hinline : t.node.kind.isInline = true := by
      have hkind : t.kind = .image ∨ t.kind = .link := by
        by_contra hnot
        rw [not_or] at hnot
        simp [commandVisitor, hnot] at hdescends
      show t.kind.isInline = true
      rcases hkind with hkind | hkind <;> rw [hkind] <;> rfl
    have hnone : t.children.visit itemVisitor (t.node :: t.ancestors) [] (t.depth + 1) = [] :=
      visit_itemVisitor_eq_nil (hlisted.not_item_below hinline) _ _ _
    rw [if_neg hdescends, hnone]
    exact Counts.refl _ k

/-- A node that is no item, with all below it. -/
theorem counts_site (hlisted : Listed t.tree.alone) (hitem : t.kind ≠ .item) (hcs : RowCounts t.children)
    (hk : k.depth = countOrdered (within t)) :
    Counts k.depth k (k.run (t.visit commandVisitor)) ((items t).map numberOf?) := by
  by_cases hlist : t.kind = .list
  · obtain ⟨style, hcontent⟩ := exists_style hlist
    exact counts_list hlisted hcontent hcs hk
  · exact counts_other hlisted hlist hitem hcs hk

theorem visit_of_item (hitem : t.kind = .item) :
    t.visit commandVisitor =
        .item :: t.children.visit commandVisitor (t.node :: t.ancestors) [] (t.depth + 1) ∧
      items t = t :: t.children.visit itemVisitor (t.node :: t.ancestors) [] (t.depth + 1) := by
  have hcontent : t.content = .item := by
    have hkind : t.content.kind = .item := hitem
    cases hcontent : t.content with
    | item => rfl
    | _ =>
      rw [hcontent] at hkind
      cases hkind
  constructor
  · simp [Site.visit, commandVisitor, enterCommands, exitCommands, hitem, hcontent]
  · rw [items_eq, if_pos hitem]
    rfl

/-- An item, with all below it: its list goes on with the next number. -/
theorem counts_item_site (hlisted : Listed t.tree.alone) (hitem : t.kind = .item) (hcs : RowCounts t.children)
    {style : ListStyle} {opened : List Bool} (hopened : k.opened = (style.kind == .ordered) :: opened)
    (hk : k.depth = countOrdered (within t)) (hstyle : style? t = some style)
    (hat : k.IsAt (firstNumber style (outside t) + t.before.length)) :
    Counts (opened.count true) k (k.run (t.visit commandVisitor)) ((items t).map numberOf?) ∧
      (k.run (t.visit commandVisitor)).IsAt (firstNumber style (outside t) + (t.before.length + 1)) := by
  obtain ⟨hcommands, hitems⟩ := visit_of_item hitem
  obtain ⟨hfirst, hnext⟩ := counts_item hopened hat
  rw [← numberOf?_eq hstyle hk] at hfirst
  have hlist : t.kind ≠ .list := by
    rw [hitem]
    decide
  have hdepth := hfirst.depth.trans (hk.trans (countOrdered_below hlist).symm)
  have hbelow := hcs.apart (hlisted.roots.2 hlist) (t.node :: t.ancestors) [] (t.depth + 1) k.item hdepth
  have hle : opened.count true ≤ k.item.depth := by
    rw [hfirst.depth, Counting.depth, hopened, List.count_cons]
    exact Nat.le_add_right _ _
  rw [hcommands, hitems]
  exact ⟨hfirst.trans (hbelow.mono hle), hbelow.isAt hnext⟩

theorem rowCounts (f : Forest) (h : Listed f) : RowCounts f := by
  -- a row of items hands the number of its list on from item to item, all other rows hand on the depth only
  induction f with
  | nil => exact ⟨fun _ _ _ _ k _ => Counts.refl _ k, fun _ _ _ _ _ _ _ k _ _ _ _ => Counts.refl _ k⟩
  | cons n cs rest ihc ihr =>
    obtain ⟨hcs, hrest⟩ := h.of_cons
    have hcounts := ihc hcs
    have hcounts' := ihr hrest
    refine ⟨?_, ?_⟩
    · intro hroots ancestors before depth k hk
      obtain ⟨hn, hroots⟩ := List.forall_mem_cons.mp hroots
      let t : Site := { node := n, children := cs, ancestors, before, after := rest, depth }
      have hsite : Counts k.depth k (k.run (t.visit commandVisitor)) ((items t).map numberOf?) :=
        counts_site (t := t) h.alone hn hcounts hk
      have hrow := hcounts'.apart hroots ancestors (n :: before) depth _ (hsite.depth.trans hk)
      rw [hsite.depth] at hrow
      show Counts k.depth k (k.run (t.visit commandVisitor ++ rest.visit commandVisitor ancestors (n :: before) depth))
        ((items t ++ rest.visit itemVisitor ancestors (n :: before) depth).map numberOf?)
      rw [Counting.run_append, List.map_append]
      exact hsite.trans hrow
    · intro hroots list style hcontent ancestors before depth k opened hopened hk hat
      obtain ⟨hn, hroots⟩ := List.forall_mem_cons.mp hroots
      let t : Site :=
        { node := n, children := cs, ancestors := list :: ancestors, before, after := rest, depth := depth + 1 }
      have hstyle : style? t = some style := by
        simp [style?, within, t, hcontent, Content.style?]
      obtain ⟨hsite, hnext⟩ := counts_item_site (t := t) h.alone hn hcounts hopened hk hstyle hat
      have hrow := hcounts'.listed hroots list style hcontent ancestors (n :: before) depth _ opened
        (hsite.opened.trans hopened) (hsite.depth.trans hk) hnext
      show Counts (opened.count true) k
        (k.run (t.visit commandVisitor ++ rest.visit commandVisitor (list :: ancestors) (n :: before) (depth + 1)))
        ((items t ++ rest.visit itemVisitor (list :: ancestors) (n :: before) (depth + 1)).map numberOf?)
      rw [Counting.run_append, List.map_append]
      exact hsite.trans hrow

/-! ## The items of a page -/

variable {s u : Site}

/-- The items of a page have their numbers, if no command in it is written by hand. -/
theorem itemNumbers_render (hdepth : s.depth = 0) (hlisted : Listed s.tree.alone)
    (hquiet : ∀ n ∈ s.tree.alone.nodes, Quiet n) (o : Options) (width : Nat) :
    itemNumbers (render o width s) = (items s).map numberOf? := by
  have hcs : RowCounts s.children := rowCounts _ hlisted.of_cons.1
  have hwithin : within s = [] := by
    rw [within, hdepth]
    rfl
  rw [itemNumbers, commands_render hquiet]
  by_cases hitem : s.kind = .item
  · obtain ⟨hcommands, hitems⟩ := visit_of_item hitem
    have hlist : s.kind ≠ .list := by
      rw [hitem]
      decide
    have hnone : numberOf? s = none := by
      rw [numberOf?, style?, hwithin]
      rfl
    have hbegin : (Counting.item {}).depth = countOrdered ((s.node :: s.ancestors).take (s.depth + 1)) := by
      rw [countOrdered_below hlist, hwithin]
      rfl
    have hbelow := hcs.apart (hlisted.roots.2 hlist) (s.node :: s.ancestors) [] (s.depth + 1) _ hbegin
    rw [hcommands, hitems, List.map_cons, hnone]
    exact hbelow.numbers
  · have hbegin : Counting.depth {} = countOrdered (within s) := by
      rw [hwithin]
      rfl
    exact (counts_site hlisted hitem hcs hbegin).numbers

theorem outside_of_mem_visit {f : Forest} {ancestors before : List Node} {depth : Nat}
    (hu : u ∈ f.visit itemVisitor ancestors before depth) : outside u = ancestors.drop depth := by
  induction f generalizing ancestors before depth with
  | nil => cases hu
  | cons n cs rest ihc ihr =>
    rw [visit_cons_eq_items, items_eq, List.mem_append, List.mem_append] at hu
    rcases hu with (hu | hu) | hu
    · split at hu
      · rw [List.mem_singleton.mp hu]
        rfl
      · cases hu
    · have hbelow := ihc hu
      exact hbelow
    · exact ihr hu

/-- What is not written stands above the whole tree. -/
theorem outside_of_mem_items (hdepth : s.depth = 0) (hu : u ∈ items s) : outside u = s.ancestors := by
  rw [items_eq, List.mem_append] at hu
  rcases hu with hu | hu
  · split at hu
    · rw [List.mem_singleton.mp hu, outside, hdepth]
      rfl
    · cases hu
  · rw [outside_of_mem_visit hu, List.drop_succ_cons, hdepth]
    rfl

theorem map_node_visit (f : Forest) (ancestors before : List Node) (depth : Nat) :
    (f.visit itemVisitor ancestors before depth).map Site.node = f.nodes.filter (·.kind == .item) := by
  induction f generalizing ancestors before depth with
  | nil => rfl
  | cons n cs rest ihc ihr =>
    rw [visit_cons_eq_items, items_eq, List.map_append, List.map_append, ihc, ihr, Forest.nodes]
    by_cases hn : n.kind = .item <;> simp [Site.kind, hn]

/-- Each item of the tree is among the items. -/
theorem map_node_items (s : Site) : (items s).map Site.node = s.tree.alone.nodes.filter (·.kind == .item) := by
  have hnodes : s.tree.alone.nodes = s.node :: s.children.nodes := by simp [Site.tree, Tree.alone, Forest.nodes]
  rw [items_eq, List.map_append, map_node_visit, hnodes]
  by_cases hs : s.node.kind = .item <;> simp [Site.kind, hs]

/-! ## Agreement with the markers -/

/-- The number in the marker of an item of an ordered list. -/
theorem itemMarker_eq {style : ListStyle} (hstyle : style? u = some style) (hkind : style.kind = .ordered)
    (hnumber : style.start + u.before.length ≤ 0xFFFFFFFF) :
    CommonMark.itemMarker u =
      Text.ofNat (style.start + u.before.length) ++ [(style.delimiter.getD .period).char, ' '] := by
  have hparent : u.parent?.bind (·.content.style?) = some style := by
    obtain ⟨list, hlist, hstyle⟩ := Option.bind_eq_some_iff.mp hstyle
    rw [within, List.head?_take] at hlist
    split at hlist
    · cases hlist
    · rw [Site.parent?, hlist]
      exact hstyle
  rw [CommonMark.itemMarker, hparent]
  dsimp only
  rw [CommonMark.marker, hkind, CommonMark.itemNumber, Nat.min_eq_left hnumber]

/-- An item has the number of its marker if its list is numbered from one, or can set its counter. -/
theorem numberOf?_eq_iff {style : ListStyle} (hstyle : style? u = some style) (hkind : style.kind = .ordered)
    (hdepth : countOrdered (within u) ≤ 4) :
    numberOf? u = some (style.start + u.before.length) ↔
      style.start = 1 ∨ 1 < style.start ∧ countOrdered (outside u) = 0 := by
  have hnumber : numberOf? u = some (firstNumber style (outside u) + u.before.length) := by
    rw [numberOf?, hstyle]
    exact if_pos ⟨hkind, hdepth⟩
  rw [hnumber, Option.some.injEq, Nat.add_right_cancel_iff, firstNumber]
  split <;> omega

/-- No command in the LaTeX of the tree is written by hand, and all items in it stand in lists. -/
structure IsPlain (s : Site) : Prop where
  quiet : ∀ n ∈ s.tree.alone.nodes, Quiet n
  listed : ∀ r ∈ s.tree.alone.rows, r.node.kind = .customBlock → ∀ c ∈ r.children, c.kind ≠ .item

end Latex

namespace Document

open Latex

/-- In every session, the items of a page of LaTeX have their numbers. In a list that LaTeX can number, the number
of an item is that of its marker in CommonMark if the list starts with one, or with more and no ordered list
stands above the page, and otherwise it is another one. -/
theorem Session.item_numbers_agree (x : Session) {id : NodeId} {s : Site} (hs : x.document.site? id = some s)
    (hplain : IsPlain s) (o : Options) (width : Nat) :
    ∃ page, x.document.render? id .latex o width = some page ∧ itemNumbers page = (items s).map numberOf? ∧
      (items s).map Site.node = s.tree.alone.nodes.filter (·.kind == .item) ∧
        ∀ u ∈ items s, ∀ style, style? u = some style → style.kind = .ordered → countOrdered (within u) ≤ 4 →
          style.start + u.before.length ≤ 0xFFFFFFFF →
            CommonMark.itemMarker u =
                Text.ofNat (style.start + u.before.length) ++ [(style.delimiter.getD .period).char, ' '] ∧
              (numberOf? u = some (style.start + u.before.length) ↔
                style.start = 1 ∨ 1 < style.start ∧ countOrdered s.ancestors = 0) := by
  have hdepth : s.depth = 0 := Forest.depth_of_siteAmong? hs
  have hlisted : Listed s.tree.alone :=
    ⟨fun r hr => x.sound.fits r (Forest.rows_subset (mem_subtrees_of_site? hs) hr), hplain.listed⟩
  refine ⟨Latex.render o width s, by rw [render?, hs]; rfl, itemNumbers_render hdepth hlisted hplain.quiet o width,
    map_node_items s, ?_⟩
  intro u hu style hstyle hkind hlevel hnumber
  have hagrees := numberOf?_eq_iff hstyle hkind hlevel
  rw [outside_of_mem_items hdepth hu] at hagrees
  exact ⟨itemMarker_eq hstyle hkind hnumber, hagrees⟩

/-- An ordered list from three on, with a bullet list in its second item. -/
theorem item_numbers_agree_three :
    let x : Session := ⟨.new, [.create .list, .set 1 (.listType .ordered), .set 1 (.listStart 3), .appendChild 0 1,
      .create .item, .appendChild 1 2, .create .item, .appendChild 1 3, .create .list, .appendChild 3 4, .create .item,
      .appendChild 4 5]⟩
    ∃ s, (x.document.site? 1 = some s ∧ IsPlain s) ∧
      ∃ page, x.document.render? 1 .latex {} 80 = some page ∧ itemNumbers page = (items s).map numberOf? ∧
        (items s).map Site.node = s.tree.alone.nodes.filter (·.kind == .item) ∧
          ∀ u ∈ items s, ∀ style, style? u = some style → style.kind = .ordered → countOrdered (within u) ≤ 4 →
            style.start + u.before.length ≤ 0xFFFFFFFF →
              CommonMark.itemMarker u =
                  Text.ofNat (style.start + u.before.length) ++ [(style.delimiter.getD .period).char, ' '] ∧
                (numberOf? u = some (style.start + u.before.length) ↔
                  style.start = 1 ∨ 1 < style.start ∧ countOrdered s.ancestors = 0) := by
  intro x
  have hkinds : (x.document.site? 1).map (fun s => s.tree.alone.nodes.map Node.kind) =
      some [.list, .item, .item, .list, .item] := by decide +kernel
  obtain ⟨s, hs, hnodes⟩ := Option.map_eq_some_iff.mp hkinds
  have hkind : ∀ n ∈ s.tree.alone.nodes, n.kind = .list ∨ n.kind = .item := by
    intro n hn
    have hmem := List.mem_map_of_mem (f := Node.kind) hn
    rw [hnodes] at hmem
    revert hmem
    cases n.kind <;> decide
  have hplain : IsPlain s := by
    refine ⟨fun n hn => ?_, fun r hr hcustom => ?_⟩
    · have hcontent : n.kind = n.content.kind := rfl
      refine ⟨fun _ _ h => ?_, fun _ _ h => ?_⟩
      · rcases h with h | h <;> rcases hkind n hn with hn | hn <;> rw [hcontent, h] at hn <;> cases hn
      · rcases hkind n hn with hn | hn <;> rw [hcontent, h] at hn <;> cases hn
    · rcases hkind _ (Forest.node_mem_nodes hr) with hn | hn <;> rw [hn] at hcustom <;> cases hcustom
  exact ⟨s, ⟨hs, hplain⟩, x.item_numbers_agree hs hplain {} 80⟩

/-- A list from zero on, and the inner list of one in another: LaTeX numbers both from one. -/
theorem numbers_begin_with_one :
    let item : Outline := .enclose .item 0 5 0 5 (.leaf 3 4 (.text ['a']) .nil) .nil
    let zero : Outline := .enclose (.list (some 0)) 0 5 0 5 item .nil
    let d := ofEvents (Source.ofText "0. a\n".toList) zero.events
    let inner : Outline := .enclose (.list (some 5)) 3 8 3 8 (.enclose .item 3 8 3 8 (.leaf 6 7 (.text ['a']) .nil) .nil) .nil
    let outer : Outline := .enclose (.list (some 1)) 0 8 0 8 (.enclose .item 0 8 0 8 inner .nil) .nil
    let e := ofEvents (Source.ofText "1. 5. a\n".toList) outer.events
    (zero.fits .blocks = true ∧ outer.fits .blocks = true) ∧
      (d.render? 1 .commonMark {} 80 = some "0. a\n".toList ∧
        (d.render? 1 .latex {} 80).map itemNumbers = some [some 1]) ∧
      e.render? 3 .commonMark {} 80 = some "5. a\n".toList ∧ (e.render? 3 .latex {} 80).map itemNumbers = some [some 1] := by
  decide +kernel

end Document

end MarkupTree
