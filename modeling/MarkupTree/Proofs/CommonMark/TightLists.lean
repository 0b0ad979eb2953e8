-- Tight lists inside one another. Every item is one line, its marker and its word, and the
-- list below it follows line by line, indented by the width of the marker. The walk over
-- the tree owes empty lines after paragraphs, and at each joint the tight items turn them
-- into plain line breaks.
import MarkupTree.Output
import MarkupTree.Proofs.CommonMark.Margins
import MarkupTree.Proofs.CommonMark.Unwrapping
import MarkupTree.Proofs.Document.Contents
import MarkupTree.Proofs.Document.Views
import MarkupTree.Proofs.Forest.Entries
import MarkupTree.Proofs.Layout.Stacking

namespace MarkupTree

namespace CommonMark

open Layout
open Page (Sets Awaits)

/-! ## Tight lists and their lines -/

/-- A word of ASCII letters. -/
structure Word where
  text : Text
  letters : ∀ c ∈ text, c.isAlpha = true
  ne_nil : text ≠ []

mutual

/-- A tight list. -/
inductive TightList
  | list (style : ListStyle) (tight : style.tight = true) (items : TightItems)

/-- The items of a tight list in their order, at least one. -/
inductive TightItems
  | last (item : TightItem)
  | cons (item : TightItem) (rest : TightItems)

/-- An item of a tight list: a paragraph of one word, and below it a list or nothing. -/
inductive TightItem
  | plain (word : Word)
  | nested (word : Word) (below : TightList)

end

/-- What stands in front of the item at the index: the bullet, or the number and the
delimiter, and a space. Numbers stop at the greatest one of 32 bits. -/
def mark (style : ListStyle) (index : Nat) : Text :=
  match style.kind with
  | .bullet => [style.bullet, ' ']
  | .ordered =>
    Nat.toDigits 10 (min (style.start + index) 0xFFFFFFFF) ++
      match style.delimiter with
      | some .paren => [')', ' ']
      | _ => ['.', ' ']

mutual

/-- The lines of a list. -/
def TightList.layout : TightList → List Text
  | .list style _ items => items.layout style 0

/-- The lines of the items from the index on. -/
def TightItems.layout (style : ListStyle) (index : Nat) : TightItems → List Text
  | .last item => item.layout (mark style index)
  | .cons item rest => item.layout (mark style index) ++ rest.layout style (index + 1)

/-- The lines of an item, where those below it are indented by the length of the marker. -/
def TightItem.layout (marker : Text) : TightItem → List Text
  | .plain word => [marker ++ word.text]
  | .nested word below =>
    (marker ++ word.text) :: below.layout.map (List.replicate marker.length ' ' ++ ·)

end

/-! ## The trees of tight lists -/

def Word.paragraph (w : Word) : Rose Content := .node .paragraph [.node (.text w.text) []]

mutual

/-- The contents of a list, in their tree. -/
def TightList.rose : TightList → Rose Content
  | .list style _ items => .node (.list style) items.roses

def TightItems.roses : TightItems → List (Rose Content)
  | .last item => [item.rose]
  | .cons item rest => item.rose :: rest.roses

def TightItem.rose : TightItem → Rose Content
  | .plain word => .node .item [word.paragraph]
  | .nested word below => .node .item [word.paragraph, below.rose]

end

/-! ## Markers and words -/

theorem marker_eq_mark (style : ListStyle) (index : Nat) : marker style index = mark style index := by
  obtain ⟨kind, start, delimiter, bullet, tight⟩ := style
  cases kind with
  | bullet => rfl
  | ordered =>
    rcases delimiter with _ | delimiter
    · rfl
    · cases delimiter <;> rfl

theorem mark_ne_nil (style : ListStyle) (index : Nat) : mark style index ≠ [] := by
  unfold mark
  split <;> simp

theorem newline_notMem_mark {style : ListStyle} (h : (Content.list style).IsBulleted) (index : Nat) :
    '\n' ∉ mark style index := by
  have hbullet : '\n' ≠ style.bullet := by
    intro heq
    have hmem := h style rfl
    rw [← heq] at hmem
    revert hmem
    decide
  have hdigits : ∀ n, '\n' ∉ Nat.toDigits 10 n := by
    intro n hmem
    have hdigit := Nat.isDigit_of_mem_toDigits (by decide) (by decide) hmem
    revert hdigit
    decide
  unfold mark
  split
  · simp [hbullet]
  · split <;> simp [hdigits]

namespace Word

variable (w : Word)

theorem plain : Plain escapeChar .normal w.text where
  newline hmem := absurd (w.letters _ hmem) (by decide)
  kept _ c hc last next begins := by
    have hletter : c.isAlphanum = true := by
      rw [Char.isAlphanum, w.letters c hc, Bool.true_or]
    simp [escapeChar, needsEscape, marksText_of_alphanum hletter]

end Word

/-! ## Tightness -/

theorem inTightItem_of_inline {n : Node} (hn : n.kind.isBlock = false) (above : List Node) :
    inTightItem (n :: above) = inTightItem above := by
  simp [inTightItem, hn]

theorem inTightItem_of_block {n : Node} (hn : n.kind.isBlock = true) (above : List Node) :
    inTightItem (n :: above) = (isTightItem (n :: above) || isTightItem above) := by
  simp [inTightItem, hn]

section

variable {item list : Node} (hitem : item.content = .item) (htight : list.content.isTight = true)
  (above : List Node)

include hitem htight

theorem isTightItem_item : isTightItem (item :: list :: above) = true := by
  simp [isTightItem, Node.kind, hitem, htight, Content.kind]

theorem inTightItem_item : inTightItem (item :: list :: above) = true := by
  have hblock : item.kind.isBlock = true := by
    rw [Node.kind, hitem]
    rfl
  rw [inTightItem_of_block hblock, isTightItem_item hitem htight, Bool.true_or]

/-- What stands directly in a tight item is tight. -/
theorem inTightItem_child {n : Node} (hn : n.kind.isBlock = true) :
    inTightItem (n :: item :: list :: above) = true := by
  rw [inTightItem_of_block hn, isTightItem_item hitem htight, Bool.or_true]

end

/-! ## Nodes of a tight list -/

variable {o : Options} {margin line : Text} {lines : List Text} {p : Page} {s : Site}

/-- A node that writes nothing of its own is told by what is below it. -/
theorem run_silent (hlink : s.kind ≠ .link) (henter : enter o 0 s = [tightness s])
    (hexit : exit s = [tightness s])
    (h : Awaits margin lines (Page.run (format o 0) (s.below.flatMap (Site.visit (visitor o 0)))
      { p with tightItem := inTightItem (s.node :: s.ancestors) })) :
    Awaits margin lines (p.run (format o 0) (s.visit (visitor o 0))) := by
  have hvisit : s.visit (visitor o 0) =
      [tightness s] ++ s.below.flatMap (Site.visit (visitor o 0)) ++ [tightness s] := by
    rw [Site.visit_eq, if_pos (by simp [visitor, hlink])]
    simp [visitor, henter, hexit]
  rw [hvisit, Page.run_append, Page.run_append]
  exact h.tightItem _

theorem visit_text (o : Options) {t : Text} (htext : s.content = .text t)
    (hchildren : s.children = .nil) (hafter : s.after = .nil) :
    s.visit (visitor o 0) = [tightness s, .put t false .normal, tightness s] := by
  have hkind : s.kind = .text := congrArg Content.kind htext
  have henter : enter o 0 s = [tightness s, .put t false .normal] := by
    simp [enter, enterContent, hkind, htext, textRun, hafter, Forest.first?, Options.wraps]
  have hexit : exit s = [tightness s] := by simp [exit, exitContent, htext]
  have hbelow : s.below = [] := by
    rw [Site.below, hchildren]
    rfl
  rw [Site.visit_eq, hbelow]
  simp [visitor, henter, hexit]

theorem visit_paragraph (o : Options) {w : Word} (hs : s.tree.rose Node.content = w.paragraph) :
    s.visit (visitor o 0) =
      [tightness s, tightness s, .put w.text false .normal, tightness s, tightness s, .blankLine] := by
  obtain ⟨hparagraph, hchildren⟩ := Rose.node.inj hs
  obtain ⟨n, below, rest, heq, hword, hrest⟩ := Forest.exists_of_roses_cons hchildren
  obtain ⟨htext, hbelow⟩ := Rose.node.inj hword
  obtain rfl := Forest.eq_nil_of_roses hbelow
  obtain rfl := Forest.eq_nil_of_roses hrest
  have hcontent : s.content = .paragraph := hparagraph
  have hkind : s.kind = .paragraph := congrArg Content.kind hcontent
  let u : Site :=
    { node := n, children := .nil, ancestors := s.node :: s.ancestors, depth := s.depth + 1 }
  have hsites : s.below = [u] := by
    rw [Site.below, show s.children = .cons n .nil .nil from heq]
    rfl
  have htight : tightness u = tightness s := by
    have hinline : n.kind.isBlock = false :=
      congrArg (fun c => (Content.kind c).isBlock) htext
    exact congrArg Instruction.tightItem (inTightItem_of_inline hinline _)
  have henter : enter o 0 s = [tightness s] := by simp [enter, enterContent, hkind, hcontent]
  have hexit : exit s = [tightness s, .blankLine] := by simp [exit, exitContent, hcontent]
  have htextVisit : u.visit (visitor o 0) = [tightness s, .put w.text false .normal, tightness s] := by
    rw [visit_text o (s := u) htext rfl rfl, htight]
  rw [Site.visit_eq, hsites, if_pos (by simp [visitor, hkind]), List.flatMap_singleton, htextVisit]
  simp [visitor, henter, hexit]

/-- A paragraph puts its word behind the line. -/
theorem run_paragraph (h : Sets margin lines line p) (howed : p.owed = 0) {w : Word}
    (hs : s.tree.rose Node.content = w.paragraph) :
    Awaits margin (lines ++ [line ++ w.text]) (p.run (format o 0) (s.visit (visitor o 0))) := by
  have hwidth : (format o 0).width = 0 := ite_self 0
  have hput := (h.tightItem (inTightItem (s.node :: s.ancestors))).put unbroken_escapeChar hwidth
    w.plain w.ne_nil howed
  have hne : line ++ w.text ≠ [] := by simp [w.ne_nil]
  rw [visit_paragraph o hs]
  exact (hput.tightItem (inTightItem (s.node :: s.ancestors))).owe hne (n := 2) (by decide)

/-! ## Items -/

/-- The site is that of an item of a tight list. -/
structure InTightList (m : Text) (s : Site) : Prop where
  content : s.content = .item
  tightness_eq : tightness s = .tightItem true
  marker_eq : itemMarker s = m
  ne_nil : m ≠ []
  newline : '\n' ∉ m

/-- The node is a tight list of the style. -/
structure TightNode (style : ListStyle) (list : Node) : Prop where
  content : list.content = .list style
  tight : style.tight = true
  bullet : (Content.list style).IsBulleted

namespace TightNode

variable {style : ListStyle} {list : Node} {above : List Node}

theorem isTight (hlist : TightNode style list) : list.content.isTight = true := by
  simp [Content.isTight, Content.listTight?, Content.style?, hlist.content, hlist.tight]

theorem inTightList (hlist : TightNode style list) (habove : s.ancestors = list :: above)
    (hitem : s.content = .item) : InTightList (mark style s.before.length) s where
  content := hitem
  tightness_eq := by rw [tightness, habove, inTightItem_item hitem hlist.isTight]
  marker_eq := by
    have hparent : s.parent?.bind (·.content.style?) = some style := by
      simp [Site.parent?, habove, hlist.content, Content.style?]
    rw [itemMarker, hparent]
    apply marker_eq_mark
  ne_nil := mark_ne_nil style _
  newline := newline_notMem_mark hlist.bullet _

end TightNode

namespace InTightList

variable {m : Text}

/-- Entering an item begins the next line with the marker. -/
theorem run_enter (hs : InTightList m s) (hchildren : s.children.isEmpty = false)
    (hfirst : s.before = [] → p.tightItem = true ∨ lines = []) (h : Awaits margin lines p) :
    Sets (margin ++ Text.spaces m.length) lines (margin ++ m) (p.run (format o 0) (enter o 0 s)) ∧
      (p.run (format o 0) (enter o 0 s)).owed = 0 := by
  have hkind : s.kind = .item := congrArg Content.kind hs.content
  have hwidth : (format o 0).width = 0 := ite_self 0
  have hspaces : '\n' ∉ Text.spaces m.length := by simp [Text.spaces]
  have hcontent : enterContent o 0 s = [lit m] ++ [.beginContent, .indent (Text.spaces m.length)] := by
    simp [enterContent, hs.content, enterItem, hs.marker_eq, hchildren]
  -- at the first item of a list the page is as the list found it
  obtain ⟨q, hq, htight, hrun⟩ : ∃ q, Awaits margin lines q ∧ (q.tightItem = true ∨ lines = []) ∧
      p.run (format o 0) (enter o 0 s) = q.run (format o 0) (enterContent o 0 s) := by
    by_cases hbefore : s.before = []
    · refine ⟨p, h, hfirst hbefore, ?_⟩
      rw [enter, if_pos ⟨hkind, by simp [hbefore]⟩, List.nil_append]
    · refine ⟨{ p with tightItem := true }, h.tightItem true, Or.inl rfl, ?_⟩
      rw [enter, if_neg (by simp [hbefore]), hs.tightness_eq, Page.run_append]
      rfl
  have hplain : Plain (format o 0).escape .literal m := .of_literal hs.newline
  have hput := hq.put htight unbroken_escapeChar hwidth hplain hs.ne_nil
  rw [hrun, hcontent, Page.run_append]
  constructor
  · apply hput.indent hspaces
  · exact Page.owed_put m false .literal

/-- Leaving an item takes its share off the margin. -/
theorem run_exit (hs : InTightList m s) (hlines : lines ≠ [])
    (h : Awaits (margin ++ Text.spaces m.length) lines p) :
    Awaits margin lines (p.run (format o 0) (exit s)) := by
  have hexit : exit s = [tightness s] ++ [.outdent (Text.spaces m.length).length, .lineBreak] := by
    simp [exit, exitContent, hs.content, hs.marker_eq, Text.spaces]
  have htight : Awaits (margin ++ Text.spaces m.length) lines (p.run (format o 0) [tightness s]) :=
    h.tightItem _
  rw [hexit, Page.run_append]
  apply htight.outdent hlines

/-- An item is a line of its marker and its word, with the lines of what follows the
paragraph below it. -/
theorem run_visit (hs : InTightList m s) {u : Site} {us : List Site} (hbelow : s.below = u :: us)
    {w : Word} (hu : u.tree.rose Node.content = w.paragraph)
    (hfirst : s.before = [] → p.tightItem = true ∨ lines = []) (h : Awaits margin lines p)
    (more : List Text)
    (hmore : ∀ q, Awaits (margin ++ Text.spaces m.length) (lines ++ [margin ++ m ++ w.text]) q →
      Awaits (margin ++ Text.spaces m.length)
        (lines ++ [margin ++ m ++ w.text] ++ more.map (margin ++ Text.spaces m.length ++ ·))
        (q.run (format o 0) (us.flatMap (Site.visit (visitor o 0))))) :
    Awaits margin (lines ++ ((m ++ w.text) :: more.map (Text.spaces m.length ++ ·)).map (margin ++ ·))
      (p.run (format o 0) (s.visit (visitor o 0))) := by
  have hkind : s.kind = .item := congrArg Content.kind hs.content
  have hchildren : s.children.isEmpty = false := by
    cases hcs : s.children with
    | nil =>
      rw [Site.below, hcs] at hbelow
      cases hbelow
    | cons => rfl
  obtain ⟨hentered, howed⟩ := hs.run_enter (o := o) hchildren hfirst h
  have hword := run_paragraph (o := o) hentered howed hu
  have hrest := hmore _ hword
  have hleft := hs.run_exit (o := o) (by simp) hrest
  have hlines : lines ++ [margin ++ m ++ w.text] ++ more.map (margin ++ Text.spaces m.length ++ ·) =
      lines ++ ((m ++ w.text) :: more.map (Text.spaces m.length ++ ·)).map (margin ++ ·) := by
    simp
  rw [hlines] at hleft
  rw [Site.visit_eq, if_pos (by simp [visitor, hkind]), hbelow, List.flatMap_cons, Page.run_append,
    Page.run_append, Page.run_append]
  exact hleft

end InTightList

/-! ## Lists -/

mutual

/-- A list sets its lines below those of the page. -/
theorem TightList.run_visit {o : Options} {margin : Text} {lines : List Text} {p : Page} {s : Site} :
    (l : TightList) → s.tree.rose Node.content = l.rose → s.after = .nil →
      s.tree.alone.Holds Content.IsBulleted →
      inTightItem (s.node :: s.ancestors) = true ∨ lines = [] → Awaits margin lines p →
        Awaits margin (lines ++ l.layout.map (margin ++ ·)) (p.run (format o 0) (s.visit (visitor o 0)))
  | .list style htight items, hs, hafter, hbullets, hfirst, h => by
    obtain ⟨hstyle, hitems⟩ := Rose.node.inj hs
    obtain ⟨hbullet, hbelow, -⟩ := Forest.holds_cons.mp hbullets
    have hkind : s.kind = .list := congrArg Content.kind hstyle
    have hcontent : s.content = .list style := hstyle
    have henter : enter o 0 s = [tightness s] := by simp [enter, enterContent, hkind, hcontent]
    have hexit : exit s = [tightness s] := by
      simp [exit, exitContent, hcontent, listEnd, hafter, Forest.first?]
    apply run_silent (by simp [hkind]) henter hexit
    exact items.run_visit s.ancestors [] (s.depth + 1) hitems ⟨hcontent, htight, hcontent ▸ hbullet⟩
      hbelow (fun _ => hfirst) (h.tightItem _)

/-- The items of a row set their lines, one after the other. -/
theorem TightItems.run_visit {o : Options} {margin : Text} {lines : List Text} {p : Page} {g : Forest}
    {style : ListStyle} {list : Node} :
    (is : TightItems) → (above before : List Node) → (depth : Nat) → g.roses Node.content = is.roses →
      TightNode style list → g.Holds Content.IsBulleted →
      (before = [] → p.tightItem = true ∨ lines = []) → Awaits margin lines p →
        Awaits margin (lines ++ (is.layout style before.length).map (margin ++ ·))
          (p.run (format o 0)
            ((g.sites (list :: above) before depth).flatMap (Site.visit (visitor o 0))))
  | .last item, above, before, depth, hg, hlist, hbullets, hfirst, h => by
    obtain ⟨n, cs, rest, rfl, hitem, hrest⟩ := Forest.exists_of_roses_cons hg
    obtain rfl := Forest.eq_nil_of_roses hrest
    have hbelow := (Forest.holds_cons.mp hbullets).2.1
    have hset := item.run_visit (o := o) (s := ⟨n, cs, list :: above, before, .nil, depth⟩) hitem hlist
      rfl hbelow hfirst h
    rw [Forest.sites, Forest.sites, List.flatMap_singleton]
    exact hset
  | .cons item items, above, before, depth, hg, hlist, hbullets, hfirst, h => by
    obtain ⟨n, cs, rest, rfl, hitem, hrest⟩ := Forest.exists_of_roses_cons hg
    obtain ⟨-, hbelow, hothers⟩ := Forest.holds_cons.mp hbullets
    have hset := item.run_visit (o := o) (s := ⟨n, cs, list :: above, before, rest, depth⟩) hitem hlist
      rfl hbelow hfirst h
    have hmore := items.run_visit (o := o) above (n :: before) depth hrest hlist hothers nofun hset
    rw [Forest.sites, List.flatMap_cons, Page.run_append, TightItems.layout, List.map_append,
      ← List.append_assoc]
    exact hmore

/-- An item sets the line of its word, and the lines of its list below it. -/
theorem TightItem.run_visit {o : Options} {margin : Text} {lines : List Text} {p : Page} {s : Site}
    {style : ListStyle} {list : Node} {above : List Node} :
    (i : TightItem) → s.tree.rose Node.content = i.rose → TightNode style list →
      s.ancestors = list :: above → s.children.Holds Content.IsBulleted →
      (s.before = [] → p.tightItem = true ∨ lines = []) → Awaits margin lines p →
        Awaits margin (lines ++ (i.layout (mark style s.before.length)).map (margin ++ ·))
          (p.run (format o 0) (s.visit (visitor o 0)))
  | .plain word, hs, hlist, habove, hbullets, hfirst, h => by
    obtain ⟨hitem, hchildren⟩ := Rose.node.inj hs
    obtain ⟨n, cs, rest, heq, hword, hrest⟩ := Forest.exists_of_roses_cons hchildren
    obtain rfl := Forest.eq_nil_of_roses hrest
    have hcs : s.children = .cons n cs .nil := heq
    have hbelow : s.below = [⟨n, cs, s.node :: s.ancestors, [], .nil, s.depth + 1⟩] := by
      rw [Site.below, hcs]
      rfl
    apply (hlist.inTightList habove hitem).run_visit hbelow hword hfirst h []
    intro q hq
    rw [List.map_nil, List.append_nil]
    exact hq
  | .nested word below, hs, hlist, habove, hbullets, hfirst, h => by
    obtain ⟨hitem, hchildren⟩ := Rose.node.inj hs
    obtain ⟨n, cs, rest, heq, hword, hrest⟩ := Forest.exists_of_roses_cons hchildren
    obtain ⟨m, ds, others, rfl, hinner, hothers⟩ := Forest.exists_of_roses_cons hrest
    obtain rfl := Forest.eq_nil_of_roses hothers
    have hcs : s.children = .cons n cs (.cons m ds .nil) := heq
    have hbelow : s.below = [⟨n, cs, s.node :: s.ancestors, [], .cons m ds .nil, s.depth + 1⟩,
        ⟨m, ds, s.node :: s.ancestors, [n], .nil, s.depth + 1⟩] := by
      rw [Site.below, hcs]
      rfl
    have hinside := (Forest.holds_cons.mp (hcs ▸ hbullets)).2.2
    -- the first item of the list below does not look up: the list has to be tight by its place
    have htight : inTightItem (m :: s.node :: s.ancestors) = true := by
      have hblock : m.kind.isBlock = true := by
        cases below with
        | list style tight items =>
          have hcontent := (Rose.node.inj hinner).1
          exact congrArg (fun c => (Content.kind c).isBlock) hcontent
      rw [habove]
      exact inTightItem_child hitem hlist.isTight _ hblock
    apply (hlist.inTightList habove hitem).run_visit hbelow hword hfirst h below.layout
    intro q hq
    rw [List.flatMap_singleton]
    exact below.run_visit hinner rfl hinside (Or.inl htight) hq

end

/-! ## Whole pages -/

/-- The page of a tight list has its lines, whatever stands above the list. -/
theorem awaits_list (o : Options) {l : TightList} (hs : s.tree.rose Node.content = l.rose)
    (hafter : s.after = .nil) (hbullets : s.tree.alone.Holds Content.IsBulleted)
    (h : Awaits [] [] p) : Awaits [] l.layout (p.run (format o 0) (s.visit (visitor o 0))) := by
  have hset := l.run_visit (o := o) hs hafter hbullets (Or.inr rfl) h
  simpa using hset

/-- A document adds nothing to the page of the list that it holds. -/
theorem awaits_document (o : Options) (hdocument : s.content = .document) {u : Site}
    (hbelow : s.below = [u]) {l : TightList} (hu : u.tree.rose Node.content = l.rose)
    (hafter : u.after = .nil) (hbullets : u.tree.alone.Holds Content.IsBulleted) :
    Awaits [] l.layout (Page.run (format o 0) (s.visit (visitor o 0)) {}) := by
  have hkind : s.kind = .document := congrArg Content.kind hdocument
  have henter : enter o 0 s = [tightness s] := by simp [enter, enterContent, hkind, hdocument]
  have hexit : exit s = [tightness s] := by simp [exit, exitContent, hdocument]
  apply run_silent (by simp [hkind]) henter hexit
  rw [hbelow, List.flatMap_singleton]
  exact awaits_list o hu hafter hbullets (Awaits.start.tightItem _)

theorem render_eq {ls : List Text}
    (h : Awaits [] ls (Page.run (format o 0) (s.visit (visitor o 0)) {})) :
    render o 0 s = Text.ended ls := by
  have hwidth : effectiveWidth o 0 = 0 := ite_self 0
  rw [render, Layout.render, hwidth, ← h.finish_eq, format, hwidth]

/-! ## Letters on every line -/

theorem not_isBlank_of_isAlpha {c : Char} (h : c.isAlpha = true) : Text.isBlank c = false := by
  have hrange := toNat_of_alphanum (c := c) (by rw [Char.isAlphanum, h, Bool.true_or])
  simp only [Text.isBlank, Text.blankRanges, List.any_cons, List.any_nil, Bool.or_false,
    Bool.or_eq_false_iff, Bool.and_eq_false_iff, decide_eq_false_iff_not]
  omega

/-- A line that begins with anything and ends with a word is not blank. -/
theorem Word.shows (w : Word) (front : Text) : ∃ c ∈ front ++ w.text, Text.isBlank c = false := by
  obtain ⟨c, hc⟩ := List.exists_mem_of_ne_nil w.text w.ne_nil
  exact ⟨c, List.mem_append_right front hc, not_isBlank_of_isAlpha (w.letters c hc)⟩

mutual

/-- No line of a list is blank. -/
theorem TightList.layout_shows :
    (l : TightList) → ∀ line ∈ l.layout, ∃ c ∈ line, Text.isBlank c = false
  | .list style _ items => items.layout_shows style 0

theorem TightItems.layout_shows (style : ListStyle) (index : Nat) :
    (is : TightItems) → ∀ line ∈ is.layout style index, ∃ c ∈ line, Text.isBlank c = false
  | .last item => item.layout_shows (mark style index)
  | .cons item rest => List.forall_mem_append.mpr
    ⟨item.layout_shows (mark style index), rest.layout_shows style (index + 1)⟩

theorem TightItem.layout_shows (marker : Text) :
    (i : TightItem) → ∀ line ∈ i.layout marker, ∃ c ∈ line, Text.isBlank c = false
  | .plain word => List.forall_mem_singleton.mpr (word.shows marker)
  | .nested word below => by
    refine List.forall_mem_cons.mpr ⟨word.shows marker, ?_⟩
    intro line hline
    obtain ⟨inner, hinner, rfl⟩ := List.mem_map.mp hline
    obtain ⟨c, hc, hblank⟩ := below.layout_shows inner hinner
    exact ⟨c, List.mem_append_right _ hc, hblank⟩

end

end CommonMark

/-! ## Documents -/

namespace Document

open CommonMark Layout

/-- The root of a document stands alone and first. -/
theorem Sound.site_root {d : Document} (h : Sound d) {root : Site}
    (hroot : d.site? rootId = some root) :
    ∃ n cs rest, d.trees = .cons n cs rest ∧ root = { node := n, children := cs } ∧
      n.content = .document := by
  obtain ⟨r, hfirst, hid, hkind⟩ := h.rooted
  cases htrees : d.trees with
  | nil =>
    rw [htrees] at hfirst
    cases hfirst
  | cons n cs rest =>
    rw [htrees] at hfirst
    cases hfirst
    rw [site?, htrees, Forest.siteAmong?, if_pos hid] at hroot
    cases hroot
    refine ⟨r, cs, rest, rfl, rfl, ?_⟩
    rw [Node.kind] at hkind
    cases hcontent : r.content with
    | document => rfl
    | _ =>
      rw [hcontent] at hkind
      cases hkind

/-- In every session, a document that is one tight list of words and lists inside its items
has exactly the lines of the list, whether it is written whole or the list on its own, and
none of them is blank. -/
theorem Session.tight_lists_stack (x : Session) {root : Site}
    (hroot : x.document.site? rootId = some root) {l : TightList}
    (hlist : root.children.roses Node.content = [l.rose]) (o : Options) :
    x.document.render? rootId .commonMark o 0 = some (Text.ended l.layout) ∧
      (∀ n ∈ root.children.roots,
        x.document.render? n.id .commonMark o 0 = some (Text.ended l.layout)) ∧
      Text.lines (Text.ended l.layout) = l.layout ∧
      ∀ line ∈ l.layout, ∃ c ∈ line, Text.isBlank c = false := by
  obtain ⟨r, children, rest, htrees, rfl, hdocument⟩ := x.sound.site_root hroot
  obtain ⟨n, cs, others, rfl, hrose, hothers⟩ := Forest.exists_of_roses_cons hlist
  obtain rfl := Forest.eq_nil_of_roses hothers
  have hbullets : (Tree.mk n cs).alone.Holds Content.IsBulleted := by
    have hall := x.holds Content.lasting_isBulleted
    rw [htrees] at hall
    exact (Forest.holds_cons.mp hall).2.1
  have hsite : x.document.site? n.id = some { node := n, children := cs, ancestors := [r] } := by
    have hne : r.id ≠ n.id := by
      have hdistinct := x.sound.distinct
      rw [htrees] at hdistinct
      intro heq
      exact (Forest.distinct_cons.mp hdistinct).1 (heq ▸ List.mem_cons_self)
    rw [site?, htrees, Forest.siteAmong?, if_neg hne, Forest.site?, if_pos rfl, Option.some_or]
  have hpage := awaits_document o (s := { node := r, children := .cons n cs .nil }) hdocument rfl hrose
    rfl hbullets
  have halone := awaits_list o (s := { node := n, children := cs, ancestors := [r] }) hrose rfl
    hbullets Page.Awaits.start
  refine ⟨?_, ?_, hpage.lines_eq, l.layout_shows⟩
  · rw [render?, hroot, Option.map_some]
    exact congrArg some (render_eq hpage)
  · intro m hm
    rw [List.mem_singleton.mp hm, render?, hsite, Option.map_some]
    exact congrArg some (render_eq halone)

/-- A list from the greatest number on, and in its first item a list with a bullet. -/
theorem tight_lists_stack_numbered :
    let x : Session := ⟨.new, [.create .list, .set 1 (.listType .ordered),
      .set 1 (.listStart 4294967295), .set 1 (.listDelim .paren), .appendChild 0 1, .create .item,
      .appendChild 1 2, .create .paragraph, .appendChild 2 3, .create .text, .appendChild 3 4,
      .set 4 (.literal (some "ab".toList)), .create .list, .appendChild 2 5, .create .item,
      .appendChild 5 6, .create .paragraph, .appendChild 6 7, .create .text, .appendChild 7 8,
      .set 8 (.literal (some "c".toList)), .create .item, .appendChild 1 9, .create .paragraph,
      .appendChild 9 10, .create .text, .appendChild 10 11, .set 11 (.literal (some "d".toList))]⟩
    let numbers : ListStyle := { kind := .ordered, start := 4294967295, delimiter := some .paren }
    let ab : Word := ⟨"ab".toList, by simp, by simp⟩
    let c : Word := ⟨"c".toList, by simp, by simp⟩
    let d : Word := ⟨"d".toList, by simp, by simp⟩
    let l : TightList :=
      .list numbers rfl (.cons (.nested ab (.list {} rfl (.last (.plain c)))) (.last (.plain d)))
    ∃ root, (x.document.site? rootId = some root ∧ root.children.roses Node.content = [l.rose]) ∧
      l.layout = ["4294967295) ab".toList, "            - c".toList, "4294967295) d".toList] ∧
      x.document.render? rootId .commonMark {} 0 = some (Text.ended l.layout) ∧
      (∀ n ∈ root.children.roots,
        x.document.render? n.id .commonMark {} 0 = some (Text.ended l.layout)) ∧
      Text.lines (Text.ended l.layout) = l.layout ∧
      ∀ line ∈ l.layout, ∃ c ∈ line, Text.isBlank c = false := by
  intro x numbers ab c d l
  let word (id : NodeId) (w : Word) (rest : Forest) : Forest :=
    .cons { id, content := .paragraph } (.cons { id := id + 1, content := .text w.text } .nil .nil) rest
  have hsite : (x.document.site? rootId).map (·.children) =
      some (.cons { id := 1, content := .list numbers }
        (.cons { id := 2, content := .item }
          (word 3 ab (.cons { id := 5, content := .list {} }
            (.cons { id := 6, content := .item } (word 7 c .nil) .nil) .nil))
          (.cons { id := 9, content := .item } (word 10 d .nil) .nil)) .nil) := by
    decide +kernel
  obtain ⟨root, hroot, hchildren⟩ := Option.map_eq_some_iff.mp hsite
  have hlist : root.children.roses Node.content = [l.rose] := by
    rw [hchildren]
    rfl
  refine ⟨root, ⟨hroot, hlist⟩, ?_, x.tight_lists_stack hroot hlist {}⟩
  decide +kernel

end Document

end MarkupTree
