-- Block quotes in CommonMark. Every line of a quote begins with its mark, except
-- for two faults: an empty line that falls due where the output already ends its
-- line goes without the margin, and a line break in a title is written as it is.
import MarkupTree.Output
import MarkupTree.Proofs.CommonMark.Escapes
import MarkupTree.Proofs.CommonMark.Margins
import MarkupTree.Proofs.Document.Normalized
import MarkupTree.Proofs.Layout.Marks

namespace MarkupTree

namespace CommonMark

open Layout

variable {o : Options} {width : Nat} {f : Format} {s t : Site}

/-! ## Titles -/

theorem tears_title : (format o width).Tears '>' .title where
  escaped := by decide
  newline _ _ _ := rfl
  unmarked last c next begin := by
    show ∃ d ds, escapeChar .title last c next begin = d :: ds ∧ d ≠ '>'
    rw [escapeChar_title]
    split
    · exact ⟨'\\', [c], rfl, by decide⟩
    · refine ⟨c, [], rfl, ?_⟩
      rintro rfl
      simp at *

/-- Where no title has a line break, the escape writes none. -/
theorem kept_of_title {i : Instruction} (h : ∀ t wrap, i = .put t wrap .title → '\n' ∉ t) :
    i.Kept (format o width) := by
  cases i with
  | put t wrap mode =>
    intro c hc
    cases mode with
    | literal => exact Or.inl rfl
    | normal => exact Or.inr fun last next begin => newline_notMem_normal last c next begin
    | address => exact Or.inr fun last next begin => newline_notMem_address last c next begin
    | title =>
      refine Or.inr fun last next begin => ?_
      have hne : '\n' ≠ c := fun heq => h t wrap rfl (heq ▸ hc)
      show '\n' ∉ escapeChar .title last c next begin
      rw [escapeChar_title]
      split <;> simp [hne]
  | _ => trivial

/-- The title that an instruction sets. -/
def title? : Instruction → Option Text
  | .put t _ .title => some t
  | _ => none

theorem titles_enter (s : Site) : (enter o width s).filterMap title? = [] := by
  have htight : (if s.kind = .item ∧ s.before.isEmpty then [] else [tightness s]).filterMap title? =
      [] := by
    split <;> rfl
  rw [enter, List.filterMap_append, htight, List.nil_append]
  unfold enterContent
  split
  case h_7 =>
    unfold codeBlock
    dsimp only
    split <;> split <;> rfl
  case h_11 =>
    unfold textRun
    dsimp only
    split <;> rfl
  case h_12 => split <;> rfl
  case h_13 =>
    unfold softBreak
    split
    · rfl
    · split <;> rfl
  case h_14 =>
    unfold codeSpan
    dsimp only
    split <;> rfl
  case h_17 =>
    unfold strongMarks
    split <;> rfl
  case h_19 => split <;> rfl
  all_goals rfl

theorem titles_destination (url title : Text) :
    (destination url title).filterMap title? = if title.isEmpty then [] else [title] := by
  unfold destination
  split <;> split <;> rfl

/-- An automatic link has no title, and one text below it. -/
theorem eq_of_autolink (h : (autolink? s).isSome = true) :
    s.content.title = [] ∧ ∃ n cs t, s.children = .cons n cs .nil ∧ n.content = .text t := by
  obtain ⟨target, htarget⟩ := Option.isSome_iff_exists.mp h
  unfold autolink? at htarget
  dsimp only at htarget
  split at htarget
  · cases htarget
  · rename_i hno
    simp only [Bool.or_eq_true, Bool.not_eq_true', not_or] at hno
    refine ⟨by simpa using hno.2, ?_⟩
    split at htarget
    · rename_i n cs hchildren
      split at htarget
      · exact ⟨n, cs, _, hchildren, ‹_›⟩
      · cases htarget
    · cases htarget

/-- Leaving a node sets its title, if it has one. -/
theorem titles_exit (s : Site) :
    (exit s).filterMap title? = if s.content.title.isEmpty then [] else [s.content.title] := by
  show (exitContent s).filterMap title? = _
  unfold exitContent
  split
  case h_2 heq =>
    rw [heq]
    unfold listEnd
    split <;> rfl
  case h_8 heq =>
    rw [heq]
    unfold strongMarks
    split <;> rfl
  case h_10 url title heq =>
    split
    · rw [(eq_of_autolink ‹_›).1]
      rfl
    · rw [titles_destination, heq]
      rfl
  case h_11 url title heq =>
    rw [titles_destination, heq]
    rfl
  case h_12 h1 h2 =>
    have htitle : s.content.title = [] := by
      cases hc : s.content with
      | link url title => exact absurd hc (h1 url title)
      | image url title => exact absurd hc (h2 url title)
      | _ => rfl
    rw [htitle]
    rfl
  all_goals
    rename_i heq
    rw [heq]
    rfl

theorem exitContent_of_title (h : s.content.title ≠ []) :
    ∃ url, exitContent s = destination url s.content.title := by
  cases hc : s.content with
  | link url title =>
    have hlink : ¬(autolink? s).isSome = true := fun hlink => h (eq_of_autolink hlink).1
    unfold exitContent
    rw [hc]
    exact ⟨url, if_neg hlink⟩
  | image url title =>
    unfold exitContent
    rw [hc]
    exact ⟨url, rfl⟩
  | _ => exact absurd (by rw [hc]; rfl) h

/-- A quotation mark stands right after a title. -/
theorem exit_eq_of_title (h : s.content.title ≠ []) :
    ∃ as bs, exit s = as ++ .put s.content.title false .title :: lit ['\x22'] :: bs := by
  obtain ⟨url, hexit⟩ := exitContent_of_title h
  have htitle : ¬s.content.title.isEmpty = true := mt List.isEmpty_iff.mp h
  unfold exit
  rw [hexit, destination, if_neg htitle]
  refine ⟨tightness s :: [lit "](".toList, if url.isEmpty then lit "<>".toList
    else .put url false .address] ++ [lit [' ', '\x22']], [lit [')']], ?_⟩
  simp

/-- The titles that a visit sets are those of visited nodes. -/
theorem title_of_mem_visit {title : Text} (h : title ∈ (instructions o width s).filterMap title?) :
    ∃ n ∈ s.tree.alone.nodes, n.content.title = title := by
  obtain ⟨i, hi, htitle⟩ := List.mem_filterMap.mp h
  obtain ⟨u, hu, hi | hi⟩ := Site.mem_visit hi
  · have hmem := List.mem_filterMap.mpr ⟨i, hi, htitle⟩
    change title ∈ (enter o _ u).filterMap title? at hmem
    rw [titles_enter] at hmem
    cases hmem
  · have hmem := List.mem_filterMap.mpr ⟨i, hi, htitle⟩
    change title ∈ (exit u).filterMap title? at hmem
    rw [titles_exit] at hmem
    split at hmem
    · cases hmem
    · exact ⟨u.node, hu, (List.mem_singleton.mp hmem).symm⟩

/-- Each title of a visited node is set, with a quotation mark right after it. -/
theorem visit_eq_of_title (o : Options) (width : Nat) {n : Node} (hleaf : s.tree.alone.AreLeaves Node.isText)
    (hn : n ∈ s.tree.alone.nodes) (htitle : n.content.title ≠ []) :
    ∃ as bs, instructions o width s =
      as ++ .put n.content.title false .title :: lit ['\x22'] :: bs := by
  obtain ⟨above, written, u, h, rfl | ⟨hskip, hn⟩⟩ :=
    Site.enters_of_mem (visitor o (effectiveWidth o width)) s hn
  · obtain ⟨before, after, hvisit⟩ := h.visit_eq_exit
    obtain ⟨as, bs, hexit⟩ := exit_eq_of_title htitle
    refine ⟨before ++ as, bs ++ after, ?_⟩
    rw [instructions, hvisit]
    show before ++ exit u ++ after = _
    rw [hexit]
    simp [Site.content]
  · have hlink : (autolink? u).isSome = true := by
      have hskip' : u.kind = .link ∧ (autolink? u).isSome := by simpa [visitor] using hskip
      exact hskip'.2
    obtain ⟨-, m, ms, t, hchildren, hm⟩ := eq_of_autolink hlink
    -- nothing stands below the text of an automatic link
    have hms : ms = .nil := by
      have hsub : u.tree ∈ s.tree.alone.subtrees := h.mem_subtrees List.mem_cons_self
      have hmsub : (⟨m, ms⟩ : Tree) ∈ s.tree.alone.subtrees := by
        apply Forest.children_subset_subtrees hsub
        show (⟨m, ms⟩ : Tree) ∈ u.children.trees
        rw [hchildren]
        exact List.mem_cons_self
      have hrow := hleaf _ (List.mem_map_of_mem hmsub) (Node.isText_iff.mpr ⟨t, hm⟩)
      exact Forest.eq_nil_of_roots hrow
    rw [hchildren, hms] at hn
    have hnm : n = m := by simpa [Forest.nodes] using hn
    rw [hnm, hm] at htitle
    exact absurd rfl htitle

/-! ## The page of a quote -/

/-- The page right after a quote is entered: the mark stands on its first line. -/
def quotePage (tightItem : Bool) : Page :=
  { past := [' ', '>'], margin := "> ".toList, column := 2, beginLine := false, tightItem }

theorem enter_eq_of_quote (h : s.content = .blockQuote) :
    enter o width s = [tightness s, lit "> ".toList, .beginContent, .indent "> ".toList] := by
  have hkind : s.kind = .blockQuote := congrArg Content.kind h
  rw [enter, enterContent, h, if_neg (by simp [hkind])]
  rfl

theorem exit_eq_of_quote (h : s.content = .blockQuote) :
    exit s = [tightness s, .outdent 2, .blankLine] := by
  rw [exit, exitContent, h]

theorem run_enter_quote (h : s.content = .blockQuote) :
    Page.run f (enter o width s) {} = quotePage (inTightItem (s.node :: s.ancestors)) := by
  rw [enter_eq_of_quote h]
  rcases htight : inTightItem (s.node :: s.ancestors) with _ | _ <;>
    simp [quotePage, tightness, htight, Page.run, Page.follow, lit, Page.put, Page.settle, glyphs,
      Page.putGlyph, Page.putChar, Page.startLine, Page.write, Page.wrap_of_tail]

theorem neverStumbles_enter_quote (h : s.content = .blockQuote) :
    Page.NeverStumbles f {} (enter o width s) := by
  rw [enter_eq_of_quote h]
  have hempty : ¬(Page.follow f {} (tightness s)).Stumbles := by
    rintro ⟨-, hhead⟩
    cases hhead
  refine Page.neverStumbles_cons.mpr ⟨nofun, ?_⟩
  refine Page.neverStumbles_cons.mpr ⟨fun _ => hempty, ?_⟩
  refine Page.neverStumbles_cons.mpr ⟨nofun, ?_⟩
  exact Page.neverStumbles_cons.mpr ⟨nofun, Page.neverStumbles_nil⟩

theorem good_quotePage (tight : Bool) : (quotePage tight).Good '>' where
  marked := by simp [quotePage, Page.reversed, Text.Marked]
  begun _ := rfl

theorem marksLines_quote {more : Text} (h : '\n' ∉ more) :
    Page.MarksLines '>' ("> ".toList ++ more) where
  head := ⟨' ' :: more, rfl⟩
  blank := by decide
  oneLine := by simp [h]

/-- What stands below a quote is set with the margin of the quote, and on leaving
the quote writes nothing. -/
theorem marksAll_quote (h : s.content = .blockQuote) {inner : List Instruction} (hinner : Framed inner)
    (tight : Bool) : Page.MarksAll '>' f (quotePage tight) (inner ++ exit s) := by
  intro js i ks hsplit hwrites
  have hfront : js <+: inner ++ exit s := ⟨i :: ks, hsplit.symm⟩
  rcases prefix_append_cases hfront with hjs | ⟨ls, -, rfl⟩
  · obtain ⟨more, hmore, heq⟩ := hinner.within js hjs "> ".toList
    exact (marksLines_quote hmore).of_eq ((Page.margin_run f _ js).trans heq)
  · have hexit : exit s = ls ++ i :: ks := by simpa using hsplit
    have hmem : i ∈ [tightness s, .outdent 2, .blankLine] := by
      rw [← exit_eq_of_quote h, hexit]
      simp
    simp only [List.mem_cons, List.not_mem_nil, or_false] at hmem
    rcases hmem with rfl | rfl | rfl <;> cases hwrites

/-- What is set between entering and leaving a node. -/
def inside (o : Options) (width : Nat) (s : Site) : List Instruction :=
  s.below.flatMap (Site.visit (visitor o (effectiveWidth o width)))

theorem instructions_eq_of_quote (h : s.content = .blockQuote) :
    instructions o width s = enter o (effectiveWidth o width) s ++ (inside o width s ++ exit s) := by
  have hdescends : (visitor o (effectiveWidth o width)).descends s = true := by
    have hkind : s.kind = .blockQuote := congrArg Content.kind h
    simp [visitor, hkind]
  rw [instructions, Site.visit_eq, if_pos hdescends, List.append_assoc]
  rfl

/-- The page of a quote goes on from its first mark. -/
theorem render_eq_of_quote (h : s.content = .blockQuote) (o : Options) (width : Nat) :
    render o width s = (Page.run (format o width) (inside o width s ++ exit s)
      (quotePage (inTightItem (s.node :: s.ancestors)))).finish := by
  have hrun : Page.run (format o width) (instructions o width s) {} =
      Page.run (format o width) (inside o width s ++ exit s)
        (quotePage (inTightItem (s.node :: s.ancestors))) := by
    rw [instructions_eq_of_quote h, Page.run_append, run_enter_quote h]
  rw [← hrun]
  rfl

/-- A title with a line break stands among what is set after a quote is entered. -/
theorem newline_notMem_title (h : s.content = .blockQuote) (hleaf : s.tree.alone.AreLeaves Node.isText)
    {tight : Bool}
    (hmarked : Text.Marked '>' (Page.run (format o width) (inside o width s ++ exit s)
      (quotePage tight)).reversed) {n : Node} (hn : n ∈ s.tree.alone.nodes) :
    '\n' ∉ n.content.title := by
  by_cases htitle : n.content.title = []
  · rw [htitle]
    exact List.not_mem_nil
  · obtain ⟨as, bs, hsplit⟩ := visit_eq_of_title o width hleaf hn htitle
    rw [instructions_eq_of_quote h] at hsplit
    have hinside : ∃ js, inside o width s ++ exit s =
        js ++ .put n.content.title false .title :: lit ['\x22'] :: bs := by
      rcases List.append_eq_append_iff.mp hsplit with ⟨js, -, hjs⟩ | ⟨js, henter, hjs⟩
      · exact ⟨js, hjs⟩
      · -- entering sets no title
        cases js with
        | nil => exact ⟨[], hjs.symm⟩
        | cons i js =>
          rw [List.cons_append] at hjs
          obtain ⟨rfl, -⟩ := List.cons.inj hjs
          have hmem := congrArg (List.filterMap title?) henter
          rw [titles_enter, List.filterMap_append] at hmem
          simp [title?] at hmem
    obtain ⟨js, hinside⟩ := hinside
    exact Page.newline_notMem_of_marked hinside (marksAll_quote h (framed_sites s.below) tight)
      tears_title (by decide) hmarked

end CommonMark

namespace Document

open CommonMark

/-- In every session, each line of a block quote begins with its mark, if and only if no title
in the quote has a line break and no empty line is due where the output already ends its
line. -/
theorem Session.quotes_stay_marked (x : Session) {id : NodeId} {s : Site}
    (hs : x.document.site? id = some s) (hquote : s.content = .blockQuote) (o : Options) (width : Nat) :
    ∃ page, x.document.render? id .commonMark o width = some page ∧
      ((∀ l ∈ Text.lines page, l.head? = some '>') ↔
        (∀ n ∈ s.tree.alone.nodes, '\n' ∉ n.content.title) ∧
          Layout.Page.NeverStumbles (format o width) {} (instructions o width s)) := by
  refine ⟨render o width s, by rw [render?, hs]; rfl, ?_⟩
  have hleaf : s.tree.alone.AreLeaves Node.isText := fun r hr =>
    x.sound.leaf r (Forest.rows_subset (mem_subtrees_of_site? hs) hr)
  have hinside : Layout.Framed (inside o width s) := framed_sites s.below
  have hmargin := marksAll_quote (f := format o width) hquote hinside (inTightItem (s.node :: s.ancestors))
  rw [render_eq_of_quote hquote, Layout.Page.forall_lines_finish (by decide),
    instructions_eq_of_quote hquote, Layout.Page.neverStumbles_append, run_enter_quote hquote]
  constructor
  · intro hmarked
    exact ⟨fun n hn => newline_notMem_title hquote hleaf hmarked hn, neverStumbles_enter_quote hquote,
      Layout.Page.neverStumbles_of_marked hmargin hmarked⟩
  · rintro ⟨htitles, -, hnever⟩
    have hkept : ∀ i ∈ inside o width s ++ exit s, i.Kept (format o width) := by
      intro i hi
      refine kept_of_title fun t wrap hput => ?_
      have hmem : i ∈ instructions o width s := by
        rw [instructions_eq_of_quote hquote]
        exact List.mem_append_right _ hi
      obtain ⟨n, hn, rfl⟩ := title_of_mem_visit (List.mem_filterMap.mpr ⟨i, hmem, by rw [hput]; rfl⟩)
      exact htitles n hn
    exact (Layout.Page.good_run hmargin (good_quotePage _) hnever hkept).marked

/-- A quote with a heading and a titled link, at a width at which lines wrap. -/
theorem quotes_stay_marked_link :
    let x : Session := ⟨.new, [.create .blockQuote, .appendChild 0 1, .create .heading,
      .appendChild 1 2, .create .text, .appendChild 2 3, .set 3 (.literal (some "a b".toList)),
      .create .paragraph, .appendChild 1 4, .create .link, .appendChild 4 5,
      .set 5 (.url (some "/c".toList)), .set 5 (.title (some "> d".toList)),
      .create .text, .appendChild 5 6, .set 6 (.literal (some "e f g".toList))]⟩
    ∃ s, (x.document.site? 1 = some s ∧ s.content = .blockQuote) ∧
      ∃ page, x.document.render? 1 .commonMark {} 3 = some page ∧
        ((∀ l ∈ Text.lines page, l.head? = some '>') ↔
          (∀ n ∈ s.tree.alone.nodes, '\n' ∉ n.content.title) ∧
            Layout.Page.NeverStumbles (format {} 3) {} (instructions {} 3 s)) := by
  intro x
  have hcontent : (x.document.site? 1).map Site.content = some .blockQuote := by decide +kernel
  obtain ⟨s, hs, hquote⟩ := Option.map_eq_some_iff.mp hcontent
  exact ⟨s, ⟨hs, hquote⟩, x.quotes_stay_marked hs hquote {} 3⟩

/-- A paragraph after indented code. The line break that ends the code counts as owed to
the paragraph, and the empty line between them goes without the mark. -/
theorem quote_loses_mark :
    let x : Session := ⟨.new, [.create .blockQuote, .appendChild 0 1, .create .codeBlock,
      .appendChild 1 2, .set 2 (.literal (some "abc\n".toList)), .create .paragraph,
      .appendChild 1 3, .create .text, .appendChild 3 4, .set 4 (.literal (some "x".toList))]⟩
    ∃ page, x.document.render? 1 .commonMark {} 0 = some page ∧
      ¬∀ l ∈ Text.lines page, l.head? = some '>' := by
  intro x
  have hpage : x.document.render? 1 .commonMark {} 0 = some "> \n>\n>     abc\n\n> x\n".toList := by
    decide +kernel
  exact ⟨_, hpage, by decide⟩

end Document

end MarkupTree
