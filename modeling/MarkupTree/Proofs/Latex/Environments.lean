-- The environments of a page of LaTeX and the blocks of the tree. Each quote, list and code block
-- opens one environment and closes it behind all that stands below it, and no other node writes a
-- bracket. What text is escaped to has none either, but code is written as it is, and a code block
-- with the end of verbatim in it closes its environment early.
import MarkupTree.Proofs.Forest.Walks
import MarkupTree.Proofs.Latex.Balance
import MarkupTree.Proofs.Latex.Brackets

namespace MarkupTree

namespace Latex

open Layout

/-! ## The environments of a tree -/

def listEnvironment (style : ListStyle) : Environment :=
  match style.kind with
  | .ordered => .enumerate
  | .bullet => .itemize

def environment? (n : Node) : Option Environment :=
  match n.content with
  | .blockQuote => some .quote
  | .list style => some (listEnvironment style)
  | .codeBlock _ _ => some .verbatim
  | _ => none

theorem name_listEnvironment (style : ListStyle) : (listEnvironment style).name = environmentOf style := by
  unfold listEnvironment environmentOf
  cases style.kind <;> rfl

/-- A walk over a tree opens the environment of a node when it enters the node, and closes it
when it leaves. -/
def bracketsAt : Edge → List Bracket
  | .enter n => (environment? n).toList.map .opens
  | .exit n => (environment? n).toList.map .closes

def environments (t : Tree) : List Bracket := (t.edges fun _ => false).flatMap bracketsAt

/-- Brackets of which each that opens an environment has the one that closes it behind it, and
between the two others that are properly nested. -/
inductive Nested : List Bracket → Prop
  | nil : Nested []
  | enclose {e : Environment} {inner rest : List Bracket} :
    Nested inner → Nested rest → Nested (.opens e :: (inner ++ .closes e :: rest))

theorem Nested.append {bs cs : List Bracket} (hb : Nested bs) (hc : Nested cs) : Nested (bs ++ cs) := by
  induction hb with
  | nil => exact hc
  | enclose hinner _ _ ihrest =>
    rw [List.cons_append, List.append_assoc]
    exact .enclose hinner ihrest

theorem nested_told (f : Forest) : Nested (f.told bracketsAt) := by
  induction f with
  | nil => exact .nil
  | cons n cs rest ihc ihr =>
    rw [Forest.told_cons]
    refine Nested.append ?_ ihr
    rw [bracketsAt, bracketsAt]
    cases environment? n with
    | none =>
      show Nested ([] ++ cs.told bracketsAt ++ [])
      rw [List.nil_append, List.append_nil]
      exact ihc
    | some e => exact .enclose ihc .nil

/-- The environments of a tree lie in each other as its blocks do. -/
theorem nested_environments (t : Tree) : Nested (environments t) := by
  rw [environments, t.told_eq]
  exact nested_told _

/-! ## The brackets that are written -/

/-- The brackets that a node has in its code. -/
def strays (n : Node) : List Bracket :=
  match n.content with
  | .codeBlock _ literal => brackets true literal
  | _ => []

def writtenAt : Edge → List Bracket
  | .enter n => bracketsAt (.enter n) ++ strays n
  | .exit n => bracketsAt (.exit n)

/-- The brackets that a node writes, in front of those below it and behind them. A code block
writes all of its own at once. -/
def bracketVisitor : Visitor Bracket where
  enter s := writtenAt (.enter s.node) ++ (if s.kind = .codeBlock then writtenAt (.exit s.node) else [])
  exit s := if s.kind = .codeBlock then [] else writtenAt (.exit s.node)
  descends s := s.kind != .image && !(s.kind == .link && linkKind s == .url)

variable {f : Format} {o : Options} {width : Nat} {s : Site} {n : Node}

theorem environment?_of_isInline (h : n.kind.isInline = true) : environment? n = none ∧ strays n = [] := by
  have hkind : n.content.kind.isInline = true := h
  unfold environment? strays
  cases hcontent : n.content with
  | blockQuote | list | codeBlock =>
    rw [hcontent] at hkind
    cases hkind
  | _ => exact ⟨rfl, rfl⟩

theorem writtenAt_of_isInline {e : Edge} (h : e.node.kind.isInline = true) : writtenAt e = [] := by
  obtain ⟨henvironment, hstrays⟩ := environment?_of_isInline h
  cases e with
  | enter n =>
    rw [writtenAt, bracketsAt, show environment? n = none from henvironment, show strays n = [] from hstrays]
    rfl
  | exit n =>
    rw [writtenAt, bracketsAt, show environment? n = none from henvironment]
    rfl

/-- Nothing stands below code. -/
theorem children_of_code (hrow : ∀ c ∈ s.children.roots, s.kind.canContain c.kind = true)
    (hcode : s.kind = .codeBlock) : s.children = .nil := by
  refine Forest.eq_nil_of_roots (List.eq_nil_iff_forall_not_mem.mpr fun c hc => ?_)
  have hfit := hrow c hc
  rw [hcode] at hfit
  cases hkind : c.kind <;> rw [hkind] at hfit <;> cases hfit

theorem holdsInlines_of_passed (h : ¬bracketVisitor.descends s = true) : s.kind.holdsInlines = true := by
  have hkind : s.kind = .image ∨ s.kind = .link := by
    by_cases himage : s.kind = .image
    · exact Or.inl himage
    · refine Or.inr (by_contra fun hlink => h ?_)
      simp [bracketVisitor, himage, hlink]
  rcases hkind with hkind | hkind <;> rw [hkind] <;> rfl

/-- Below the nodes that the writer passes over there are no blocks, so the walk tells nothing there. -/
theorem visited_eq (hfits : ∀ r ∈ s.tree.alone.rows, ∀ c ∈ r.children, r.node.kind.canContain c.kind = true) :
    bracketVisitor.enter s ++ (if bracketVisitor.descends s then s.children.told writtenAt else []) ++
      bracketVisitor.exit s = s.tree.alone.told writtenAt := by
  rw [Forest.rows_alone] at hfits
  obtain ⟨hrow, hbelow⟩ := List.forall_mem_cons.mp hfits
  have hinner : (if bracketVisitor.descends s then s.children.told writtenAt else []) = s.children.told writtenAt := by
    split
    · rfl
    · rename_i hpassed
      have hinline := fun c hc => Kind.isInline_of_canContain (holdsInlines_of_passed hpassed) (hrow c hc)
      refine (Forest.told_eq_nil fun e he => ?_).symm
      exact writtenAt_of_isInline (Forest.isInline_of_roots hbelow hinline _ he)
  rw [Forest.told_alone, hinner]
  show _ = writtenAt (.enter s.node) ++ s.children.told writtenAt ++ writtenAt (.exit s.node)
  unfold bracketVisitor
  dsimp only
  by_cases hcode : s.kind = .codeBlock
  · have hnone : s.children.told writtenAt = [] := by
      rw [children_of_code hrow hcode]
      rfl
    rw [if_pos hcode, if_pos hcode, hnone]
    simp only [List.append_nil]
  · rw [if_neg hcode, if_neg hcode, List.append_nil]

theorem visit_eq {g : Forest} (hfits : ∀ r ∈ g.rows, ∀ c ∈ r.children, r.node.kind.canContain c.kind = true)
    (ancestors before : List Node) (depth : Nat) :
    g.visit bracketVisitor ancestors before depth = g.told writtenAt := by
  induction g generalizing ancestors before depth with
  | nil => rfl
  | cons n cs rest ihc ihr =>
    rw [Forest.rows_cons, List.forall_mem_cons, List.forall_mem_append] at hfits
    obtain ⟨hn, hcs, hrest⟩ := hfits
    let u : Site := { node := n, children := cs, ancestors, before, after := rest, depth }
    have hu : bracketVisitor.enter u ++ (if bracketVisitor.descends u then cs.told writtenAt else []) ++
        bracketVisitor.exit u = u.tree.alone.told writtenAt := by
      refine visited_eq ?_
      rw [Forest.rows_alone]
      exact List.forall_mem_cons.mpr ⟨hn, hcs⟩
    rw [Forest.told_alone] at hu
    rw [Forest.told_cons, Forest.visit, ihc hcs, ihr hrest]
    exact congrArg (· ++ rest.told writtenAt) hu

theorem visit_site (hfits : ∀ r ∈ s.tree.alone.rows, ∀ c ∈ r.children, r.node.kind.canContain c.kind = true) :
    s.visit bracketVisitor = s.tree.alone.told writtenAt := by
  have hbelow : ∀ r ∈ s.children.rows, ∀ c ∈ r.children, r.node.kind.canContain c.kind = true := by
    rw [Forest.rows_alone] at hfits
    exact (List.forall_mem_cons.mp hfits).2
  rw [Site.visit, visit_eq hbelow]
  exact visited_eq hfits

/-! ## What the reader finds -/

theorem finds_opening {e : Environment} (h : e ≠ .verbatim) :
    hunter.Finds ("\\begin\x7b".toList ++ e.name ++ ['\x7d']) [.opens e] := by
  refine finds_of_foldl ?_
  cases e
  case verbatim => exact absurd rfl h
  all_goals decide +kernel

theorem finds_closing (e : Environment) : hunter.Finds ("\\end\x7b".toList ++ e.name ++ ['\x7d']) [.closes e] := by
  refine finds_of_foldl ?_
  cases e <;> decide +kernel

theorem finds_listOpening (style : ListStyle) :
    hunter.Finds ("\\begin\x7b".toList ++ environmentOf style ++ ['\x7d']) [.opens (listEnvironment style)] := by
  have hverbatim : listEnvironment style ≠ .verbatim := by
    unfold listEnvironment
    cases style.kind <;> decide
  rw [← name_listEnvironment]
  exact finds_opening hverbatim

theorem finds_listClosing (style : ListStyle) :
    hunter.Finds ("\\end\x7b".toList ++ environmentOf style ++ ['\x7d']) [.closes (listEnvironment style)] := by
  rw [← name_listEnvironment]
  exact finds_closing _

/-- All brackets of a code block, those in its code included. -/
theorem tells_codeBlock_brackets (t : Text) :
    hunter.Tells f [.lineBreak, beginning verbatim, .lineBreak, lit t, .lineBreak, ending verbatim, .blankLine]
      (.opens .verbatim :: brackets true t ++ [.closes .verbatim]) := by
  refine passes_hunter.tells_codeBlock fun found => ?_
  let start : Hunt := ⟨.opens .verbatim :: found, true, []⟩
  have hbegins : ("\\begin\x7b".toList ++ verbatim ++ ['\x7d']).foldl Hunt.step ⟨found, false, []⟩ = start := by
    rw [Hunt.foldl_found]
    rfl
  have hcode : (t.foldl Hunt.step start).found = (brackets true t).reverse ++ .opens .verbatim :: found :=
    Hunt.foldl_spec (h := start) (Hunt.begun_nil true) t
  have hends : ∀ inside found, ("\\end\x7b".toList ++ verbatim ++ ['\x7d']).foldl Hunt.step ⟨found, inside, []⟩ =
      ⟨.closes .verbatim :: found, false, []⟩ := by
    intro inside found
    rw [Hunt.foldl_found]
    cases inside <;> rfl
  refine ⟨start, { t.foldl Hunt.step start with begun := [] }, hbegins, calm_hunter start, turns_hunter _, ?_⟩
  refine (hends _ _).trans ?_
  rw [hcode]
  simp [hunter]

/-- A counter is set by a command that is no bracket. -/
theorem finds_setCounter_brackets {depth : Nat} {name : Text} (hname : counter? depth = some name) (n : Nat) :
    hunter.Finds ("\\setcounter\x7b".toList ++ name ++ "\x7d\x7b".toList ++ Text.ofNat n ++ ['\x7d']) [] := by
  have hletters : '\\' ∉ name := by
    unfold counter? at hname
    split at hname <;> cases hname <;> decide
  have hdigits : '\\' ∉ Text.ofNat n := fun h =>
    absurd (Nat.isDigit_of_mem_toDigits (by decide) (by decide) h) (by decide)
  have hcommand : hunter.Finds "\\setcounter\x7b".toList [] := finds_of_foldl (by decide +kernel)
  have hbetween : hunter.Finds "\x7d\x7b".toList [] := passes_hunter.notMem (by decide)
  exact (((hcommand.append (passes_hunter.notMem hletters)).append hbetween).append
    (passes_hunter.notMem hdigits)).append (passes_hunter.notMem (by decide))

theorem tells_enterList_brackets (s : Site) (style : ListStyle) :
    hunter.Tells f (enterList s style) [.opens (listEnvironment style)] := by
  have hbegin : hunter.Tells f [beginning (environmentOf style), .lineBreak] [.opens (listEnvironment style)] :=
    (passes_hunter.literal (finds_listOpening style)).line
  have hset : hunter.Tells f (if style.kind = .ordered ∧ 1 < style.start then
      setCounter (enumDepth s) style.start ++ [.lineBreak] else []) [] := by
    split
    · refine Recorder.Tells.line ?_
      unfold setCounter
      cases hname : counter? (enumDepth s) with
      | none => exact Recorder.tells_nil
      | some name => exact passes_hunter.literal (finds_setCounter_brackets hname _)
    · exact Recorder.tells_nil
  exact hbegin.append_nil hset

/-- A node that is no custom one. -/
def Genuine (n : Node) : Prop := n.kind ≠ .customBlock ∧ n.kind ≠ .customInline

theorem tells_enter_brackets (hescape : f.escape = escapeChar) (h : Genuine s.node) :
    hunter.Tells f (enter o width s) (bracketVisitor.enter s) := by
  have hplain : isRecorded s.kind = false → hunter.Tells f (enter o width s) [] :=
    passes_hunter.tells_enter hescape
  have hkind : s.kind = s.content.kind := rfl
  simp only [bracketVisitor, writtenAt, bracketsAt, environment?, strays]
  rw [show s.node.content = s.content from rfl, hkind]
  cases hcontent : s.content with
  | blockQuote =>
    rw [enter, hcontent]
    exact (passes_hunter.literal (finds_opening (e := .quote) (by decide))).line
  | list style =>
    rw [enter, hcontent]
    exact tells_enterList_brackets s style
  | item =>
    rw [enter, hcontent]
    have hitem : hunter.Finds "\\item ".toList [] := finds_of_foldl (by decide +kernel)
    exact passes_hunter.literal hitem
  | codeBlock info literal =>
    rw [enter, hcontent]
    exact tells_codeBlock_brackets literal
  | thematicBreak =>
    rw [enter, hcontent]
    have hrule : hunter.Finds rule [] := finds_of_foldl (by decide +kernel)
    exact Recorder.tells_blankLine.append (passes_hunter.literal hrule).block
  | customBlock => exact absurd (hkind.trans (by rw [hcontent]; rfl)) h.1
  | customInline => exact absurd (hkind.trans (by rw [hcontent]; rfl)) h.2
  | _ => exact hplain (by rw [hkind, hcontent]; rfl)

theorem tells_exit_brackets (h : Genuine s.node) : hunter.Tells f (exit s) (bracketVisitor.exit s) := by
  have hplain : isRecorded s.kind = false → hunter.Tells f (exit s) [] := passes_hunter.tells_exit
  have hkind : s.kind = s.content.kind := rfl
  simp only [bracketVisitor, writtenAt, bracketsAt, environment?]
  rw [show s.node.content = s.content from rfl, hkind]
  cases hcontent : s.content with
  | blockQuote =>
    rw [exit, hcontent]
    exact (passes_hunter.literal (finds_closing .quote)).block
  | list style =>
    rw [exit, hcontent]
    exact (passes_hunter.literal (finds_listClosing style)).block
  | item =>
    rw [exit, hcontent]
    exact Recorder.tells_lineBreak
  | customBlock => exact absurd (hkind.trans (by rw [hcontent]; rfl)) h.1
  | customInline => exact absurd (hkind.trans (by rw [hcontent]; rfl)) h.2
  | codeBlock | thematicBreak =>
    rw [exit, hcontent]
    exact Recorder.tells_nil
  | _ => exact hplain (by rw [hkind, hcontent]; rfl)

theorem matches_bracketVisitor (hescape : f.escape = escapeChar) :
    hunter.Matches f o width Genuine bracketVisitor where
  enter _ := tells_enter_brackets hescape
  exit _ := tells_exit_brackets
  descends _ := rfl

/-- The brackets of a page are those of the blocks, with those that stand in code. -/
theorem brackets_render (hfits : ∀ r ∈ s.tree.alone.rows, ∀ c ∈ r.children, r.node.kind.canContain c.kind = true)
    (h : ∀ n ∈ s.tree.alone.nodes, Genuine n) (o : Options) (width : Nat) :
    brackets false (render o width s) = s.tree.alone.told writtenAt := by
  rw [← visit_site hfits]
  exact brackets_of_foldl ((matches_bracketVisitor rfl).render passes_hunter h)

/-! ## Code that ends its environment -/

theorem strays_eq_nil_iff :
    strays n = [] ↔ ∀ info literal, n.content = .codeBlock info literal → ¬verbatimEnd <:+: literal := by
  unfold strays
  cases n.content with
  | codeBlock info literal =>
    refine brackets_inside_eq_nil_iff.trans ⟨fun h _ _ heq => ?_, fun h => h info literal rfl⟩
    cases heq
    exact h
  | _ => exact iff_of_true rfl nofun

/-- What is written is what the blocks have, if there are no brackets in code. Any that are there
make it longer. -/
theorem told_writtenAt_eq_iff (g : Forest) :
    g.told writtenAt = g.told bracketsAt ↔ ∀ n ∈ g.nodes, strays n = [] := by
  have hlength : (g.told writtenAt).length = (g.told bracketsAt).length + (g.nodes.flatMap strays).length := by
    induction g with
    | nil => rfl
    | cons n cs rest ihc ihr =>
      rw [Forest.told_cons, Forest.told_cons, Forest.nodes]
      simp only [writtenAt, List.length_append, List.flatMap_cons, List.flatMap_append, ihc, ihr]
      omega
  constructor
  · intro h
    rw [h, Nat.left_eq_add] at hlength
    exact List.flatMap_eq_nil_iff.mp (List.length_eq_zero_iff.mp hlength)
  · intro h
    refine Forest.told_congr fun e he => ?_
    cases e with
    | enter n => rw [writtenAt, h n he, List.append_nil]
    | exit n => rfl

end Latex

namespace Document

open Latex

/-- In every session, the environments of the LaTeX of a node without custom ones below it are those
of its quotes, lists and code blocks, each around what stands in the block, whatever the texts, the
addresses and the titles are. That is so exactly if no code block has the end of its environment in
its code. -/
theorem Session.environments_mirror_blocks (x : Session) {id : NodeId} {s : Site} (hs : x.document.site? id = some s)
    (hgenuine : ∀ n ∈ s.tree.alone.nodes, Genuine n) (o : Options) (width : Nat) :
    ∃ page, x.document.render? id .latex o width = some page ∧ Nested (environments s.tree) ∧
      (brackets false page = environments s.tree ↔
        ∀ n ∈ s.tree.alone.nodes, ∀ info literal, n.content = .codeBlock info literal → ¬verbatimEnd <:+: literal) := by
  have hfits : ∀ r ∈ s.tree.alone.rows, ∀ c ∈ r.children, r.node.kind.canContain c.kind = true :=
    fun r hr => x.sound.fits r (Forest.rows_subset (mem_subtrees_of_site? hs) hr)
  have hcode : (∀ n ∈ s.tree.alone.nodes, strays n = []) ↔
      ∀ n ∈ s.tree.alone.nodes, ∀ info literal, n.content = .codeBlock info literal → ¬verbatimEnd <:+: literal :=
    forall₂_congr fun n _ => strays_eq_nil_iff
  refine ⟨Latex.render o width s, by rw [render?, hs]; rfl, nested_environments s.tree, ?_⟩
  rw [brackets_render hfits hgenuine, environments, Tree.told_eq, told_writtenAt_eq_iff, hcode]

/-- A quote with a list and code in it, both of which speak of environments. -/
theorem environments_mirror_blocks_quote :
    let x : Session := ⟨.new, [.create .blockQuote, .appendChild 0 1, .create .list, .appendChild 1 2, .create .item,
      .appendChild 2 3, .create .paragraph, .appendChild 3 4, .create .text,
      .set 5 (.literal (some "\\end\x7bitemize\x7d".toList)), .appendChild 4 5, .create .codeBlock,
      .set 6 (.literal (some "\\end\x7bquote\x7d\n".toList)), .appendChild 1 6]⟩
    ∃ s, (x.document.site? 1 = some s ∧ ∀ n ∈ s.tree.alone.nodes, Genuine n) ∧
      ∃ page, x.document.render? 1 .latex {} 80 = some page ∧ Nested (environments s.tree) ∧
        (brackets false page = environments s.tree ↔
          ∀ n ∈ s.tree.alone.nodes, ∀ info literal, n.content = .codeBlock info literal → ¬verbatimEnd <:+: literal) := by
  intro x
  have hkinds : (x.document.site? 1).map (fun s => s.tree.alone.nodes.map Node.kind) =
      some [.blockQuote, .list, .item, .paragraph, .text, .codeBlock] := by decide +kernel
  obtain ⟨s, hs, hnodes⟩ := Option.map_eq_some_iff.mp hkinds
  have hgenuine : ∀ n ∈ s.tree.alone.nodes, Genuine n := by
    intro n hn
    have hmem := List.mem_map_of_mem (f := Node.kind) hn
    rw [hnodes] at hmem
    unfold Genuine
    revert hmem
    cases n.kind <;> decide
  exact ⟨s, ⟨hs, hgenuine⟩, x.environments_mirror_blocks hs hgenuine {} 80⟩

/-- Code that closes its environment: the end of the code block closes another that is not open. -/
theorem code_closes_environment :
    let x : Session := ⟨.new, [.create .codeBlock, .set 1 (.literal (some "\\end\x7bverbatim\x7d\n".toList)),
      .appendChild 0 1]⟩
    (x.document.site? 1).map (fun s => (s.tree.alone.nodes.map Node.kind, environments s.tree)) =
        some ([.codeBlock], [.opens .verbatim, .closes .verbatim]) ∧
      (x.document.render? 1 .latex {} 80).map (brackets false) =
        some [.opens .verbatim, .closes .verbatim, .closes .verbatim] := by
  decide +kernel

end Document

end MarkupTree
