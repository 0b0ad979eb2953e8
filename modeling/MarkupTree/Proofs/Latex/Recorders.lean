-- Readers of LaTeX that record what they look for. Such a reader passes over text, and over
-- commands that it does not look for. What is written of a text is nothing to it then, however
-- the text is escaped, and what it finds in a page is told node by node.
import MarkupTree.Latex.Instructions
import MarkupTree.Proofs.Layout.Readers

namespace MarkupTree

namespace Latex

open Layout

/-! ## Readers -/

structure Recorder (κ : Type) where
  State : Type
  step : State → Char → State
  /-- Where the reader stands in text, behind what it has found, the last one first. -/
  text : List κ → State

/-- The commands with a name that stand in a page for nothing but themselves. -/
def macros : List Text :=
  ["textasciitilde".toList, "textbackslash".toList, "textbar".toList, "textless".toList,
    "textgreater".toList, "textquotedbl".toList, "textquotesingle".toList, "ldots".toList,
    "section".toList, "subsection".toList, "subsubsection".toList, "paragraph".toList,
    "subparagraph".toList, "texttt".toList, "textbf".toList, "emph".toList, "url".toList,
    "href".toList, "nolinkurl".toList, "protect".toList, "hyperlink".toList,
    "includegraphics".toList]

namespace Recorder

variable {κ : Type} {R : Recorder κ} {f : Format} {t u : Text} {c : Char} {cs ds : List κ}
  {is js : List Instruction}

/-- From text to text the reader finds this. -/
def Finds (R : Recorder κ) (t : Text) (cs : List κ) : Prop :=
  ∀ found, t.foldl R.step (R.text found) = R.text (cs.reverse ++ found)

/-- The reader as one that could refuse a character. -/
def read (R : Recorder κ) (s : R.State) (c : Char) : Option R.State := some (R.step s c)

/-- What the reader passes over. -/
structure Passes (R : Recorder κ) : Prop where
  char : ∀ c, c ≠ '\\' → R.Finds [c] []
  control : ∀ c, c ≠ '\\' → c.isAlpha = false → R.Finds ['\\', c] []
  named : ∀ name ∈ macros, ∀ c t cs, c.isAlpha = false → R.Finds (c :: t) cs →
    R.Finds ('\\' :: name ++ c :: t) cs
  /-- Two backslashes stand at the end of a line. -/
  broken : ∀ found, Turns R.read ("\\\\".toList.foldl R.step (R.text found)) (R.text found)

/-! ## Text -/

theorem finds_nil : R.Finds [] [] := fun _ => rfl

theorem Finds.append (ht : R.Finds t cs) (hu : R.Finds u ds) : R.Finds (t ++ u) (cs ++ ds) := by
  intro found
  rw [List.foldl_append, ht, hu, List.reverse_append, List.append_assoc]

theorem finds_ite {q : Prop} [Decidable q] (ht : q → R.Finds t cs) (hu : ¬q → R.Finds u cs) :
    R.Finds (if q then t else u) cs := iteInduction (motive := fun t => R.Finds t cs) ht hu

namespace Passes

variable (hR : R.Passes)

include hR

theorem notMem (ht : '\\' ∉ t) : R.Finds t [] := by
  induction t with
  | nil => exact finds_nil
  | cons c t ih =>
    obtain ⟨hc, ht⟩ : '\\' ≠ c ∧ '\\' ∉ t := by simpa using ht
    exact (hR.char c (Ne.symm hc)).append (ih ht)

theorem opening {name : Text} (hname : name ∈ macros) : R.Finds ('\\' :: name ++ ['\x7b']) [] :=
  hR.named name hname _ _ _ rfl (hR.notMem (by decide))

theorem guarded {name : Text} (hname : name ∈ macros) :
    R.Finds ('\\' :: "protect".toList ++ '\\' :: (name ++ ['\x7b'])) [] :=
  hR.named "protect".toList (by decide) _ _ _ rfl (hR.opening hname)

theorem command {name : Text} (hname : name ∈ macros) : R.Finds (Latex.command name) [] :=
  hR.named name hname _ _ _ rfl (hR.notMem (by decide))

/-- However a character is escaped, there is nothing to find. -/
theorem escapeChar (mode : Mode) (last : Option Char) (c : Char) (next : Option Char) (begins : Bool) :
    R.Finds (Latex.escapeChar mode last c next begins) [] := by
  unfold Latex.escapeChar
  refine finds_ite (fun hmark => ?_) fun _ => ?_
  · have hmem := List.contains_iff_mem.mp hmark
    simp only [List.mem_cons, List.not_mem_nil, or_false] at hmem
    obtain ⟨hslash, hletter⟩ : c ≠ '\\' ∧ c.isAlpha = false := by
      rcases hmem with rfl | rfl | rfl | rfl | rfl <;> exact ⟨by decide, rfl⟩
    exact hR.control c hslash hletter
  refine finds_ite (fun hmath => finds_ite (fun _ => ?_) fun _ => ?_) fun _ => ?_
  · rcases hmath with rfl | rfl <;> exact hR.control _ (by decide) rfl
  · rcases hmath with rfl | rfl <;> exact hR.char _ (by decide)
  refine finds_ite (fun _ => hR.notMem (by decide)) fun _ => finds_ite (fun _ => ?_) fun _ => ?_
  · exact (hR.control '^' (by decide) rfl).append (hR.notMem (by decide))
  refine finds_ite (fun _ => ?_) fun hback => ?_
  · exact finds_ite (fun _ => hR.char _ (by decide)) fun _ => hR.command (by decide)
  refine finds_ite (fun _ => hR.command (by decide)) fun _ => finds_ite (fun _ => hR.command (by decide)) fun _ => ?_
  refine finds_ite (fun _ => hR.command (by decide)) fun _ => finds_ite (fun hbracket => ?_) fun _ => ?_
  · rcases hbracket with rfl | rfl <;> exact hR.notMem (by decide)
  refine finds_ite (fun _ => hR.command (by decide)) fun _ => finds_ite (fun _ => hR.command (by decide)) fun _ => ?_
  refine finds_ite (fun _ => hR.char _ (by decide)) fun _ => finds_ite (fun _ => hR.command (by decide)) fun _ => ?_
  refine finds_ite (fun _ => ?_) fun _ => hR.char c hback
  cases hc : normalOnly c with
  | none => exact hR.char c hback
  | some t =>
    unfold normalOnly at hc
    split at hc <;> cases hc
    · exact hR.command (by decide)
    all_goals exact hR.notMem (by decide)

end Passes

/-! ## Instructions -/

theorem foldlM_read (t : Text) (s : R.State) : t.foldlM R.read s = some (t.foldl R.step s) := by
  induction t generalizing s with
  | nil => rfl
  | cons c t ih => exact ih (R.step s c)

/-- On a page of text the instructions write what the reader finds there. -/
def Tells (R : Recorder κ) (f : Format) (is : List Instruction) (cs : List κ) : Prop :=
  ∀ found, Leads R.read f (R.text found) is (R.text (cs.reverse ++ found))

theorem tells_nil : R.Tells f [] [] := fun _ => Leads.nil

theorem Tells.append (hi : R.Tells f is cs) (hj : R.Tells f js ds) : R.Tells f (is ++ js) (cs ++ ds) := by
  intro found
  rw [List.reverse_append, List.append_assoc]
  exact (hi found).append (hj _)

theorem tells_lineBreak : R.Tells f [.lineBreak] [] := fun _ => Leads.lineBreak

theorem tells_blankLine : R.Tells f [.blankLine] [] := fun _ => Leads.blankLine

theorem Tells.append_nil (hi : R.Tells f is cs) (hj : R.Tells f js []) : R.Tells f (is ++ js) cs := by
  have happend := hi.append hj
  rwa [List.append_nil] at happend

theorem Tells.line (h : R.Tells f is cs) : R.Tells f (is ++ [.lineBreak]) cs := h.append_nil tells_lineBreak

theorem Tells.block (h : R.Tells f is cs) : R.Tells f (is ++ [.blankLine]) cs := h.append_nil tells_blankLine

namespace Passes

variable (hR : R.Passes)

include hR

theorem calm (found : List κ) : Calm R.read (R.text found) :=
  ⟨congrArg some (hR.char ' ' (by decide) found), congrArg some (hR.char '\n' (by decide) found)⟩

theorem literal (h : R.Finds t cs) : R.Tells f [lit t] cs := fun found =>
  Leads.literal (hR.calm found) ((foldlM_read t _).trans (congrArg some (h found)))

theorem text (hescape : f.escape = Latex.escapeChar) (t : Text) (wrap : Bool) {mode : Mode}
    (hmode : mode ≠ .literal) : R.Tells f [.put t wrap mode] [] := by
  intro found
  refine Leads.text (hR.calm found) hmode fun c _ last next begins => ?_
  rw [hescape, foldlM_read, hR.escapeChar]
  rfl

theorem tells_opening {name : Text} (hname : name ∈ macros) : R.Tells f [Latex.opening name] [] :=
  hR.literal (hR.opening hname)

theorem tells_closing : R.Tells f [closing] [] := hR.literal (hR.char _ (by decide))

/-- A command with an address or a text for its argument. -/
theorem tells_argument {opens : Text} {wrap : Bool} {mode : Mode} (hescape : f.escape = Latex.escapeChar)
    (hopens : R.Finds opens []) (hmode : mode ≠ .literal) {back : Text} (hback : R.Finds back []) :
    R.Tells f [lit opens, .put t wrap mode, lit back] [] :=
  (hR.literal hopens).append ((hR.text hescape t wrap hmode).append (hR.literal hback))

theorem tells_break : R.Tells f [lit "\\\\".toList, .lineBreak] [] := fun found =>
  Leads.line (hR.calm found) (foldlM_read _ _) (hR.broken found)

/-- Code in the environment of its text, and the end of the environment on a line of its own.
The reader stands at `inside` when the environment begins, and at `ended` when its last line is
ended. -/
theorem tells_codeBlock {begins ends literal : Text} {cs : List κ}
    (h : ∀ found, ∃ inside ended, begins.foldl R.step (R.text found) = inside ∧ Calm R.read inside ∧
      Turns R.read (literal.foldl R.step inside) ended ∧
      ends.foldl R.step ended = R.text (cs.reverse ++ found)) :
    R.Tells f [.lineBreak, lit begins, .lineBreak, lit literal, .lineBreak, lit ends, .blankLine] cs := by
  intro found
  obtain ⟨inside, ended, hbegins, hinside, hturn, hends⟩ := h found
  have hbegin : Leads R.read f (R.text found) [lit begins] inside :=
    Leads.literal (hR.calm found) ((foldlM_read _ _).trans (congrArg some hbegins))
  have hcode : Leads R.read f inside [lit literal, .lineBreak] ended :=
    Leads.line hinside (foldlM_read _ _) hturn
  have hend : Leads R.read f ended [lit ends] (R.text (cs.reverse ++ found)) :=
    Leads.literal hturn.calm ((foldlM_read _ _).trans (congrArg some hends))
  exact Leads.lineBreak.append (hbegin.append (Leads.lineBreak.append (hcode.append (hend.append Leads.blankLine))))

/-! ## Nodes -/

variable {o : Options} {width : Nat} {s : Site}

theorem tells_enterLink (hescape : f.escape = Latex.escapeChar) (s : Site) : R.Tells f (enterLink s) [] := by
  have hback : R.Finds "\x7d\x7b".toList [] := hR.notMem (by decide)
  unfold enterLink
  cases linkKind s with
  | empty => exact hR.literal (hR.char _ (by decide))
  | url =>
    exact hR.tells_argument hescape (hR.opening (by decide)) (by decide) (hR.char _ (by decide))
  | email =>
    have hmail := (hR.char '\x7d' (by decide)).append (hR.opening (show "nolinkurl".toList ∈ macros by decide))
    exact hR.tells_argument hescape (hR.opening (by decide)) (by decide) hmail
  | anchor =>
    have hanchor := hR.guarded (show "hyperlink".toList ∈ macros by decide)
    exact hR.tells_argument hescape hanchor (by decide) hback
  | other => exact hR.tells_argument hescape (hR.opening (by decide)) (by decide) hback

theorem tells_softBreak (hescape : f.escape = Latex.escapeChar) (o : Options) (width : Nat) :
    R.Tells f (softBreak o width) [] := by
  unfold softBreak
  split
  · exact hR.tells_break
  · split
    · exact tells_lineBreak
    · exact hR.text hescape [' '] _ (by decide)

end Passes

end Recorder

/-- Whether nodes of the kind write commands that a reader may look for. -/
def isRecorded : Kind → Bool
  | .blockQuote | .list | .item | .codeBlock | .customBlock | .customInline | .thematicBreak => true
  | _ => false

namespace Recorder

variable {κ : Type} {R : Recorder κ} {f : Format} {o : Options} {width : Nat} {s : Site}

theorem Passes.tells_enter (hR : R.Passes) (hescape : f.escape = Latex.escapeChar)
    (h : isRecorded s.kind = false) : R.Tells f (enter o width s) [] := by
  have hkind : isRecorded s.content.kind = false := h
  unfold enter
  cases hcontent : s.content with
  | heading level =>
    refine hR.tells_opening ?_
    unfold sectionCommand
    split <;> decide
  | text literal => exact hR.text hescape literal _ (by decide)
  | lineBreak => exact hR.tells_break
  | softBreak => exact hR.tells_softBreak hescape o width
  | code literal =>
    exact hR.tells_argument hescape (hR.opening (by decide)) (by decide) (hR.char _ (by decide))
  | strong | emphasis => exact hR.tells_opening (by decide)
  | link => exact hR.tells_enterLink hescape s
  | image url =>
    have hgraphics := hR.guarded (show "includegraphics".toList ∈ macros by decide)
    exact hR.tells_argument hescape hgraphics (by decide) (hR.char _ (by decide))
  | document | paragraph | htmlBlock | htmlInline => exact tells_nil
  | blockQuote | list | item | codeBlock | customBlock | customInline | thematicBreak =>
    rw [hcontent] at hkind
    cases hkind

theorem Passes.tells_exit (hR : R.Passes) (h : isRecorded s.kind = false) :
    R.Tells f (exit s) [] := by
  have hkind : isRecorded s.content.kind = false := h
  unfold exit
  cases hcontent : s.content with
  | heading => exact hR.tells_closing.block
  | paragraph => exact tells_blankLine
  | strong | emphasis => exact hR.tells_closing
  | link =>
    dsimp only
    split
    · exact tells_nil
    · exact hR.tells_closing
  | blockQuote | list | item | codeBlock | customBlock | customInline | thematicBreak =>
    rw [hcontent] at hkind
    cases hkind
  | _ => exact tells_nil

/-! ## Trees -/

/-- The visitor writes, for each node of which `P` holds, what the reader finds in what the
node sets. -/
structure Matches (R : Recorder κ) (f : Format) (o : Options) (width : Nat) (P : Node → Prop)
    (v : Visitor κ) : Prop where
  enter : ∀ s : Site, P s.node → R.Tells f (Latex.enter o width s) (v.enter s)
  exit : ∀ s : Site, P s.node → R.Tells f (Latex.exit s) (v.exit s)
  descends : ∀ s, v.descends s = (visitor o width).descends s

variable {P : Node → Prop} {v : Visitor κ}

namespace Matches

theorem visit (hv : R.Matches f o width P v) {g : Forest} (h : ∀ n ∈ g.nodes, P n)
    (ancestors before : List Node) (depth : Nat) :
    R.Tells f (g.visit (visitor o width) ancestors before depth) (g.visit v ancestors before depth) := by
  induction g generalizing ancestors before depth with
  | nil => exact tells_nil
  | cons n cs rest ihc ihr =>
    rw [Forest.nodes, List.forall_mem_cons, List.forall_mem_append] at h
    obtain ⟨hn, hcs, hrest⟩ := h
    let t : Site := { node := n, children := cs, ancestors, before, after := rest, depth }
    have hbelow : R.Tells f
        (if (visitor o width).descends t then cs.visit (visitor o width) (n :: ancestors) [] (depth + 1) else [])
        (if v.descends t then cs.visit v (n :: ancestors) [] (depth + 1) else []) := by
      rw [hv.descends]
      split
      · exact ihc hcs _ _ _
      · exact tells_nil
    unfold Forest.visit
    exact (((hv.enter t hn).append hbelow).append (hv.exit t hn)).append (ihr hrest _ _ _)

theorem site (hv : R.Matches f o width P v) (h : ∀ n ∈ s.tree.alone.nodes, P n) :
    R.Tells f (s.visit (visitor o width)) (s.visit v) := by
  have hnodes : P s.node ∧ ∀ n ∈ s.children.nodes, P n := by
    simpa [Site.tree, Tree.alone, Forest.nodes] using h
  have hbelow : R.Tells f
      (if (visitor o width).descends s then
        s.children.visit (visitor o width) (s.node :: s.ancestors) [] (s.depth + 1) else [])
      (if v.descends s then s.children.visit v (s.node :: s.ancestors) [] (s.depth + 1) else []) := by
    rw [hv.descends]
    split
    · exact hv.visit hnodes.2 _ _ _
    · exact tells_nil
  unfold Site.visit
  exact ((hv.enter s hnodes.1).append hbelow).append (hv.exit s hnodes.1)

/-- In the page of a node the reader finds what the visitor writes. -/
theorem render (hR : R.Passes)
    (hv : R.Matches ⟨effectiveWidth o width, Latex.escapeChar⟩ o (effectiveWidth o width) P v)
    (h : ∀ n ∈ s.tree.alone.nodes, P n) :
    (Latex.render o width s).foldl R.step (R.text []) = R.text (s.visit v).reverse := by
  have hread := (hv.site h []).render (hR.calm _)
  rw [foldlM_read, Option.some.injEq, List.append_nil] at hread
  exact hread

end Matches

end Recorder

end Latex

end MarkupTree
