-- Paragraphs that hold nothing but texts and soft breaks. Each of these sets one
-- chunk, so what holds of the page chunk by chunk holds of the whole paragraph.
import MarkupTree.Proofs.CommonMark.Margins
import MarkupTree.Proofs.Document.Sessions
import MarkupTree.Proofs.Document.Views

namespace MarkupTree

namespace CommonMark

open Layout

variable {o : Options} {width : Nat} {f : Format}

/-- The content is a text or a soft break. -/
def isRunning : Content → Bool
  | .text _ | .softBreak => true
  | _ => false

/-- What a text or a soft break sets, whatever stands around it. -/
def chunk (o : Options) (width : Nat) : Content → List Instruction
  | .text t => [.put t (o.wraps width) .normal]
  | .softBreak => softBreak o width
  | _ => []

theorem kind_of_running {c : Content} (h : isRunning c = true) : c.kind = .text ∨ c.kind = .softBreak := by
  cases c with
  | text t => exact Or.inl rfl
  | softBreak => exact Or.inr rfl
  | _ => cases h

/-- Texts and soft breaks have nothing below them. -/
theorem running_leaves {d : Document} (h : d.Sound) :
    d.trees.AreLeaves fun n => isRunning n.content := by
  refine h.areLeaves fun n hn k => ?_
  rcases kind_of_running hn with hkind | hkind <;>
    rw [Node.kind, hkind] <;> cases k <;> decide

theorem running_leaves_below {d : Document} (h : d.Sound) {id : NodeId} {s : Site}
    (hs : d.site? id = some s) : s.children.AreLeaves fun n => isRunning n.content := by
  intro r hr
  have hbelow : r ∈ s.tree.alone.rows := by
    rw [Forest.rows_alone]
    exact List.mem_cons_of_mem _ hr
  exact running_leaves h r (Forest.rows_subset (Document.mem_subtrees_of_site? hs) hbelow)

/-! ## One chunk after the other -/

theorem visit_running (o : Options) (width : Nat) {n : Node} {rest : Forest} (hn : isRunning n.content = true)
    (hrest : ∀ m ∈ rest.roots, isRunning m.content = true) (ancestors before : List Node) (depth : Nat) :
    ∃ on, (Forest.cons n .nil rest).visit (visitor o width) ancestors before depth =
      .tightItem on :: (chunk o width n.content ++
        .tightItem on :: rest.visit (visitor o width) ancestors (n :: before) depth) := by
  let s : Site := { node := n, children := .nil, ancestors, before, after := rest, depth }
  -- a link or an image after the text would change how an exclamation mark is set
  have hafter : (rest.first?.any fun m => m.kind == .link || m.kind == .image) = false := by
    cases rest with
    | nil => rfl
    | cons m ms others =>
      have hkind : m.kind = .text ∨ m.kind = .softBreak := kind_of_running (hrest m List.mem_cons_self)
      rcases hkind with hkind | hkind <;> simp [Forest.first?, hkind]
  have hcontent : enterContent o width s = chunk o width n.content := by
    cases hc : n.content with
    | text t => simp [enterContent, Site.content, s, hc, chunk, textRun, hafter]
    | softBreak => simp [enterContent, Site.content, s, hc, chunk]
    | _ =>
      rw [hc] at hn
      cases hn
  have henter : enter o width s = tightness s :: chunk o width n.content := by
    have hitem : ¬(s.kind = .item ∧ s.before.isEmpty = true) := by
      rintro ⟨hitem, -⟩
      rcases kind_of_running hn with hkind | hkind <;> cases hkind.symm.trans hitem
    rw [enter, if_neg hitem, hcontent]
    rfl
  have hexit : exit s = [tightness s] := by
    cases hc : n.content with
    | text t => simp [exit, exitContent, Site.content, s, hc]
    | softBreak => simp [exit, exitContent, Site.content, s, hc]
    | _ =>
      rw [hc] at hn
      cases hn
  refine ⟨inTightItem (n :: ancestors), ?_⟩
  rw [Forest.visit]
  show enter o width s ++ (if _ then [] else []) ++ exit s ++ _ = _
  rw [henter, hexit, ite_self]
  simp [tightness, s]

/-- What each chunk keeps is kept by a row of texts and soft breaks. -/
theorem run_running (o : Options) (width : Nat) {Inv : Page → List Content → Prop}
    (tight : ∀ p row on, Inv p row → Inv { p with tightItem := on } row)
    (step : ∀ p c row, isRunning c = true → Inv p (c :: row) → Inv (p.run f (chunk o width c)) row)
    {g : Forest} (hrunning : ∀ n ∈ g.roots, isRunning n.content = true)
    (hleaf : g.AreLeaves fun n => isRunning n.content) {p : Page}
    (h : Inv p (g.roots.map Node.content)) (ancestors before : List Node) (depth : Nat) :
    Inv (p.run f (g.visit (visitor o width) ancestors before depth)) [] := by
  induction g generalizing p before with
  | nil => exact h
  | cons n cs rest _ ih =>
    obtain ⟨hn, hrest⟩ := List.forall_mem_cons.mp hrunning
    obtain ⟨hcs, -, hrestLeaf⟩ := Forest.areLeaves_cons hleaf
    obtain ⟨on, hvisit⟩ := visit_running o width hn hrest ancestors before depth
    have hchunk := step _ n.content (rest.roots.map Node.content) hn (tight p _ on h)
    have hdone := ih hrest hrestLeaf (tight _ _ on hchunk) (n :: before)
    rw [hcs hn, hvisit, ← List.singleton_append, Page.run_append, Page.run_append]
    exact hdone

/-- What each chunk keeps holds of the whole page of a paragraph. -/
theorem render_running (o : Options) (width : Nat) {s : Site} (hparagraph : s.content = .paragraph)
    {Inv : Page → List Content → Prop}
    (tight : ∀ p row on, Inv p row → Inv { p with tightItem := on } row)
    (step : ∀ p c row, isRunning c = true → Inv p (c :: row) →
      Inv (p.run (format o width) (chunk o (effectiveWidth o width) c)) row)
    (hrunning : ∀ n ∈ s.children.roots, isRunning n.content = true)
    (hleaf : s.children.AreLeaves fun n => isRunning n.content)
    (h : Inv {} (s.children.roots.map Node.content)) :
    ∃ p, Inv p [] ∧ render o width s = p.finish := by
  have hinner := run_running o (effectiveWidth o width) (f := format o width) tight step
    hrunning hleaf (tight _ _ (inTightItem (s.node :: s.ancestors)) h) (s.node :: s.ancestors) []
    (s.depth + 1)
  have hkind : s.kind = .paragraph := congrArg Content.kind hparagraph
  have hvisit : s.visit (visitor o (effectiveWidth o width)) =
      [tightness s] ++ (s.children.visit (visitor o (effectiveWidth o width)) (s.node :: s.ancestors) []
        (s.depth + 1) ++ [tightness s, .blankLine]) := by
    rw [Site.visit, if_pos (by simp [visitor, hkind]), List.append_assoc]
    simp [visitor, enter, exit, enterContent, exitContent, hparagraph, hkind]
  refine ⟨_, hinner, ?_⟩
  rw [render, Layout.render, hvisit, Page.run_append, Page.run_append]
  rfl

end CommonMark

end MarkupTree
