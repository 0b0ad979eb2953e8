-- The LaTeX of a paragraph or a heading. Each node closes the groups that it opens, so
-- the groups of the page are balanced, and what LaTeX reserves is written escaped.
import MarkupTree.Output
import MarkupTree.Proofs.Document.Sessions
import MarkupTree.Proofs.Forest.Visits
import MarkupTree.Proofs.Latex.Tokens

namespace MarkupTree

/-! ## What stands in a paragraph -/

/-- Kinds that hold inline nodes and no other. -/
def Kind.holdsInlines (k : Kind) : Bool := k == .paragraph || k == .heading || k.isInline

theorem Kind.isInline_of_canContain {k j : Kind} (hk : k.holdsInlines = true)
    (h : k.canContain j = true) : j.isInline = true := by
  unfold canContain at h
  split at h
  · cases h
  · cases k with
    | paragraph | heading | emphasis | strong | link | image | customInline => exact h
    | text | softBreak | lineBreak | code | htmlInline => cases h
    | document | blockQuote | list | item | codeBlock | htmlBlock | customBlock | thematicBreak => cases hk

/-- Where nodes hold what fits into them, all that is below inline nodes is inline. -/
theorem Forest.isInline_of_roots {f : Forest}
    (hfits : ∀ r ∈ f.rows, ∀ c ∈ r.children, r.node.kind.canContain c.kind = true)
    (hroots : ∀ n ∈ f.roots, n.kind.isInline = true) : ∀ n ∈ f.nodes, n.kind.isInline = true := by
  induction f with
  | nil => nofun
  | cons n cs rest ihc ihr =>
    obtain ⟨hn, hrest⟩ := List.forall_mem_cons.mp hroots
    rw [rows_cons] at hfits
    have hholds : n.kind.holdsInlines = true := by
      rw [Kind.holdsInlines, hn, Bool.or_true]
    have hchildren : ∀ c ∈ cs.roots, c.kind.isInline = true := fun c hc =>
      Kind.isInline_of_canContain hholds (hfits _ List.mem_cons_self c hc)
    rw [nodes, List.forall_mem_cons, List.forall_mem_append]
    exact ⟨hn, ihc (fun r hr => hfits r (List.mem_cons_of_mem _ (List.mem_append_left _ hr))) hchildren,
      ihr (fun r hr => hfits r (List.mem_cons_of_mem _ (List.mem_append_right _ hr))) hrest⟩

/-- Below a paragraph or a heading of a document there are inline nodes only. -/
theorem Document.Sound.isInline_below {d : Document} (h : d.Sound) {id : NodeId} {s : Site}
    (hs : d.site? id = some s) (hkind : s.kind.holdsInlines = true) :
    ∀ n ∈ s.children.nodes, n.kind.isInline = true := by
  have hfits : ∀ r ∈ s.tree.alone.rows, ∀ c ∈ r.children, r.node.kind.canContain c.kind = true :=
    fun r hr => h.fits r (Forest.rows_subset (mem_subtrees_of_site? hs) hr)
  rw [Forest.rows_alone] at hfits
  obtain ⟨hrow, hbelow⟩ := List.forall_mem_cons.mp hfits
  exact Forest.isInline_of_roots hbelow fun n hn => Kind.isInline_of_canContain hkind (hrow n hn)

namespace Latex

open Layout

variable {addresses : Bool} {o : Options} {width d e k : Nat} {is js : List Instruction} {s : Site}

/-! ## Instructions and groups -/

/-- On a page with `d` open groups the instructions leave `e` open, and no reserved
character on its own. -/
def Shifts (addresses : Bool) (width d : Nat) (is : List Instruction) (e : Nat) : Prop :=
  Leads (step (reserved addresses)) ⟨width, escapeChar⟩ ⟨d, false⟩ is ⟨e, false⟩

/-- The instructions close the groups that they open, and no other. -/
def Balanced (addresses : Bool) (width : Nat) (is : List Instruction) : Prop :=
  ∀ d, Shifts addresses width d is d

theorem calm_reserved (addresses : Bool) (d : Nat) :
    Calm (step (reserved addresses)) ⟨d, false⟩ := by
  cases addresses <;> exact calm (by decide) (by decide)

theorem Shifts.append (hi : Shifts addresses width d is e) (hj : Shifts addresses width e js k) :
    Shifts addresses width d (is ++ js) k := Leads.append hi hj

theorem shifts_literal {t : Text}
    (h : t.foldlM (step (reserved addresses)) ⟨d, false⟩ = some ⟨e, false⟩) :
    Shifts addresses width d [lit t] e := Leads.literal (calm_reserved addresses d) h

theorem shifts_opening {name : Text} (h : Even addresses ('\\' :: name)) :
    Shifts addresses width d [opening name] (d + 1) :=
  shifts_literal (foldlM_append (h d) (by rw [List.foldlM_cons, step_open]; rfl))

theorem shifts_closing : Shifts addresses width (d + 1) [closing] d :=
  shifts_literal (by rw [List.foldlM_cons, step_close]; rfl)

/-- One group is closed and another is opened. -/
theorem shifts_between {name : Text} (h : Even addresses name) :
    Shifts addresses width (d + 1) [lit ('\x7d' :: name ++ ['\x7b'])] (d + 1) := by
  refine shifts_literal ?_
  rw [List.cons_append, List.foldlM_cons, step_close]
  exact foldlM_append (h d) (by rw [List.foldlM_cons, step_open]; rfl)

theorem balanced_nil : Balanced addresses width [] := fun _ => Leads.nil

theorem Balanced.append (hi : Balanced addresses width is) (hj : Balanced addresses width js) :
    Balanced addresses width (is ++ js) := fun d => Shifts.append (hi d) (hj d)

theorem balanced_literal {t : Text} (h : Even addresses t) : Balanced addresses width [lit t] :=
  fun d => shifts_literal (h d)

theorem balanced_text (t : Text) (wrap : Bool) : Balanced addresses width [.put t wrap .normal] :=
  fun d => Leads.text (calm_reserved addresses d) nofun fun c _ last next begins =>
    even_escapeChar (Or.inl rfl) last c next begins d

/-- An address may hold a dollar sign or an underscore as it is. -/
theorem balanced_addressOf (url : Text) : Balanced true width [addressOf url] :=
  fun d => Leads.text (calm_reserved true d) nofun fun c _ last next begins =>
    even_escapeChar (Or.inr rfl) last c next begins d

theorem balanced_lineBreak : Balanced addresses width [.lineBreak] := fun _ => Leads.lineBreak

theorem balanced_blankLine : Balanced addresses width [.blankLine] := fun _ => Leads.blankLine

/-- A group is opened in front of the instructions and closed behind them. -/
theorem Balanced.group {opens : List Instruction}
    (hopens : ∀ d, Shifts addresses width d opens (d + 1)) (h : Balanced addresses width is) :
    Balanced addresses width (opens ++ is ++ [closing]) :=
  fun d => ((hopens d).append (h (d + 1))).append shifts_closing

/-! ## Nodes -/

theorem balanced_softBreak (o : Options) (width w : Nat) :
    Balanced addresses width (softBreak o w) := by
  unfold softBreak
  split
  · exact (balanced_literal (even_control addresses '\\')).append balanced_lineBreak
  · split
    · exact balanced_lineBreak
    · exact balanced_text [' '] _

/-- The address of a link stands in a group of its own, and the text in the next. -/
theorem shifts_enterLink (h : linkKind s ≠ .url) : Shifts true width d (enterLink s) (d + 1) := by
  have haddressed : ∀ name between url : Text, Even true ('\\' :: name) → Even true between →
      Shifts true width d [opening name, addressOf url, lit ('\x7d' :: between ++ ['\x7b'])] (d + 1) :=
    fun _ _ url hname hbetween => (shifts_opening hname).append
      ((balanced_addressOf url (d + 1)).append (shifts_between hbetween))
  unfold enterLink
  cases hkind : linkKind s with
  | url => exact absurd hkind h
  | email => exact haddressed "href".toList "\\nolinkurl".toList _ (fun _ => rfl) fun _ => rfl
  | anchor => exact haddressed "protect\\hyperlink".toList [] _ (fun _ => rfl) (even_nil true)
  | other => exact haddressed "href".toList [] _ (fun _ => rfl) (even_nil true)
  | empty => exact shifts_literal rfl

/-- Where the text of a link is its address, the link closes its only group at once. -/
theorem balanced_enterLink (h : linkKind s = .url) : Balanced true width (enterLink s) := by
  unfold enterLink
  rw [h]
  exact (balanced_addressOf s.content.url).group fun _ => shifts_opening fun _ => rfl

theorem even_sectionCommand (addresses : Bool) (level : Nat) :
    Even addresses ('\\' :: sectionCommand level) := by
  unfold sectionCommand
  split <;> exact (even_control addresses _).append (even_letters rfl)

/-- An inline node whose LaTeX no user has written by hand. It is no link and no image
unless addresses are allowed. -/
structure Tame (addresses : Bool) (n : Node) : Prop where
  isInline : n.kind.isInline = true
  not_custom : n.kind ≠ .customInline
  addressless : addresses = false → n.kind ≠ .link ∧ n.kind ≠ .image

theorem Tame.addresses_eq {n : Node} (h : Tame addresses n) (hn : n.kind = .link ∨ n.kind = .image) :
    addresses = true := by
  cases addresses
  · obtain ⟨hlink, himage⟩ := h.addressless rfl
    exact absurd hn (not_or_intro hlink himage)
  · rfl

/-- An inline node closes on leaving what it opens on entering. -/
theorem balanced_node (h : Tame addresses s.node) (his : Balanced addresses width is) :
    Balanced addresses width (enter o width s ++ is ++ exit s) := by
  have hname : ∀ {c : Char} {name : Text}, name.all (·.isAlphanum) = true →
      ∀ d, Shifts addresses width d [opening (c :: name)] (d + 1) :=
    fun hletters _ => shifts_opening ((even_control addresses _).append (even_letters hletters))
  have hkind : s.content.kind = s.node.kind := rfl
  have hinline := h.isInline
  unfold enter exit
  cases hc : s.content with
  | document | blockQuote | list | item | codeBlock | htmlBlock | customBlock | paragraph | heading
  | thematicBreak =>
    rw [← hkind, hc] at hinline
    cases hinline
  | customInline => exact absurd (hkind.symm.trans (congrArg Content.kind hc)) h.not_custom
  | text t => exact ((balanced_text t _).append his).append balanced_nil
  | softBreak => exact ((balanced_softBreak o width width).append his).append balanced_nil
  | lineBreak =>
    have hbreak : Balanced addresses width [lit "\\\\".toList, .lineBreak] :=
      (balanced_literal (even_control addresses '\\')).append balanced_lineBreak
    exact (hbreak.append his).append balanced_nil
  | code t => exact (((balanced_text t false).group (hname rfl)).append his).append balanced_nil
  | htmlInline => exact his.append balanced_nil
  | emphasis => exact his.group (hname rfl)
  | strong => exact his.group (hname rfl)
  | link =>
    cases h.addresses_eq (Or.inl (hkind.symm.trans (congrArg Content.kind hc)))
    by_cases hlink : linkKind s = .url
    · rw [if_pos hlink]
      exact ((balanced_enterLink hlink).append his).append balanced_nil
    · rw [if_neg hlink]
      exact his.group fun _ => shifts_enterLink hlink
  | image url =>
    cases h.addresses_eq (Or.inr (hkind.symm.trans (congrArg Content.kind hc)))
    have hopening : ∀ d, Shifts true width d [opening "protect\\includegraphics".toList] (d + 1) :=
      fun _ => shifts_opening fun _ => rfl
    exact (((balanced_addressOf url).group hopening).append his).append balanced_nil

theorem balanced_visit {f : Forest} (h : ∀ n ∈ f.nodes, Tame addresses n)
    (ancestors before : List Node) (depth : Nat) :
    Balanced addresses width (f.visit (visitor o width) ancestors before depth) :=
  Forest.visit_induction_of_mem balanced_nil (fun _ _ => Balanced.append)
    fun _ hs _ hinner => balanced_node (h _ hs) hinner

/-- A paragraph or a heading with tame nodes below it is balanced. -/
theorem balanced_block (hkind : s.kind = .paragraph ∨ s.kind = .heading)
    (h : ∀ n ∈ s.children.nodes, Tame addresses n) :
    Balanced addresses width (s.visit (visitor o width)) := by
  have hinner : Balanced addresses width (s.children.visit (visitor o width) (s.node :: s.ancestors) []
      (s.depth + 1)) := balanced_visit h _ _ _
  have hdescends : (visitor o width).descends s = true := by
    rcases hkind with hkind | hkind <;> simp [visitor, hkind]
  rw [Site.visit, if_pos hdescends]
  show Balanced addresses width (enter o width s ++ _ ++ exit s)
  unfold enter exit
  cases hc : s.content with
  | paragraph => exact hinner.append balanced_blankLine
  | heading level =>
    rw [show [closing, Instruction.blankLine] = [closing] ++ [.blankLine] from rfl, ← List.append_assoc]
    exact (hinner.group fun _ => shifts_opening (even_sectionCommand addresses level)).append
      balanced_blankLine
  | document | blockQuote | list | item | codeBlock | htmlBlock | customBlock | thematicBreak | text
  | softBreak | lineBreak | code | htmlInline | customInline | emphasis | strong | link | image =>
    have hcontent : s.kind = s.content.kind := rfl
    rw [hcontent, hc] at hkind
    rcases hkind with hkind | hkind <;> cases hkind

end Latex

namespace Document

open Latex

/-- In every session, the LaTeX of a paragraph or a heading has balanced braces, unless
a custom node stands in it. What LaTeX reserves is always escaped, apart from what the
address of a link or an image may hold. -/
theorem Session.latex_is_balanced (x : Session) {id : NodeId} {s : Site}
    (hs : x.document.site? id = some s) (hkind : s.kind = .paragraph ∨ s.kind = .heading)
    (hcustom : ∀ n ∈ s.children.nodes, n.kind ≠ .customInline) (o : Options) (width : Nat) :
    ∃ page, x.document.render? id .latex o width = some page ∧
      depth? 0 (tokens page) = some 0 ∧
      (∀ c ∈ ['#', '%', '&'], .plain c ∉ tokens page) ∧
      ((∀ n ∈ s.children.nodes, n.kind ≠ .link ∧ n.kind ≠ .image) →
        ∀ c ∈ ['$', '_', '^'], .plain c ∉ tokens page) := by
  have hinline : ∀ n ∈ s.children.nodes, n.kind.isInline = true :=
    x.sound.isInline_below hs (by rcases hkind with h | h <;> rw [h] <;> rfl)
  have hread : ∀ addresses, (∀ n ∈ s.children.nodes, Tame addresses n) →
      depth? 0 (tokens (Latex.render o width s)) = some 0 ∧
        ∀ c ∈ reserved addresses, .plain c ∉ tokens (Latex.render o width s) := by
    intro addresses htame
    exact tokens_of_read
      (Layout.Leads.render (balanced_block hkind htame 0) (calm_reserved addresses 0))
  obtain ⟨hdepth, hmarks⟩ := hread true fun n hn => ⟨hinline n hn, hcustom n hn, nofun⟩
  refine ⟨Latex.render o width s, by rw [render?, hs]; rfl, hdepth, hmarks, fun hplain c hc => ?_⟩
  have htame : ∀ n ∈ s.children.nodes, Tame false n :=
    fun n hn => ⟨hinline n hn, hcustom n hn, fun _ => hplain n hn⟩
  exact (hread false htame).2 c (List.mem_append_right ['#', '%', '&'] hc)

/-- Reserved characters in emphasis and in the address of a link. -/
theorem latex_is_balanced_link :
    let x : Session := ⟨.new, [.create .heading, .appendChild 0 1, .create .emphasis,
      .appendChild 1 2, .create .text, .set 3 (.literal (some "50% \x7b#^\\".toList)),
      .appendChild 2 3, .create .link, .set 4 (.url (some "a_b#\x7d".toList)), .appendChild 1 4,
      .create .text, .set 5 (.literal (some "$x_1$".toList)), .appendChild 4 5]⟩
    ∃ s, (x.document.site? 1 = some s ∧ (s.kind = .paragraph ∨ s.kind = .heading) ∧
        ∀ n ∈ s.children.nodes, n.kind ≠ .customInline) ∧
      ∃ page, x.document.render? 1 .latex {} 20 = some page ∧
        depth? 0 (tokens page) = some 0 ∧
        (∀ c ∈ ['#', '%', '&'], .plain c ∉ tokens page) ∧
        ((∀ n ∈ s.children.nodes, n.kind ≠ .link ∧ n.kind ≠ .image) →
          ∀ c ∈ ['$', '_', '^'], .plain c ∉ tokens page) := by
  intro x
  have hsite : (x.document.site? 1).map (fun s => (s.kind, s.children.nodes.map Node.kind)) =
      some (.heading, [.emphasis, .text, .link, .text]) := by decide +kernel
  obtain ⟨s, hs, heq⟩ := Option.map_eq_some_iff.mp hsite
  obtain ⟨hheading, hkinds⟩ := Prod.mk.inj heq
  have hcustom : ∀ n ∈ s.children.nodes, n.kind ≠ .customInline := by
    intro n hn hkind
    have hmem := List.mem_map_of_mem (f := Node.kind) hn
    rw [hkinds, hkind] at hmem
    exact absurd hmem (by decide)
  exact ⟨s, ⟨hs, Or.inr hheading, hcustom⟩, x.latex_is_balanced hs (Or.inr hheading) hcustom {} 20⟩

end Document

end MarkupTree
