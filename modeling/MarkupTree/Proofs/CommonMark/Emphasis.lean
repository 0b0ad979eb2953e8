-- Emphasis in emphasis. An emphasis that is all that its parent emphasis holds takes the
-- underscore, whatever the mark of its parent is. So the marks alternate for two of them in a
-- row, where the first has the star, and for no more than two.
import Mathlib.Data.List.Chain
import MarkupTree.Output
import MarkupTree.Proofs.CommonMark.Margins
import MarkupTree.Proofs.Document.Sessions
import MarkupTree.Proofs.Layout.Ends

namespace MarkupTree

/-- An only child has its parent above it, and nothing beside it. -/
theorem Site.of_below_eq_singleton {s c : Site} (h : s.below = [c]) :
    c.ancestors = s.node :: s.ancestors ∧ c.before = [] ∧ c.after = .nil := by
  unfold Site.below at h
  cases hchildren : s.children with
  | nil =>
    rw [hchildren] at h
    cases h
  | cons n cs rest =>
    rw [hchildren, Forest.sites] at h
    obtain ⟨rfl, hrest⟩ := List.cons.inj h
    refine ⟨rfl, rfl, ?_⟩
    cases rest with
    | nil => rfl
    | cons m ds rest => cases hrest

namespace CommonMark

open Layout

variable {o : Options} {width : Nat} {f : Format} {p : Page} {s c : Site} {chain us : List Site} {t : Text}
  {base : List Char}

/-! ## Chains of emphasis -/

/-- Each is an emphasis, and all that the one before it holds. -/
structure IsNest (us : List Site) : Prop where
  emphasis : ∀ u ∈ us, u.content = .emphasis
  only : us.IsChain fun u v => u.below = [v]

theorem IsNest.tail (h : IsNest (s :: us)) : IsNest us where
  emphasis := (List.forall_mem_cons.mp h.emphasis).2
  only := h.only.tail

/-- The node is all that an emphasis holds. -/
def IsAllOfEmphasis (s : Site) : Prop := s.isIn .emphasis = true ∧ s.before = [] ∧ s.after = .nil

instance : DecidablePred IsAllOfEmphasis := fun _ => inferInstanceAs (Decidable (_ ∧ _ ∧ _))

theorem emphasisMark_cases (s : Site) :
    IsAllOfEmphasis s ∧ emphasisMark s = ['_'] ∨ ¬IsAllOfEmphasis s ∧ emphasisMark s = ['*'] := by
  have hall : (s.isIn .emphasis && s.before.isEmpty && s.after.isEmpty) = true ↔ IsAllOfEmphasis s := by
    have hafter : s.after.isEmpty = true ↔ s.after = .nil := by
      cases s.after <;> simp [Forest.isEmpty]
    simp [IsAllOfEmphasis, hafter, and_assoc]
  unfold emphasisMark
  split
  · exact Or.inl ⟨hall.mp ‹_›, rfl⟩
  · exact Or.inr ⟨mt hall.mpr ‹_›, rfl⟩

/-- The first of a chain has its own mark, and all the others have the underscore. -/
theorem IsNest.map_emphasisMark (h : IsNest (s :: chain)) :
    (s :: chain).map emphasisMark = emphasisMark s :: List.replicate chain.length ['_'] := by
  induction chain generalizing s with
  | nil => rfl
  | cons c chain ih =>
    obtain ⟨hbelow, -⟩ := List.isChain_cons_cons.mp h.only
    obtain ⟨hancestors, hbefore, hafter⟩ := Site.of_below_eq_singleton hbelow
    have hkind : s.node.kind = .emphasis := congrArg Content.kind (h.emphasis s List.mem_cons_self)
    have hall : IsAllOfEmphasis c := ⟨by simp [Site.isIn, hancestors, hkind], hbefore, hafter⟩
    have hmark : emphasisMark c = ['_'] := ((emphasisMark_cases c).resolve_right fun hnot => hnot.1 hall).2
    rw [List.map_cons, ih h.tail, hmark]
    rfl

/-- A row of underscores behind a mark alternates only if it has one of them at most. -/
theorem isChain_cons_replicate_iff {m : Char} {n : Nat} :
    (m :: List.replicate n '_').IsChain (· ≠ ·) ↔ n = 0 ∨ n = 1 ∧ m ≠ '_' := by
  match n with
  | 0 => simp
  | 1 => simp
  | n + 2 => simp [List.replicate_succ]

/-! ## The page of a chain -/

/-- What an emphasis writes on entering and on leaving. -/
def strokeOf (s : Site) : List Instruction := [tightness s, lit (emphasisMark s)]

theorem visit_of_emphasis (h : s.content = .emphasis) :
    s.visit (visitor o width) = strokeOf s ++ s.below.flatMap (Site.visit (visitor o width)) ++ strokeOf s := by
  have hkind : s.kind = .emphasis := congrArg Content.kind h
  rw [Site.visit_eq]
  simp [visitor, enter, exit, enterContent, exitContent, strokeOf, h, hkind]

/-- The marks of a chain stand around what the last one of it holds. -/
theorem IsNest.visit_eq (h : IsNest (s :: chain)) (o : Options) (width : Nat) :
    ∃ inner, Framed inner ∧ s.visit (visitor o width) =
      (s :: chain).flatMap strokeOf ++ inner ++ (s :: chain).reverse.flatMap strokeOf := by
  induction chain generalizing s with
  | nil =>
    have hbelow : Framed (s.below.flatMap (Site.visit (visitor o width))) := framed_sites s.below
    refine ⟨_, hbelow, ?_⟩
    rw [visit_of_emphasis (h.emphasis s List.mem_cons_self)]
    simp
  | cons c chain ih =>
    obtain ⟨hbelow, -⟩ := List.isChain_cons_cons.mp h.only
    obtain ⟨inner, hinner, hvisit⟩ := ih h.tail
    refine ⟨inner, hinner, ?_⟩
    rw [visit_of_emphasis (h.emphasis s List.mem_cons_self), hbelow]
    simp [hvisit]

theorem newline_notMem_emphasisMark (s : Site) : '\n' ∉ emphasisMark s := by
  rcases emphasisMark_cases s with ⟨-, hmark⟩ | ⟨-, hmark⟩ <;> rw [hmark] <;> decide

theorem holds_strokes (h : Page.Holds t p) (us : List Site) :
    Page.Holds (t ++ us.flatMap emphasisMark) (p.run f (us.flatMap strokeOf)) := by
  induction us generalizing p t with
  | nil =>
    rw [List.flatMap_nil, List.append_nil]
    exact h
  | cons u us ih =>
    have htight : Page.Holds t (p.follow f (tightness u)) := ⟨⟨h.flat.margin, h.flat.tail⟩, h.owed, h.text⟩
    rw [List.flatMap_cons, List.flatMap_cons, ← List.append_assoc]
    exact ih (htight.lit _)

theorem closes_append_strokes {u : Text} (h : Page.Closes base u p) (us : List Site) :
    Page.Closes base (u ++ us.flatMap emphasisMark) (p.run f (us.flatMap strokeOf)) := by
  induction us generalizing p u with
  | nil =>
    rw [List.flatMap_nil, List.append_nil]
    exact h
  | cons v us ih =>
    have htight : Page.Closes base u (p.follow f (tightness v)) := ⟨h.margin, h.owed, h.ends⟩
    rw [List.flatMap_cons, List.flatMap_cons, ← List.append_assoc]
    exact ih (htight.lit (newline_notMem_emphasisMark v))

theorem closes_strokes (hmargin : p.margin = []) (hbase : base <:+ p.past) (hne : us ≠ []) :
    Page.Closes base (us.flatMap emphasisMark) (p.run f (us.flatMap strokeOf)) := by
  obtain ⟨v, us, rfl⟩ := List.exists_cons_of_ne_nil hne
  have hfirst : Page.Closes base (emphasisMark v) ((p.follow f (tightness v)).follow f (lit (emphasisMark v))) :=
    Page.closes_lit hmargin hbase (newline_notMem_emphasisMark v)
  rw [List.flatMap_cons, List.flatMap_cons]
  exact closes_append_strokes hfirst us

theorem IsNest.exists_marks (h : IsNest (s :: chain)) :
    ∃ marks : Text, marks.map (fun c => [c]) = (s :: chain).map emphasisMark ∧
      (marks.IsChain (· ≠ ·) ↔ chain = [] ∨ chain.length = 1 ∧ ¬IsAllOfEmphasis s) := by
  obtain ⟨m, hm, hstar⟩ : ∃ m, emphasisMark s = [m] ∧ (m ≠ '_' ↔ ¬IsAllOfEmphasis s) := by
    rcases emphasisMark_cases s with ⟨hall, hmark⟩ | ⟨hall, hmark⟩
    · exact ⟨'_', hmark, iff_of_false (not_not.mpr rfl) (not_not.mpr hall)⟩
    · exact ⟨'*', hmark, iff_of_true (by decide) hall⟩
  refine ⟨m :: List.replicate chain.length '_', ?_, ?_⟩
  · rw [h.map_emphasisMark, hm, List.map_cons, List.map_replicate]
  · rw [isChain_cons_replicate_iff, hstar, List.length_eq_zero_iff]

/-- The page of a chain begins with its marks and ends with them. -/
theorem IsNest.render_eq (h : IsNest (s :: chain)) {marks : Text}
    (hmarks : marks.map (fun c => [c]) = (s :: chain).map emphasisMark) (o : Options) (width : Nat) :
    ∃ inside, render o width s = marks ++ inside ++ marks.reverse ++ ['\n'] := by
  have hopen : (s :: chain).flatMap emphasisMark = marks := by
    rw [List.flatMap_def, ← hmarks, ← List.flatMap_def, List.flatMap_singleton']
  have hclose : (s :: chain).reverse.flatMap emphasisMark = marks.reverse := by
    rw [List.flatMap_def, List.map_reverse, ← hmarks, ← List.map_reverse, ← List.flatMap_def, List.flatMap_singleton']
  have hlast : ∃ m, marks.reverse.getLast? = some m ∧ m ≠ '\n' := by
    rcases marks with _ | ⟨m, marks⟩
    · cases hmarks
    · have hm : [m] = emphasisMark s := (List.cons.inj hmarks).1
      refine ⟨m, by simp, ?_⟩
      rintro rfl
      exact newline_notMem_emphasisMark s (hm ▸ List.mem_cons_self)
  obtain ⟨m, hlast, hm⟩ := hlast
  obtain ⟨inner, hinner, hvisit⟩ := h.visit_eq o (effectiveWidth o width)
  have hholds := holds_strokes (f := format o width) (p := {}) (t := []) ⟨⟨rfl, rfl⟩, rfl, rfl⟩ (s :: chain)
  rw [List.nil_append, hopen] at hholds
  obtain ⟨hmargin, hbase⟩ := hholds.run (f := format o width) hinner
  have hne : (s :: chain).reverse ≠ [] := by simp
  have hcloses := closes_strokes (f := format o width) hmargin hbase hne
  rw [hclose, ← Page.run_append, ← Page.run_append, ← List.append_assoc, ← hvisit] at hcloses
  obtain ⟨inside, hfinish⟩ := hcloses.finish hlast hm
  rw [List.reverse_reverse] at hfinish
  exact ⟨inside, hfinish⟩

end CommonMark

namespace Document

open CommonMark

/-- In every session, a chain of emphases, each of which is all that the one before it holds, has its marks at
both ends of its page, and in the same way in the page of any node above it. Neighbours among the marks differ
if and only if the chain is one emphasis, or two of which the first is not all that an emphasis holds. -/
theorem Session.emphasis_marks_alternate (x : Session) {id : NodeId} {s : Site} (hs : x.document.site? id = some s)
    {chain : List Site} (hnest : IsNest (s :: chain)) (o : Options) (width : Nat) :
    ∃ page marks inside, x.document.render? id .commonMark o width = some page ∧
      page = marks ++ inside ++ marks.reverse ++ ['\n'] ∧
        marks.map (fun c => [c]) = (s :: chain).map emphasisMark ∧
          (marks.IsChain (· ≠ ·) ↔ chain = [] ∨ chain.length = 1 ∧ ¬IsAllOfEmphasis s) ∧
            ∀ r sites written, r.Enters (visitor o (effectiveWidth o width)) sites written s →
              ∃ inner rest, instructions o width r = written ++ ((s :: chain).flatMap strokeOf ++ inner ++
                (s :: chain).reverse.flatMap strokeOf) ++ rest := by
  obtain ⟨marks, hmarks, hchain⟩ := hnest.exists_marks
  obtain ⟨inside, hpage⟩ := hnest.render_eq hmarks o width
  refine ⟨render o width s, marks, inside, by rw [render?, hs]; rfl, hpage, hmarks, hchain, ?_⟩
  intro r sites written henters
  obtain ⟨inner, -, hvisit⟩ := hnest.visit_eq o (effectiveWidth o width)
  obtain ⟨rest, hinstructions⟩ := henters.visit_eq
  rw [hvisit] at hinstructions
  exact ⟨inner, rest, hinstructions⟩

/-- An emphasis in an emphasis. -/
theorem emphasis_marks_alternate_two :
    let x : Session := ⟨.new, [.create .paragraph, .appendChild 0 1, .create .emphasis, .appendChild 1 2,
      .create .emphasis, .appendChild 2 3, .create .text, .appendChild 3 4, .set 4 (.literal (some ['x']))]⟩
    ∃ s chain, (x.document.site? 2 = some s ∧ IsNest (s :: chain)) ∧
      ∃ page marks inside, x.document.render? 2 .commonMark {} 80 = some page ∧
        page = marks ++ inside ++ marks.reverse ++ ['\n'] ∧
          marks.map (fun c => [c]) = (s :: chain).map emphasisMark ∧
            (marks.IsChain (· ≠ ·) ↔ chain = [] ∨ chain.length = 1 ∧ ¬IsAllOfEmphasis s) ∧
              ∀ r sites written, r.Enters (visitor {} (effectiveWidth {} 80)) sites written s →
                ∃ inner rest, instructions {} 80 r = written ++ ((s :: chain).flatMap strokeOf ++ inner ++
                  (s :: chain).reverse.flatMap strokeOf) ++ rest := by
  intro x
  have hnodes : (x.document.site? 2).map (fun s => (s.content, s.below.map Site.content)) =
      some (.emphasis, [.emphasis]) := by decide +kernel
  obtain ⟨s, hs, heq⟩ := Option.map_eq_some_iff.mp hnodes
  obtain ⟨hcontent, hbelow⟩ := Prod.mk.inj heq
  obtain ⟨c, hc, hchild⟩ := List.map_eq_singleton_iff.mp hbelow
  have hnest : IsNest [s, c] := ⟨by simp [hcontent, hchild], by simp [hc]⟩
  exact ⟨s, [c], ⟨hs, hnest⟩, x.emphasis_marks_alternate hs hnest {} 80⟩

/-- Of three emphases, the second and the third have the same mark. -/
theorem inner_marks_are_strong :
    let x : Session := ⟨.new, [.create .paragraph, .appendChild 0 1, .create .emphasis, .appendChild 1 2,
      .create .emphasis, .appendChild 2 3, .create .emphasis, .appendChild 3 4, .create .text, .appendChild 4 5,
      .set 5 (.literal (some ['x']))]⟩
    ∃ s t u, (x.document.site? 2 = some s ∧ IsNest [s, t, u]) ∧ emphasisMark u = emphasisMark t ∧
      x.document.render? 2 .commonMark {} 80 = some "*__x__*\n".toList := by
  intro x
  let text : Forest := .cons { id := 5, content := .text ['x'] } .nil .nil
  let inner : Forest := .cons { id := 4, content := .emphasis } text .nil
  let root : Node := { id := 0, content := .document, start := ⟨1, 1⟩, stop := ⟨1, 1⟩ }
  let s : Site := { node := { id := 2, content := .emphasis },
                    children := .cons { id := 3, content := .emphasis } inner .nil,
                    ancestors := [{ id := 1, content := .paragraph }, root] }
  let t : Site := { node := { id := 3, content := .emphasis }, children := inner,
                    ancestors := s.node :: s.ancestors, depth := 1 }
  let u : Site := { node := { id := 4, content := .emphasis }, children := text,
                    ancestors := t.node :: t.ancestors, depth := 2 }
  have hs : x.document.site? 2 = some s := by decide +kernel
  have hnest : IsNest [s, t, u] := ⟨by simp [s, t, u, Site.content], .cons_cons rfl (.cons_cons rfl (.singleton u))⟩
  exact ⟨s, t, u, ⟨hs, hnest⟩, rfl, by decide +kernel⟩

end Document

end MarkupTree
