-- Hyphens in LaTeX, where two of them side by side print a dash. The escape
-- keeps a hyphen apart from one after it in the same text. It does not see the
-- text that comes next, so two hyphens stand side by side in the page exactly
-- where one text ends with the first and another begins with the second.
import MarkupTree.Output
import MarkupTree.Proofs.Document.Normalized
import MarkupTree.Proofs.Latex.Balance
import MarkupTree.Proofs.Layout.Spelling

namespace MarkupTree

namespace Latex

open Layout

/-- What a character of a text is written as, wherever it stands. -/
def written (m : Letter) : Text := escapeChar .normal none m.1 m.2 false

/-- How the hyphens of texts, one behind the other, stand in a page. -/
structure Hyphenated (texts pieces : List Text) (page : Text) : Prop where
  spelt : List.Forall₂ (Spelt written) (texts.flatMap letters) pieces
  file : page = pieces.flatten ∨ page = pieces.flatten ++ ['\n']
  shown : ∀ i, texts.flatten[i]? = some '-' → page[place pieces i]? = some '-'
  /-- Two hyphens in a row stand side by side where a text ends between them. -/
  joined : ∀ i, texts.flatten[i]? = some '-' → texts.flatten[i + 1]? = some '-' →
    (place pieces (i + 1) = place pieces i + 1 ↔ Boundary texts (i + 1))

/-! ## One hyphen -/

theorem written_hyphen (next : Option Char) :
    written ('-', next) = if next = some '-' then "-\x7b\x7d".toList else ['-'] := by
  by_cases h : next = some '-'
  · subst h
    rfl
  · rw [if_neg h]
    simp [written, escapeChar, normalOnly, h]

theorem eq_written_of_spelt {next : Option Char} {piece : Text} (h : Spelt written ('-', next) piece) :
    piece = written ('-', next) := by
  rcases h with h | ⟨hspace, -⟩
  · exact h
  · cases hspace

variable {texts pieces : List Text} {page : Text} {i : Nat}

/-- The piece of a hyphen, by the character after it in its own text. -/
theorem piece_of_hyphen (h : List.Forall₂ (Spelt written) (texts.flatMap letters) pieces)
    (hc : texts.flatten[i]? = some '-') :
    ∃ next, pieces[i]? = some (written ('-', next)) ∧ (Boundary texts (i + 1) → next = none) ∧
      (¬ Boundary texts (i + 1) → next = texts.flatten[i + 1]?) := by
  obtain ⟨next, hletter, hnext⟩ := exists_letter hc
  obtain ⟨hlen, hspelt⟩ := List.forall₂_iff_get.mp h
  obtain ⟨hi, hm⟩ := List.getElem?_eq_some_iff.mp hletter
  have hpiece := hspelt i hi (hlen ▸ hi)
  rw [List.get_eq_getElem, hm] at hpiece
  refine ⟨next, ?_, hnext⟩
  rw [← eq_written_of_spelt hpiece]
  exact List.getElem?_eq_getElem _

theorem hyphenated_of_spelt (h : List.Forall₂ (Spelt written) (texts.flatMap letters) pieces)
    (hpage : page = pieces.flatten ∨ page = pieces.flatten ++ ['\n']) :
    Hyphenated texts pieces page := by
  refine ⟨h, hpage, fun i hi => ?_, fun i hi hnext => ?_⟩
  · obtain ⟨next, hpiece, -⟩ := piece_of_hyphen h hi
    have hstart : ∃ rest, written ('-', next) = '-' :: rest := by
      rw [written_hyphen]
      split <;> exact ⟨_, rfl⟩
    obtain ⟨rest, hrest⟩ := hstart
    rw [hrest] at hpiece
    rcases hpage with rfl | rfl
    · have hplace := getElem?_place hpiece []
      rwa [List.append_nil] at hplace
    · exact getElem?_place hpiece ['\n']
  · obtain ⟨next, hpiece, hends, hgoes⟩ := piece_of_hyphen h hi
    rw [place_succ hpiece, written_hyphen]
    by_cases hb : Boundary texts (i + 1)
    · rw [hends hb, if_neg (by simp)]
      exact iff_of_true rfl hb
    · rw [hgoes hb, if_pos hnext]
      refine iff_of_false ?_ hb
      simp

/-! ## A paragraph of texts -/

variable {o : Options} {width : Nat}

/-- Texts in a row write a chunk each. -/
theorem visit_texts {f : Forest} (hleaves : f.AreLeaves Node.isText)
    (htexts : f.roots.map (·.content) = texts.map .text) (ancestors before : List Node) (depth : Nat) :
    f.visit (visitor o width) ancestors before depth =
      texts.map fun t => .put t (o.wraps width) .normal := by
  induction f generalizing texts before with
  | nil =>
    rw [List.map_eq_nil_iff.mp htexts.symm]
    rfl
  | cons n cs rest _ ih =>
    cases texts with
    | nil => cases htexts
    | cons t ts =>
      obtain ⟨hn, hrest⟩ := List.cons.inj htexts
      obtain ⟨hcs, -, hleaves'⟩ := Forest.areLeaves_cons hleaves
      obtain rfl := hcs (Node.isText_iff.mpr ⟨t, hn⟩)
      have hn : n.content = .text t := hn
      rw [Forest.visit, ih hleaves' hrest]
      simp [visitor, enter, exit, Site.content, Forest.visit, hn]

theorem hyphenated_render {s : Site} (hkind : s.content = .paragraph)
    (hleaves : s.children.AreLeaves Node.isText)
    (htexts : s.children.roots.map (·.content) = texts.map .text) (o : Options) (width : Nat) :
    ∃ pieces, Hyphenated texts pieces (render o width s) := by
  let f : Format := ⟨effectiveWidth o width, escapeChar⟩
  let w := effectiveWidth o width
  let q : Page := Page.run f (texts.map fun t => .put t (o.wraps w) .normal) {}
  have henter : (visitor o w).enter s = [] := by simp [visitor, enter, hkind]
  have hexit : (visitor o w).exit s = [.blankLine] := by simp [visitor, exit, hkind]
  have hdescends : (visitor o w).descends s = true := by
    have hk : s.kind = .paragraph := congrArg Content.kind hkind
    simp [visitor, hk]
  have hvisit : s.visit (visitor o w) =
      (texts.map fun t => .put t (o.wraps w) .normal) ++ [.blankLine] := by
    rw [Site.visit, henter, hexit, if_pos hdescends, visit_texts hleaves htexts, List.nil_append]
  have hempty : Page.Spells written [] {} := Spelling.nil
  have hspells : q.Spells written (texts.flatMap letters) :=
    hempty.run (f := f) rfl rfl (show Mode.normal ≠ .literal by decide) (fun _ _ _ => rfl) (o.wraps w) texts
  obtain ⟨pieces, hpieces, htext⟩ := hspells.text
  have hrender : render o width s = (q.owe 2).finish := by
    rw [render, Layout.render, hvisit, Page.run_append]
    rfl
  refine ⟨pieces, hyphenated_of_spelt hpieces ?_⟩
  rw [hrender, htext]
  unfold Page.finish
  split
  · rename_i hnil
    left
    rw [Page.text]
    exact (congrArg List.reverse hnil).symm
  · exact Or.inl rfl
  · exact Or.inr rfl

end Latex

namespace Document

/-- In a paragraph of texts, two hyphens in a row become a dash of LaTeX where
one text ends and another begins between them, and nowhere else. -/
theorem Session.hyphens_join_at_boundaries (x : Session) {id : NodeId} {s : Site}
    (hs : x.document.site? id = some s) (hkind : s.content = .paragraph) {texts : List Text}
    (htexts : s.children.roots.map (·.content) = texts.map .text) (o : Options) (width : Nat) :
    ∃ page pieces, x.document.render? id .latex o width = some page ∧
      Latex.Hyphenated texts pieces page := by
  have hleaves : s.children.AreLeaves Node.isText := by
    intro r hr
    have hbelow : r ∈ s.tree.alone.rows := by
      rw [Forest.rows_alone]
      exact List.mem_cons_of_mem _ hr
    exact x.sound.leaf r (Forest.rows_subset (mem_subtrees_of_site? hs) hbelow)
  obtain ⟨pieces, h⟩ := Latex.hyphenated_render hkind hleaves htexts o width
  exact ⟨_, pieces, by rw [render?, hs]; rfl, h⟩

/-- Three hyphens in one text, and a fourth in the next, in lines that wrap. -/
theorem hyphens_join_at_boundaries_four :
    let x : Session := ⟨.new, [.create .paragraph, .appendChild 0 1, .create .text,
      .appendChild 1 2, .set 2 (.literal (some "a b---".toList)), .create .text,
      .appendChild 1 3, .set 3 (.literal (some "- c".toList))]⟩
    let texts := ["a b---".toList, "- c".toList]
    ∃ s, (x.document.site? 1 = some s ∧ s.content = .paragraph ∧
        s.children.roots.map (·.content) = texts.map .text) ∧
      ∃ page pieces, x.document.render? 1 .latex {} 4 = some page ∧
        Latex.Hyphenated texts pieces page := by
  intro x texts
  have hcontents : (x.document.site? 1).map (fun s => (s.content, s.children.roots.map (·.content))) =
      some (.paragraph, texts.map .text) := by decide +kernel
  obtain ⟨s, hs, heq⟩ := Option.map_eq_some_iff.mp hcontents
  obtain ⟨hkind, htexts⟩ := Prod.mk.inj heq
  exact ⟨s, ⟨hs, hkind, htexts⟩, x.hyphens_join_at_boundaries hs hkind htexts {} 4⟩

/-- Two texts of one hyphen each. They stand side by side in the page, and
LaTeX prints a dash. -/
theorem hyphens_become_dash :
    let x : Session := ⟨.new, [.create .paragraph, .appendChild 0 1, .create .text,
      .appendChild 1 2, .set 2 (.literal (some ['-'])), .create .text, .appendChild 1 3,
      .set 3 (.literal (some ['-']))]⟩
    x.document.childNodes 1 = [⟨2, .text ['-'], .unknown, .unknown⟩, ⟨3, .text ['-'], .unknown, .unknown⟩] ∧
      ∃ page, x.document.render? 1 .latex {} 0 = some page ∧ "--".toList <:+: page := by
  intro x
  have hpage : x.document.render? 1 .latex {} 0 = some "--\n".toList := by decide +kernel
  exact ⟨by decide +kernel, _, hpage, by decide⟩

end Document

end MarkupTree
