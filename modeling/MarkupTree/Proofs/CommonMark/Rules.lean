-- Thematic breaks. A rule stands on a line of its own, behind the margin of the blocks around
-- it. It asks for an empty line above it and gets one, unless it stands in an item of a tight
-- list: there the line above is the last one that is written, and a paragraph that ends with
-- it is underlined.
import MarkupTree.Output
import MarkupTree.Proofs.CommonMark.Margins
import MarkupTree.Proofs.CommonMark.TightLists
import MarkupTree.Proofs.Layout.Chunks

namespace MarkupTree

namespace CommonMark

open Layout
open Text (Lined)

variable {o : Options} {width : Nat} {f : Format} {p : Page} {r t : Site} {sites : List Site}
  {written : List Instruction}

def rule : Text := "-----".toList

/-! ## The page of a rule -/

/-- The lines `ls` are above the rule: all that are written, where one break is due, or else lines of which
the last one is empty. -/
structure Above (p : Page) (ls : List Text) : Prop where
  tight : p.tightItem = true → ls = Text.lines p.text
  loose : p.tightItem = false → ∀ l, ls.getLast? = some l → Page.Bare p.margin l

/-- A rule stands on a line of its own, and what comes after it does not change it. -/
theorem stays_rule (hmargin : '\n' ∉ p.margin) (f : Format) :
    ∃ ls past, Above p ls ∧ Lined ls (p.margin ++ rule) past ∧ past.head? = some '-' ∧
      (p.run f [.blankLine, lit rule, .blankLine]).Stays past := by
  have hrule : '\n' ∉ rule := by decide
  have hdue : (p.owe 2).due ≠ 0 := by
    unfold Page.due Page.owe
    dsimp only
    split <;> omega
  obtain ⟨htail, hpast⟩ := Page.lit_of_due (f := f) hdue hrule (by decide)
  have hstays : ∀ {past}, ((p.owe 2).follow f (lit rule)).past = past →
      (p.run f [.blankLine, lit rule, .blankLine]).Stays past := by
    intro past heq
    refine Or.inl ⟨htail, heq, ?_⟩
    show max ((p.owe 2).follow f (lit rule)).owed 2 ≠ 0
    omega
  have hlined : ∀ {ls}, Lined ls [] (p.owe 2).settle.reversed →
      Lined ls (p.margin ++ rule) (rule.reverse ++ (p.margin.reverse ++ (p.owe 2).settle.reversed)) := by
    intro ls h
    exact (h.append hmargin).append hrule
  cases htight : p.tightItem with
  | true =>
    have hone : (p.owe 2).due = 1 := by
      unfold Page.due Page.owe
      dsimp only
      rw [htight, if_pos rfl]
      omega
    have hsettle : (p.owe 2).settle.text = Text.ended (Text.lines p.text) := Page.text_settle hone
    have hls : Lined (Text.lines p.text) [] (p.owe 2).settle.reversed := by
      refine ⟨?_, fun l hl => Text.newline_notMem_of_mem_lines hl, List.not_mem_nil⟩
      rw [List.append_nil]
      exact hsettle
    exact ⟨_, _, ⟨fun _ => rfl, fun h => Bool.noConfusion (htight.symm.trans h)⟩, hlined hls, rfl, hstays hpast⟩
  | false =>
    have htwo : 1 < (p.owe 2).due := by
      unfold Page.due Page.owe
      dsimp only
      rw [htight, if_neg Bool.false_ne_true]
      omega
    obtain ⟨ls, hls, hbare⟩ := Page.bare_settle (p := p.owe 2) hmargin htwo
    exact ⟨ls, _, ⟨fun h => Bool.noConfusion (htight.symm.trans h), fun _ => hbare⟩, hlined hls, rfl, hstays hpast⟩

/-! ## Rules among other blocks -/

/-- The margin of a page on which a node is entered below the sites. -/
def marginBelow (sites : List Site) : Text := sites.reverse.flatMap marginShare

/-- The paragraph right before the node ends the output with the line. -/
structure EndsParagraph (t : Site) (sofar margin line : Text) : Prop where
  paragraph : ∃ n, t.before.head? = some n ∧ n.content = .paragraph
  last : (Text.lines sofar).getLast? = some line
  shown : ¬Page.Bare margin line

/-- A rule in a page: the lines above it are those of the output `sofar` where it stands in a tight item, and
end with an empty one elsewhere. -/
structure StandsApart (t : Site) (sofar margin : Text) (above : List Text) : Prop where
  tight : isTightItem t.ancestors = true → above = Text.lines sofar
  loose : isTightItem t.ancestors = false → ∀ l, above.getLast? = some l → Page.Bare margin l
  /-- The last line of a paragraph is right above the rule in a tight item, and nowhere else. -/
  paragraph : ∀ l, EndsParagraph t sofar margin l →
    (above.getLast? = some l ↔ isTightItem t.ancestors = true)

theorem tightness_rule (hrule : t.content = .thematicBreak) : tightness t = .tightItem (isTightItem t.ancestors) := by
  have hkind : t.node.kind = .thematicBreak := congrArg Content.kind hrule
  have hitem : isTightItem (t.node :: t.ancestors) = false := by
    cases t.ancestors with
    | nil => rfl
    | cons n above => simp [isTightItem, hkind]
  rw [tightness, inTightItem_of_block (by rw [hkind]; rfl), hitem, Bool.false_or]

theorem Above.standsApart {ls : List Text} (h : Above { p with tightItem := isTightItem t.ancestors } ls) :
    StandsApart t p.text p.margin ls where
  tight := h.tight
  loose := h.loose
  paragraph := by
    intro l hends
    constructor
    · intro hlast
      by_contra hloose
      exact hends.shown (h.loose (by simpa using hloose) l hlast)
    · intro htight
      rw [h.tight htight]
      exact hends.last

/-- Each rule of a page stands on a line of its own, behind the margin of the blocks around it. -/
theorem lines_render_of_rule (o : Options) (width : Nat)
    (h : r.Enters (visitor o (effectiveWidth o width)) sites written t) (hrule : t.content = .thematicBreak) :
    ∃ above below, Text.lines (render o width r) = above ++ (marginBelow sites ++ rule) :: below ∧
      StandsApart t (Page.run (format o width) written {}).text (marginBelow sites) above := by
  have hmargin : (Page.run (format o width) written {}).margin = marginBelow sites := by
    rw [Page.margin_run]
    exact marginAfter_written h
  have hline : '\n' ∉ marginBelow sites := by
    unfold marginBelow
    rw [List.mem_flatMap]
    rintro ⟨u, -, hmem⟩
    exact newline_notMem_marginShare u hmem
  have hkind : t.kind = .thematicBreak := congrArg Content.kind hrule
  have henter : enter o (effectiveWidth o width) t =
      .tightItem (isTightItem t.ancestors) :: [.blankLine, lit rule, .blankLine] := by
    rw [← tightness_rule hrule]
    simp [enter, enterContent, hrule, hkind, rule]
  obtain ⟨more, hmore⟩ := h.visit_eq_enter
  rw [show (visitor o (effectiveWidth o width)).enter t = enter o (effectiveWidth o width) t from rfl, henter] at hmore
  let p : Page := { Page.run (format o width) written {} with tightItem := isTightItem t.ancestors }
  obtain ⟨above, past, habove, hlined, hhead, hstays⟩ := stays_rule (p := p) (hmargin ▸ hline) (format o width)
  obtain ⟨cs, rfl⟩ := List.head?_eq_some_iff.mp hhead
  have hne : p.margin ++ rule ≠ [] := by simp [rule]
  obtain ⟨below, hlines⟩ := (hstays.run (f := format o width) (by decide) more).lines_finish hlined hne
  have hrender : render o width r =
      (Page.run (format o width) more (p.run (format o width) [.blankLine, lit rule, .blankLine])).finish := by
    unfold render
    dsimp only
    rw [hmore]
    unfold Layout.render
    rw [Page.run_append, Page.run_append]
    rfl
  refine ⟨above, below, ?_, ?_⟩
  · rw [hrender, hlines]
    exact congrArg (fun m => above ++ (m ++ rule) :: below) hmargin
  · rw [← hmargin]
    exact habove.standsApart

end CommonMark

namespace Document

open CommonMark

/-- In every session, each rule stands on a line of its own in the page of any node above it. The line above
it is empty, or there is none, unless it stands in an item of a tight list: there, and nowhere else, the last
line of a paragraph is right above it. -/
theorem Session.rules_stand_apart (x : Session) {id : NodeId} {r : Site} (hr : x.document.site? id = some r)
    (o : Options) (width : Nat) {sites : List Site} {written : List Layout.Instruction} {t : Site}
    (h : r.Enters (visitor o (effectiveWidth o width)) sites written t) (hrule : t.content = .thematicBreak) :
    ∃ page above below, x.document.render? id .commonMark o width = some page ∧
      Text.lines page = above ++ (marginBelow sites ++ rule) :: below ∧
        StandsApart t (Layout.Page.run (format o width) written {}).text (marginBelow sites) above := by
  obtain ⟨above, below, hlines, hstands⟩ := lines_render_of_rule o width h hrule
  exact ⟨render o width r, above, below, by rw [render?, hr]; rfl, hlines, hstands⟩

/-- A rule after a paragraph, both of them in a quote. -/
theorem rules_stand_apart_quote :
    let x : Session := ⟨.new, [.create .blockQuote, .appendChild 0 1, .create .paragraph, .appendChild 1 2,
      .create .text, .appendChild 2 3, .set 3 (.literal (some "a".toList)), .create .thematicBreak,
      .appendChild 1 4]⟩
    ∃ r sites written t, (x.document.site? 1 = some r ∧
        r.Enters (visitor {} (effectiveWidth {} 80)) sites written t ∧ t.content = .thematicBreak) ∧
      ∃ page above below, x.document.render? 1 .commonMark {} 80 = some page ∧
        Text.lines page = above ++ (marginBelow sites ++ rule) :: below ∧
          StandsApart t (Layout.Page.run (format {} 80) written {}).text (marginBelow sites) above := by
  intro x
  let text : Forest := .cons { id := 3, content := .text "a".toList } .nil .nil
  let broken : Forest := .cons { id := 4, content := .thematicBreak } .nil .nil
  let r : Site := { node := { id := 1, content := .blockQuote },
                    children := .cons { id := 2, content := .paragraph } text broken,
                    ancestors := [{ id := 0, content := .document, start := ⟨1, 1⟩, stop := ⟨1, 1⟩ }] }
  let before : Site := { node := { id := 2, content := .paragraph }, children := text,
                         ancestors := r.node :: r.ancestors, after := broken, depth := 1 }
  let t : Site := { node := { id := 4, content := .thematicBreak }, children := .nil,
                    ancestors := r.node :: r.ancestors, before := [before.node], depth := 1 }
  have hr : x.document.site? 1 = some r := by decide +kernel
  have hbelow : r.below = [before] ++ t :: [] := rfl
  have henters := (Site.Enters.start (v := visitor {} (effectiveWidth {} 80)) (s := r)).child rfl hbelow
  exact ⟨r, _, _, t, ⟨hr, henters, rfl⟩, x.rules_stand_apart hr {} 80 henters rfl⟩

/-- A rule between two texts of a tight item: it stands right below the paragraph before it. -/
theorem paragraph_is_underlined :
    let source := Source.ofText "- a\n  ***\n  b\n".toList
    let line := Outline.leaf 2 3 (.text ['a']) (.leaf 6 10 .rule (.leaf 12 13 (.text ['b']) .nil))
    let o := Outline.enclose (.list none) 0 14 0 14 (.enclose .item 0 14 0 14 line .nil) .nil
    let d := ofEvents source o.events
    (o.fits .blocks = true ∧ d.trees.nodes.map Node.kind =
        [.document, .list, .item, .paragraph, .text, .thematicBreak, .paragraph, .text]) ∧
      ∃ page, d.render? rootId .commonMark {} 80 = some page ∧
        Text.lines page = ["- a".toList, "  ".toList ++ rule, "  b".toList] := by
  intro source line o d
  have hpage : d.render? rootId .commonMark {} 80 = some "- a\n  -----\n  b\n".toList := by decide +kernel
  exact ⟨⟨by decide +kernel, by decide +kernel⟩, _, hpage, by decide⟩

end Document

end MarkupTree
