-- Headings. While a heading is written the output is to stay on one line, so soft breaks are
-- spaces and nothing wraps. Hard breaks and the line feeds of code, markup, custom texts and
-- titles are written all the same, and so a heading is one line if no more of it comes after
-- the first of them.
import MarkupTree.Output
import MarkupTree.Proofs.CommonMark.Spans
import MarkupTree.Proofs.CommonMark.Strokes
import MarkupTree.Proofs.Latex.Balance

namespace MarkupTree

namespace CommonMark

open Layout

variable {o : Options} {width : Nat} {s : Site} {f : Format}

/-! ## What inline nodes draw -/

/-- The strokes on entering an inline node. -/
def enterStrokes (o : Options) (s : Site) : List Stroke :=
  match s.content with
  | .text t => if t = [] then [] else [.ink]
  | .softBreak => if o.hardBreaks then [.ink, .due] else [.ink]
  | .lineBreak => if o.hardBreaks then [.due] else [.ink, .due]
  | .code t => .ink :: (Stroke.ofText t ++ [.ink])
  | .htmlInline t => Stroke.ofText t
  | .customInline onEnter _ => Stroke.ofText onEnter
  | .strong => if s.isIn .strong then [] else [.ink]
  | .emphasis => [.ink]
  | .link _ _ =>
    match autolink? s with
    | some target => .ink :: (Stroke.ofText target ++ [.ink])
    | none => [.ink]
  | .image _ _ => [.ink]
  | _ => []

/-- The strokes on leaving an inline node. The end of a link or an image has the title in it. -/
def exitStrokes (s : Site) : List Stroke :=
  match s.content with
  | .customInline _ onExit => Stroke.ofText onExit
  | .strong => if s.isIn .strong then [] else [.ink]
  | .emphasis => [.ink]
  | .link _ title => if (autolink? s).isSome then [] else .ink :: (Stroke.ofText title ++ [.ink])
  | .image _ title => .ink :: (Stroke.ofText title ++ [.ink])
  | _ => []

def strokes (o : Options) : Visitor Stroke where
  enter := enterStrokes o
  exit := exitStrokes
  descends s := !(s.kind == .link && (autolink? s).isSome)

namespace Draws

variable {t : Text}

theorem lit (hescape : f.escape = escapeChar) (hne : t ≠ []) (hline : '\n' ∉ t) : Draws f [Layout.lit t] [.ink] :=
  inked hescape hne (Or.inr (Or.inr hline))

/-- Text between two marks. -/
theorem enclosed (hescape : f.escape = escapeChar) {u v : Text} (hu : u ≠ []) (hlineu : '\n' ∉ u)
    (hv : v ≠ []) (hlinev : '\n' ∉ v) (t : Text) :
    Draws f [Layout.lit u, Layout.lit t, Layout.lit v] (.ink :: (Stroke.ofText t ++ [.ink])) :=
  (lit hescape hu hlineu).append ((literal hescape t).append (lit hescape hv hlinev))

theorem text (hescape : f.escape = escapeChar) (wrap : Bool) (s : Site) (t : Text) :
    Draws f (textRun wrap s t) (if t = [] then [] else [.ink]) := by
  unfold textRun
  dsimp only
  split
  · rename_i hmark
    have hlast : t.getLast? = some '!' := eq_of_beq (Bool.and_eq_true_iff.mp hmark).2
    have hne : t ≠ [] := by
      rintro rfl
      cases hlast
    have hboth := (put hescape t.dropLast wrap .normal).append (literal hescape ['\\', '!'])
    rw [if_neg hne]
    apply hboth.congr
    intro l
    refine (LineState.after_ink (by simp [Stroke.ofText]) ?_).symm
    intro k hk
    rcases List.mem_append.mp hk with hk | hk
    · obtain ⟨c, -, rfl⟩ := List.mem_map.mp hk
      rfl
    · simpa [Stroke.ofText, Stroke.ofChar] using hk
  · split
    · rename_i hnil
      rw [hnil]
      exact put hescape [] wrap .normal
    · rename_i hne
      exact inked hescape hne (Or.inl rfl)

theorem softBreak (hescape : f.escape = escapeChar) (o : Options) (width : Nat) :
    Draws f (softBreak o width) (if o.hardBreaks then [.ink, .due] else [.ink]) := by
  unfold CommonMark.softBreak
  split
  · exact (lit hescape (by decide) (by decide)).append lineBreak
  · split
    · exact softLine hescape
    · exact inked hescape (by decide) (Or.inr (Or.inr (by decide)))

theorem codeSpan (hescape : f.escape = escapeChar) (wrap : Bool) (t : Text) :
    Draws f (codeSpan wrap t) (.ink :: (Stroke.ofText t ++ [.ink])) := by
  have hticks := lit hescape (ticks_ne_nil t) (newline_notMem_ticks t)
  have hspace : Draws f [Layout.lit [' ']] [.ink] := lit hescape (by decide) (by decide)
  have hcode : Draws f [.put t wrap .literal] (Stroke.ofText t) := put hescape t wrap .literal
  unfold CommonMark.codeSpan
  dsimp only
  split
  · apply ((hticks.append hspace).append (hcode.append (hspace.append hticks))).congr
    intro l
    simp
  · exact hticks.append (hcode.append hticks)

/-- An address and the brackets around it are ink, and a title stands between its marks. -/
theorem destination (hescape : f.escape = escapeChar) (url title : Text) :
    Draws f (destination url title) (.ink :: (Stroke.ofText title ++ [.ink])) := by
  have hopen : Draws f [Layout.lit "](".toList] [.ink] := lit hescape (by decide) (by decide)
  have hclose : Draws f [Layout.lit [')']] [.ink] := lit hescape (by decide) (by decide)
  have haddress : Draws f [if url.isEmpty then Layout.lit "<>".toList else .put url false .address] [.ink] := by
    split
    · exact lit hescape (by decide) (by decide)
    · rename_i hurl
      exact inked hescape (by simpa using hurl) (Or.inr (Or.inl rfl))
  have htitle : Draws f (if title.isEmpty then []
      else [Layout.lit [' ', '\x22'], .put title false .title, Layout.lit ['\x22']])
      (if title.isEmpty then [] else .ink :: (Stroke.ofText title ++ [.ink])) := by
    split
    · exact nil
    · have hquote : Draws f [Layout.lit ['\x22']] [.ink] := lit hescape (by decide) (by decide)
      have hfront : Draws f [Layout.lit [' ', '\x22']] [.ink] := lit hescape (by decide) (by decide)
      have hput : Draws f [.put title false .title] (Stroke.ofText title) := put hescape title false .title
      exact hfront.append (hput.append hquote)
  unfold CommonMark.destination
  apply (((hopen.append haddress).append htitle).append hclose).congr
  intro l
  split
  · rename_i hempty
    rw [List.isEmpty_iff.mp hempty]
    simp [Stroke.ofText]
  · simp

theorem strongMarks (hescape : f.escape = escapeChar) (s : Site) :
    Draws f (strongMarks s) (if s.isIn .strong then [] else [.ink]) := by
  unfold CommonMark.strongMarks
  split
  · exact nil
  · exact lit hescape (by decide) (by decide)

theorem emphasisMark (hescape : f.escape = escapeChar) (s : Site) :
    Draws f [Layout.lit (emphasisMark s)] [.ink] := by
  unfold CommonMark.emphasisMark
  split <;> exact lit hescape (by decide) (by decide)

end Draws

/-! ## Nodes and rows -/

theorem draws_enterContent (hescape : f.escape = escapeChar) (hinline : s.kind.isInline = true) :
    Draws f (enterContent o width s) (enterStrokes o s) := by
  have hkind : s.kind = s.content.kind := rfl
  rw [hkind] at hinline
  unfold enterContent enterStrokes
  cases hcontent : s.content with
  | text t => exact .text hescape _ s t
  | softBreak => exact .softBreak hescape o width
  | lineBreak =>
    dsimp only
    split
    · exact .lineBreak
    · exact (Draws.lit hescape (by decide) (by decide)).append .lineBreak
  | code t => exact .codeSpan hescape _ t
  | htmlInline t => exact .literal hescape t
  | customInline onEnter _ => exact .literal hescape onEnter
  | strong => exact .strongMarks hescape s
  | emphasis => exact .emphasisMark hescape s
  | link url title =>
    rcases hauto : autolink? s with _ | target
    · exact .lit (t := ['[']) hescape (by decide) (by decide)
    · exact .enclosed (u := ['<']) (v := ['>']) hescape (by decide) (by decide) (by decide) (by decide) target
  | image url title => exact .lit hescape (by decide) (by decide)
  | _ =>
    rw [hcontent] at hinline
    cases hinline

theorem draws_exitContent (hescape : f.escape = escapeChar) (hinline : s.kind.isInline = true) :
    Draws f (exitContent s) (exitStrokes s) := by
  have hkind : s.kind = s.content.kind := rfl
  rw [hkind] at hinline
  unfold exitContent exitStrokes
  cases hcontent : s.content with
  | customInline _ onExit => exact .literal hescape onExit
  | strong => exact .strongMarks hescape s
  | emphasis => exact .emphasisMark hescape s
  | link url title =>
    dsimp only
    split
    · exact .nil
    · exact .destination hescape url title
  | image url title => exact .destination hescape url title
  | text | softBreak | lineBreak | code | htmlInline => exact .nil
  | _ =>
    rw [hcontent] at hinline
    cases hinline

theorem draws_enter (hescape : f.escape = escapeChar) (hinline : s.kind.isInline = true) :
    Draws f (enter o width s) (enterStrokes o s) := by
  have hitem : ¬(s.kind = .item ∧ s.before.isEmpty = true) := by
    rintro ⟨hitem, -⟩
    rw [hitem] at hinline
    cases hinline
  unfold enter
  rw [if_neg hitem]
  exact (Draws.tightItem _).append (draws_enterContent hescape hinline)

theorem draws_exit (hescape : f.escape = escapeChar) (hinline : s.kind.isInline = true) :
    Draws f (exit s) (exitStrokes s) := (Draws.tightItem _).append (draws_exitContent hescape hinline)

/-- A row of inline nodes draws their strokes, with those of the nodes below between the strokes on
entering and on leaving. -/
theorem draws_visit (hescape : f.escape = escapeChar) {g : Forest} (hinline : ∀ n ∈ g.nodes, n.kind.isInline = true)
    (o : Options) (width : Nat) (ancestors before : List Node) (depth : Nat) :
    Draws f (g.visit (visitor o width) ancestors before depth) (g.visit (strokes o) ancestors before depth) := by
  induction g generalizing ancestors before depth with
  | nil => exact .nil
  | cons n cs rest ihc ihr =>
    rw [Forest.nodes, List.forall_mem_cons, List.forall_mem_append] at hinline
    obtain ⟨hn, hcs, hrest⟩ := hinline
    let t : Site := { node := n, children := cs, ancestors, before, after := rest, depth }
    have hbelow : Draws f
        (if (visitor o width).descends t then cs.visit (visitor o width) (n :: ancestors) [] (depth + 1) else [])
        (if (strokes o).descends t then cs.visit (strokes o) (n :: ancestors) [] (depth + 1) else []) := by
      show Draws f (if _ then _ else _) (if (visitor o width).descends t then _ else _)
      split
      · exact ihc hcs _ _ _
      · exact .nil
    unfold Forest.visit
    exact (((draws_enter (s := t) hescape hn).append hbelow).append (draws_exit (s := t) hescape hn)).append
      (ihr hrest _ _ _)

/-! ## The page of a heading -/

/-- A heading begins a page that is to stay on one line. -/
theorem onLine_enter {level : Nat} (hheading : s.content = .heading level) (o : Options) (width : Nat) :
    OnLine .goesOn (Page.run f (enter o width s) {}) := by
  have hkind : s.kind = .heading := congrArg Content.kind hheading
  let start : Page := { tightItem := inTightItem (s.node :: s.ancestors) }
  let marked : Page := start.run f [lit (List.replicate level '#'), lit [' ']]
  have hmarked : Page.Holds (List.replicate level '#' ++ [' ']) marked :=
    (Page.Flat.holds ⟨rfl, rfl⟩ rfl (List.replicate level '#')).lit [' ']
  have henter : enter o width s = [tightness s, lit (List.replicate level '#'), lit [' '], .beginContent,
      .oneLine true] := by
    simp [enter, enterContent, hheading, hkind]
  have hpage : Page.run f (enter o width s) {} = { marked with beginContent := true, oneLine := true } := by
    rw [henter]
    rfl
  have htext : marked.text ≠ [] := by
    rw [hmarked.text]
    simp
  have hline : '\n' ∉ settledText marked := by
    rw [settledText, if_pos hmarked.owed, hmarked.text]
    simp
  have howed : marked.owed ≤ 1 := by
    rw [hmarked.owed]
    exact Nat.zero_le 1
  rw [hpage]
  exact ⟨⟨hmarked.flat.margin, hmarked.flat.tail⟩, rfl, howed, htext, hline⟩

/-- The page of a heading is one line under the strokes of one line. -/
theorem isLine_render {level : Nat} (hheading : s.content = .heading level)
    (hinline : ∀ n ∈ s.children.nodes, n.kind.isInline = true) (o : Options) (width : Nat) :
    (∃ line, '\n' ∉ line ∧ render o width s = line ++ ['\n']) ↔
      Stroke.OnOneLine (s.children.visit (strokes o) (s.node :: s.ancestors) [] (s.depth + 1)) := by
  have hkind : s.kind = .heading := congrArg Content.kind hheading
  let w := effectiveWidth o width
  let inner := s.children.visit (visitor o w) (s.node :: s.ancestors) [] (s.depth + 1)
  let page := (Page.run (format o width) (enter o w s) {}).run (format o width) inner
  have hdraws : Draws (format o width) inner _ := draws_visit rfl hinline o w (s.node :: s.ancestors) [] (s.depth + 1)
  have hline : OnLine _ page := hdraws _ _ (onLine_enter hheading o w)
  have hvisit : s.visit (visitor o w) = enter o w s ++ inner ++ [tightness s, .oneLine false, .blankLine] := by
    simp [Site.visit, visitor, exit, exitContent, hheading, hkind, inner]
  have hrender : render o width s = Text.ended (Text.lines page.text) := by
    rw [← Page.finish_eq]
    unfold render Layout.render
    dsimp only
    rw [hvisit, Page.run_append, Page.run_append]
    rfl
  rw [hrender, ← ended_settledText, hline.line.isLine_iff hline.settled_ne_nil, LineState.after_goesOn]

end CommonMark

namespace Document

open CommonMark

/-- In every session, a heading is one line of CommonMark at any width, if and only if nothing of it is
written after a hard break or a line feed. -/
theorem Session.headings_stay_on_line (x : Session) {id : NodeId} {s : Site} (hs : x.document.site? id = some s)
    {level : Nat} (hheading : s.content = .heading level) (o : Options) (width : Nat) :
    ∃ page, x.document.render? id .commonMark o width = some page ∧
      ((∃ line, '\n' ∉ line ∧ page = line ++ ['\n']) ↔
        Stroke.OnOneLine (s.children.visit (strokes o) (s.node :: s.ancestors) [] (s.depth + 1))) := by
  have hkind : s.kind = .heading := congrArg Content.kind hheading
  have hinline := x.sound.isInline_below hs (by rw [hkind]; rfl)
  exact ⟨render o width s, by rw [render?, hs]; rfl, isLine_render hheading hinline o width⟩

/-- A heading with soft breaks, code and a link, and a hard break at its end. -/
theorem headings_stay_on_line_breaks :
    let x : Session := ⟨.new, [.create .heading, .appendChild 0 1, .create .text, .appendChild 1 2,
      .set 2 (.literal (some "a b".toList)), .create .softBreak, .appendChild 1 3, .create .code,
      .appendChild 1 4, .set 4 (.literal (some "c d".toList)), .create .link, .appendChild 1 5,
      .set 5 (.url (some "/e".toList)), .set 5 (.title (some "f".toList)), .create .lineBreak,
      .appendChild 1 6]⟩
    ∃ s, (x.document.site? 1 = some s ∧ s.content = .heading 1) ∧
      ∃ page, x.document.render? 1 .commonMark {} 4 = some page ∧
        ((∃ line, '\n' ∉ line ∧ page = line ++ ['\n']) ↔
          Stroke.OnOneLine (s.children.visit (strokes {}) (s.node :: s.ancestors) [] (s.depth + 1))) := by
  intro x
  have hcontent : (x.document.site? 1).map Site.content = some (.heading 1) := by decide +kernel
  obtain ⟨s, hs, hheading⟩ := Option.map_eq_some_iff.mp hcontent
  exact ⟨s, ⟨hs, hheading⟩, x.headings_stay_on_line hs hheading {} 4⟩

/-- A hard break between two texts: the heading ends with the first line, and the second one is a
paragraph. -/
theorem heading_breaks :
    let text : Source := Source.ofText "a\\\nb\n===\n".toList
    let o := Outline.enclose (.heading 1) 0 9 0 9
      (.leaf 0 1 (.text ['a']) (.leaf 1 3 .hardBreak (.leaf 3 4 (.text ['b']) .nil))) .nil
    (o.fits .blocks = true ∧ ((ofEvents text o.events).site? 1).map Site.content = some (.heading 1) ∧
      (ofEvents text o.events).render? 1 .commonMark {} 80 = some "# a\\\nb\n".toList) ∧
      ¬∃ line, '\n' ∉ line ∧ "# a\\\nb\n".toList = line ++ ['\n'] := by
  intro text o
  refine ⟨?_, ?_⟩
  · decide +kernel
  · rintro ⟨line, hline, heq⟩
    have hlast := congrArg List.dropLast heq
    rw [List.dropLast_concat] at hlast
    exact hline (hlast ▸ by decide)

end Document

end MarkupTree
