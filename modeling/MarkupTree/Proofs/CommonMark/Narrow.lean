-- A page one column wide. There a line ends at each space at which it may break, so
-- what comes after such a space stands at the start of a line, and a paragraph that is
-- not smooth breaks apart.
import MarkupTree.Output
import MarkupTree.Proofs.CommonMark.Wrapping

namespace MarkupTree

namespace CommonMark

open Layout

variable {f : Format} {p : Page} {g : Glyph} {gs : List Glyph} {ls : List Text} {line : Text}

/-! ## One glyph on a narrow page -/

/-- The line has no space at which it may break. -/
structure Narrow (p : Page) (ls : List Text) (line : Text) : Prop where
  lined : Text.Lined ls line p.past
  tail : p.tail = none
  column : p.column = line.length
  begun : p.beginLine = true → line = []

/-- A broken line is ended. -/
def Broken (p : Page) : Prop :=
  ∃ ls line past, Text.Lined ls line past ∧ (∃ l ∈ ls, isBroken l = true) ∧ past <:+ p.past

theorem escapeChar_ne_nil (last : Option Char) (c : Char) (next : Option Char) (begin : Bool) :
    escapeChar .normal last c next begin ≠ [] := by
  rcases escapeChar_normal last c next begin with ⟨-, h⟩ | ⟨-, h⟩ | ⟨-, h⟩ <;> rw [h] <;> nofun

namespace Narrow

/-- A glyph at which the line does not break adds to the line. -/
theorem putGlyph (hescape : f.escape = escapeChar) (hmargin : p.margin = []) (h : Narrow p ls line)
    (hg : g ≠ .space true) (hbegun : p.beginLine = true → ∃ c next, g = .char c next) :
    ∃ t, t ≠ [] ∧ Narrow (p.putGlyph f .normal g) ls (line ++ t) ∧
      (p.putGlyph f .normal g).beginLine = false ∧
      (p.beginContent = false → (p.putGlyph f .normal g).beginContent = false ∧
        ∀ s : LineStart, s.scan t = s.next (glyphChar g)) := by
  cases g with
  | space breaks =>
    cases breaks with
    | true => exact absurd rfl hg
    | false =>
      have hfalse : p.beginLine = false := by
        refine Bool.eq_false_iff.mpr fun htrue => ?_
        obtain ⟨c, next, hchar⟩ := hbegun htrue
        cases hchar
      have hput : p.putGlyph f .normal (.space false) =
          { p with column := p.column + 1, beginContent := false, past := ' ' :: p.past } := by
        rw [Page.putGlyph, Page.putSpace, if_neg (by simp [hfalse]), if_neg Bool.false_ne_true]
        dsimp only
        rw [h.tail]
        exact Page.wrap_of_tail rfl
      rw [hput]
      refine ⟨[' '], List.cons_ne_nil _ _, ⟨h.lined.append (by decide), h.tail, ?_, ?_⟩, hfalse, fun _ => ⟨rfl, fun _ => rfl⟩⟩
      · simp [h.column]
      · simp [hfalse]
  | char c next =>
    have hput : p.putGlyph f .normal (.char c next) = p.putChar f .normal c next := by
      rw [Page.putGlyph, Page.putChar_of_none hmargin (by decide) h.tail]
      exact Page.wrap_of_tail h.tail
    rw [hput, Page.putChar_of_none hmargin (by decide) h.tail, hescape]
    refine ⟨escapeChar .normal p.reversed.head? c next p.beginContent, escapeChar_ne_nil _ _ _ _,
      ⟨?_, h.tail, ?_, by simp⟩,
      rfl, fun hcontent => ⟨by simp [hcontent], fun s => ?_⟩⟩
    · exact h.lined.append (newline_notMem_normal _ _ _ _)
    · have hcolumn : (if p.beginLine then 0 else p.column) = line.length := by
        split
        · rename_i htrue
          rw [h.begun htrue]
          rfl
        · exact h.column
      simp [hcolumn]
    · rw [hcontent]
      exact scan_escapeChar

/-- A line with anything on it ends at a space at which it may break. -/
theorem endLine (hwidth : f.width = 1) (hmargin : p.margin = []) (h : Narrow p ls line)
    (hbegun : p.beginLine = false) (hline : line ≠ []) :
    Narrow (p.putGlyph f .normal (.space true)) (ls ++ [line]) [] ∧
      (p.putGlyph f .normal (.space true)).beginLine = false ∧
      (p.putGlyph f .normal (.space true)).beginContent = false := by
  have hlength : 0 < line.length := List.length_pos_iff.mpr hline
  have hput : p.putGlyph f .normal (.space true) =
      { p with past := '\n' :: p.past, tail := none, column := 0, beginLine := false, beginContent := false } := by
    rw [Page.putGlyph, Page.putSpace, if_neg (by simp [hbegun]), if_pos rfl, Page.wrap, if_neg]
    · simp [Page.reversed, h.tail, hmargin]
    · rw [hwidth]
      rintro (hzero | hle | htrue)
      · cases hzero
      · change p.column + 1 ≤ 1 at hle
        have hcolumn := h.column
        omega
      · cases hbegun.symm.trans htrue
  rw [hput]
  exact ⟨⟨h.lined.newline, rfl, rfl, by simp⟩, rfl, rfl⟩

end Narrow

/-- The line holds a space at which it may break, and nothing else. -/
structure Hanging (p : Page) (ls : List Text) : Prop where
  lined : Text.Lined ls [] p.past
  tail : p.tail = some []
  column : p.column = 1
  begun : p.beginLine = false

theorem Narrow.hang (hwidth : f.width = 1) (h : Narrow p ls []) (hbegun : p.beginLine = false) :
    Hanging (p.putGlyph f .normal (.space true)) ls := by
  have hput : p.putGlyph f .normal (.space true) =
      { p with past := p.past, tail := some [], column := 1, beginContent := false } := by
    rw [Page.putGlyph, Page.putSpace, if_neg (by simp [hbegun]), if_pos rfl, Page.wrap, if_pos]
    · simp [Page.reversed, h.tail, h.column]
    · simp [hwidth, h.column]
  rw [hput]
  exact ⟨h.lined, rfl, rfl, hbegun⟩

/-- Whatever comes next ends the line, and leaves it blank. -/
theorem Hanging.broken (hwidth : f.width = 1) (hescape : f.escape = escapeChar) (hmargin : p.margin = [])
    (h : Hanging p ls) (g : Glyph) : Broken (p.putGlyph f .normal g) := by
  have hblank : Text.Lined (ls ++ [[]]) [] ('\n' :: p.past) := h.lined.newline
  have hwide {n : Nat} (hn : 0 < n) : f.width < p.column + n := by
    have hcolumn := h.column
    omega
  have hone : f.width ≠ 0 := by omega
  cases g with
  | space breaks =>
    cases breaks with
    | true =>
      have hput : p.putSpace true =
          { p with column := p.column + 1, beginContent := false, past := ' ' :: p.past, tail := some [] } := by
        rw [Page.putSpace, if_neg (by simp [h.begun]), if_pos rfl, Page.reversed, h.tail]
        rfl
      have hspaces : Text.Lined (ls ++ [[' ']]) [] ('\n' :: ' ' :: p.past) :=
        (h.lined.append (t := [' ']) (by decide)).newline
      refine ⟨_, _, _, hspaces, ⟨[' '], by simp, rfl⟩, ?_⟩
      have hwrap := Page.newline_suffix_wrap (f := f) (p := p.putSpace true) (t := []) hone
      rw [hput] at hwrap
      rw [Page.putGlyph, hput]
      exact hwrap (hwide Nat.one_pos) h.begun rfl
    | false =>
      have hput : p.putSpace false =
          { p with column := p.column + 1, beginContent := false, tail := some [' '] } := by
        rw [Page.putSpace, if_neg (by simp [h.begun]), if_neg Bool.false_ne_true, h.tail]
      refine ⟨_, _, _, hblank, ⟨[], by simp, rfl⟩, ?_⟩
      have hwrap := Page.newline_suffix_wrap (f := f) (p := p.putSpace false) (t := [' ']) hone
      rw [hput] at hwrap
      rw [Page.putGlyph, hput]
      exact hwrap (hwide Nat.one_pos) h.begun rfl
  | char c next =>
    refine ⟨_, _, _, hblank, ⟨[], by simp, rfl⟩, ?_⟩
    have hput := Page.putChar_of_some (f := f) hmargin (show Mode.normal ≠ .literal by decide) h.tail c next
    rw [hescape, h.begun, if_neg Bool.false_ne_true] at hput
    have hwrap := Page.newline_suffix_wrap (f := f) (p := p.putChar f .normal c next)
      (t := (escapeChar .normal p.reversed.head? c next p.beginContent).reverse ++ []) hone
    rw [hput] at hwrap
    rw [Page.putGlyph, hput]
    exact hwrap (hwide (List.length_pos_iff.mpr (escapeChar_ne_nil _ _ _ _))) rfl rfl

theorem Broken.putGlyph (h : Broken p) (g : Glyph) : Broken (p.putGlyph f .normal g) := by
  obtain ⟨ls, line, past, hlined, hbroken, hsuffix⟩ := h
  exact ⟨ls, line, past, hlined, hbroken, hsuffix.trans (Page.past_suffix_putGlyph .normal g)⟩

/-! ## Glyphs among which a line breaks the paragraph -/

/-- The page, where the rest of the glyphs breaks the paragraph. -/
inductive Sinking (p : Page) (gs : List Glyph) : Prop
  /-- What comes after a space still to come must not begin a line. -/
  | heads {ls : List Text} {line : Text} {as bs : List Glyph} (narrow : Narrow p ls line)
      (hbegun : p.beginLine = true → ∃ c next rest, gs = .char c next :: rest)
      (hgs : gs = as ++ .space true :: bs) (stuck : ¬Free .blank bs)
  /-- The line must not go on with the glyphs. -/
  | starts {ls : List Text} {line : Text} (narrow : Narrow p ls line) (hbegun : p.beginLine = false)
      (hcontent : p.beginContent = false) (stuck : ¬Free (LineStart.blank.scan line) gs)
      (hend : gs = [] → line ≠ [])
  | hangs {ls : List Text} (hanging : Hanging p ls) (hgs : gs ≠ [])
  | sunk (broken : Broken p)

namespace Sinking

theorem putGlyph (hwidth : f.width = 1) (hescape : f.escape = escapeChar) (hmargin : p.margin = [])
    (hlast : (g :: gs).getLast? ≠ some (.space true)) (h : Sinking p (g :: gs)) :
    Sinking (p.putGlyph f .normal g) gs := by
  have hmore (hg : g = .space true) : gs ≠ [] := by
    rintro rfl
    exact hlast (congrArg some hg)
  cases h with
  | @heads ls line as bs narrow hbegun hgs stuck =>
    by_cases hg : g = .space true
    · -- the line ends here, or hangs if nothing is on it
      subst hg
      have hfalse : p.beginLine = false := by
        refine Bool.eq_false_iff.mpr fun htrue => ?_
        obtain ⟨c, next, rest, hchar⟩ := hbegun htrue
        cases hchar
      by_cases hline : line = []
      · subst hline
        exact .hangs (narrow.hang hwidth hfalse) (hmore rfl)
      · obtain ⟨hnarrow, hbegun', hcontent'⟩ := narrow.endLine hwidth hmargin hfalse hline
        cases as with
        | nil =>
          obtain ⟨-, rfl⟩ := List.cons.inj hgs
          exact .starts hnarrow hbegun' hcontent' stuck fun hnil => absurd hnil (hmore rfl)
        | cons a as =>
          obtain ⟨-, rfl⟩ := List.cons.inj hgs
          exact .heads hnarrow (fun htrue => by cases hbegun'.symm.trans htrue) rfl stuck
    · have hchar (htrue : p.beginLine = true) : ∃ c next, g = .char c next := by
        obtain ⟨c, next, rest, heq⟩ := hbegun htrue
        exact ⟨c, next, (List.cons.inj heq).1⟩
      obtain ⟨t, -, hnarrow, hbegun', -⟩ := narrow.putGlyph hescape hmargin hg hchar
      cases as with
      | nil => exact absurd (List.cons.inj hgs).1 hg
      | cons a as =>
        obtain ⟨-, rfl⟩ := List.cons.inj hgs
        exact .heads hnarrow (fun htrue => by cases hbegun'.symm.trans htrue) rfl stuck
  | @starts ls line narrow hbegun hcontent stuck hend =>
    by_cases hg : g = .space true
    · -- the line ends, and it does not hold
      subst hg
      by_cases hline : line = []
      · subst hline
        exact .hangs (narrow.hang hwidth hbegun) (hmore rfl)
      · have hbroken := isBroken_of_not_free (Or.inr rfl) stuck
        have hnarrow := (narrow.endLine hwidth hmargin hbegun hline).1
        exact .sunk ⟨_, _, _, hnarrow.lined, ⟨line, by simp, hbroken⟩, List.suffix_rfl⟩
    · obtain ⟨t, ht, hnarrow, hbegun', hplain⟩ := narrow.putGlyph hescape hmargin hg
        fun htrue => by cases hbegun.symm.trans htrue
      obtain ⟨hcontent', hscan⟩ := hplain hcontent
      refine .starts hnarrow hbegun' hcontent' ?_ fun _ => List.append_ne_nil_of_right_ne_nil line ht
      rw [LineStart.scan_append, hscan, ← Free.cons_iff hg]
      exact stuck
  | hangs hanging hgs => exact .sunk (hanging.broken hwidth hescape hmargin g)
  | sunk broken => exact .sunk (broken.putGlyph g)

theorem foldl (hwidth : f.width = 1) (hescape : f.escape = escapeChar) (hmargin : p.margin = [])
    {rest : List Glyph} (hlast : (gs ++ rest).getLast? ≠ some (.space true)) (h : Sinking p (gs ++ rest)) :
    Sinking (gs.foldl (Page.putGlyph f .normal) p) rest := by
  have hkeeps := Page.foldl_keeps (f := f) .normal
    (fun p gs => gs.getLast? ≠ some (.space true) ∧ Sinking p gs)
    (fun p g gs hmargin ⟨hlast, h⟩ => ⟨?_, h.putGlyph hwidth hescape hmargin hlast⟩) hmargin ⟨hlast, h⟩
  · exact hkeeps.2
  · intro hspace
    rw [List.getLast?_cons, hspace] at hlast
    exact hlast rfl

/-- At the end of the glyphs, a line breaks the paragraph. -/
theorem finish (h : Sinking p []) : ∃ l ∈ Text.lines p.finish, isBroken l = true := by
  cases h with
  | heads _ _ hgs _ => simp at hgs
  | @starts ls line narrow _ _ stuck hend =>
    have hreversed := Page.reversed_of_none narrow.tail
    refine ⟨line, ?_, isBroken_of_not_free (Or.inl rfl) stuck⟩
    rw [Page.lines_finish (hreversed ▸ narrow.lined) (hend rfl)]
    simp
  | hangs _ hgs => exact absurd rfl hgs
  | sunk broken =>
    obtain ⟨ls, line, past, hlined, ⟨l, hl, hbroken⟩, hsuffix⟩ := broken
    exact ⟨l, Page.mem_lines_finish hlined hsuffix hl, hbroken⟩

end Sinking

/-! ## A whole paragraph -/

/-- The page, where the rest of the row breaks the paragraph. -/
structure RowSinking (p : Page) (row : List Content) : Prop where
  margin : p.margin = []
  oneLine : p.oneLine = false
  owed : p.owed = 0
  last : (rowGlyphs true (.space true) row).getLast? ≠ some (.space true)
  sinking : Sinking p (rowGlyphs true (.space true) row)

theorem Sinking.tight (on : Bool) (h : Sinking p gs) : Sinking { p with tightItem := on } gs := by
  cases h with
  | heads narrow hbegun hgs stuck =>
    exact .heads ⟨narrow.lined, narrow.tail, narrow.column, narrow.begun⟩ hbegun hgs stuck
  | starts narrow hbegun hcontent stuck hend =>
    exact .starts ⟨narrow.lined, narrow.tail, narrow.column, narrow.begun⟩ hbegun hcontent stuck hend
  | hangs hanging hgs =>
    exact .hangs ⟨hanging.lined, hanging.tail, hanging.column, hanging.begun⟩ hgs
  | sunk broken => exact .sunk broken

theorem RowSinking.chunk {c : Content} {row : List Content} (hc : isRunning c = true)
    (h : RowSinking p (c :: row)) :
    RowSinking (p.run (format {} 1) (chunk {} (effectiveWidth {} 1) c)) row := by
  have hsettle : p.settle = p := Page.settle_of_due (Page.due_of_owed h.owed)
  rw [run_chunk rfl hc (fun _ => Or.inr (by decide)) h.oneLine, hsettle]
  have hsetting := Page.setting_foldl (f := format {} 1) (p := p) .normal (contentGlyphs true (.space true) c)
  have hlast : (contentGlyphs true (.space true) c ++ rowGlyphs true (.space true) row).getLast? ≠
      some (.space true) := h.last
  exact {
    margin := (Page.margin_eq_of_setting hsetting).trans h.margin
    oneLine := (congrArg (·.2.2.1) hsetting).trans h.oneLine
    owed := (Page.owed_eq_of_setting hsetting).trans h.owed
    last := fun hspace => hlast (by rw [List.getLast?_append, hspace]; rfl)
    sinking := Sinking.foldl rfl rfl h.margin hlast h.sinking }

/-- A paragraph that is not smooth breaks apart on a page one column wide. -/
theorem exists_isBroken_of_not_smooth {s : Site} (hparagraph : s.content = .paragraph)
    (hrunning : ∀ n ∈ s.children.roots, isRunning n.content = true)
    (hleaf : s.children.AreLeaves fun n => isRunning n.content)
    (hsmooth : ¬Smooth (s.children.roots.map Node.content)) {d : Char} {t : Text}
    (hreading : reading (s.children.roots.map Node.content) = d :: t) (hspace : d ≠ ' ')
    (hlast : (d :: t).getLast? ≠ some ' ') : ∃ l ∈ Text.lines (render {} 1 s), isBroken l = true := by
  obtain ⟨as, bs, hgs, hstuck⟩ := exists_break_of_not_smooth hsmooth
  have hstart : RowSinking {} (s.children.roots.map Node.content) := {
    margin := rfl
    oneLine := rfl
    owed := rfl
    last := by
      rw [getLast?_rowGlyphs, hreading]
      intro hmap
      obtain ⟨c, hc, hglyph⟩ := Option.map_eq_some_iff.mp hmap
      unfold lastGlyph at hglyph
      split at hglyph
      · rename_i hblank
        exact hlast (hblank ▸ hc)
      · cases hglyph
    sinking := by
      obtain ⟨next, rest, hglyphs⟩ := rowGlyphs_of_head true (.space true) hreading hspace
      exact .heads ⟨.nil, rfl, rfl, fun _ => rfl⟩ (fun _ => ⟨d, next, rest, hglyphs⟩) hgs hstuck }
  obtain ⟨p, h, hrender⟩ := render_running {} 1 hparagraph
    (fun p row on h => ⟨h.margin, h.oneLine, h.owed, h.last, h.sinking.tight on⟩)
    (fun p c row hc h => h.chunk hc) hrunning hleaf hstart
  rw [hrender]
  exact h.sinking.finish

end CommonMark

namespace Document

open CommonMark

/-- In every session, a paragraph of texts and soft breaks keeps all its lines, whatever the
options and the width, if and only if it is smooth: what comes after each soft break, and
after each text that ends with a space, could stand at the start of a line. -/
theorem Session.smooth_paragraphs_hold (x : Session) {id : NodeId} {s : Site}
    (hs : x.document.site? id = some s) (hparagraph : s.content = .paragraph)
    (hrunning : ∀ n ∈ s.children.roots, isRunning n.content = true)
    (hne : reading (s.children.roots.map Node.content) ≠ [])
    (hfirst : (reading (s.children.roots.map Node.content)).head? ≠ some ' ')
    (hlast : (reading (s.children.roots.map Node.content)).getLast? ≠ some ' ') :
    (∀ (o : Options) (width : Nat), o.hardBreaks = false →
      ∃ page, x.document.render? id .commonMark o width = some page ∧
        ∀ l ∈ Text.lines page, isBroken l = false) ↔
      Smooth (s.children.roots.map Node.content) := by
  have hpage (o : Options) (width : Nat) :
      x.document.render? id .commonMark o width = some (render o width s) := by
    rw [render?, hs]
    rfl
  have hleaf := running_leaves_below x.sound hs
  obtain ⟨d, t, hreading⟩ := List.exists_cons_of_ne_nil hne
  have hspace : d ≠ ' ' := by
    rintro rfl
    exact hfirst (by rw [hreading]; rfl)
  constructor
  · intro h
    refine Classical.byContradiction fun hsmooth => ?_
    obtain ⟨l, hl, hbroken⟩ :=
      exists_isBroken_of_not_smooth hparagraph hrunning hleaf hsmooth hreading hspace (hreading ▸ hlast)
    obtain ⟨page, hrender, hholds⟩ := h {} 1 rfl
    cases (hpage {} 1).symm.trans hrender
    cases hbroken.symm.trans (hholds l hl)
  · intro hsmooth o width ho
    exact ⟨_, hpage o width, isBroken_of_smooth ho width hparagraph hrunning hleaf hsmooth hreading hspace⟩

/-- A soft break between two texts, and a dash within one. -/
theorem smooth_paragraphs_hold_dash :
    let x : Session := ⟨.new, [.create .paragraph, .appendChild 0 1, .create .text,
      .appendChild 1 2, .set 2 (.literal (some "1. a - b".toList)), .create .softBreak,
      .appendChild 1 3, .create .text, .appendChild 1 4, .set 4 (.literal (some "c".toList))]⟩
    let row : List Content := [.text "1. a - b".toList, .softBreak, .text "c".toList]
    ∃ s, (x.document.site? 1 = some s ∧ s.content = .paragraph ∧
        s.children.roots.map Node.content = row ∧
        (∀ n ∈ s.children.roots, isRunning n.content = true) ∧ reading row ≠ [] ∧
        (reading row).head? ≠ some ' ' ∧ (reading row).getLast? ≠ some ' ') ∧
      ((∀ (o : Options) (width : Nat), o.hardBreaks = false →
        ∃ page, x.document.render? 1 .commonMark o width = some page ∧
          ∀ l ∈ Text.lines page, isBroken l = false) ↔
        Smooth row) := by
  intro x row
  have hsite : (x.document.site? 1).map (fun s => (s.content, s.children.roots.map Node.content)) =
      some (.paragraph, row) := by decide +kernel
  obtain ⟨s, hs, heq⟩ := Option.map_eq_some_iff.mp hsite
  obtain ⟨hparagraph, hrow⟩ := Prod.mk.inj heq
  have hrunning : ∀ n ∈ s.children.roots, isRunning n.content = true := by
    have hall : ∀ c ∈ row, isRunning c = true := by decide
    exact fun n hn => hall _ (hrow ▸ List.mem_map_of_mem hn)
  have hne : reading row ≠ [] := by decide
  have hfirst : (reading row).head? ≠ some ' ' := by decide
  have hlast : (reading row).getLast? ≠ some ' ' := by decide
  refine ⟨s, ⟨hs, hparagraph, hrow, hrunning, hne, hfirst, hlast⟩, ?_⟩
  have h := x.smooth_paragraphs_hold hs hparagraph hrunning (hrow ▸ hne) (hrow ▸ hfirst) (hrow ▸ hlast)
  rwa [hrow] at h

/-- A soft break in front of a dash: the line that breaks there leaves the dash at the start
of the next one. -/
theorem dash_begins_line :
    let x : Session := ⟨.new, [.create .paragraph, .appendChild 0 1, .create .text,
      .appendChild 1 2, .set 2 (.literal (some "aaaa".toList)), .create .softBreak,
      .appendChild 1 3, .create .text, .appendChild 1 4, .set 4 (.literal (some "- b".toList))]⟩
    ∃ page, x.document.render? 1 .commonMark {} 4 = some page ∧
      "- b".toList ∈ Text.lines page ∧ isBroken "- b".toList = true := by
  intro x
  have hpage : x.document.render? 1 .commonMark {} 4 = some "aaaa\n- b\n".toList := by decide +kernel
  exact ⟨_, hpage, by decide, rfl⟩

end Document

end MarkupTree
