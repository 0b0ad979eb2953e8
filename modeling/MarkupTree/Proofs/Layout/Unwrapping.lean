-- Wrapping against not wrapping. A page of some width and a page without one follow the
-- same chunks side by side: the first is the second with line feeds, each with the margin
-- after it, in the place of some spaces. Nothing else may differ, so the escape must not
-- look at the character before it once the content of the line has begun.
import MarkupTree.Proofs.Layout.Margins

namespace MarkupTree

namespace Layout

/-! ## Texts folded into lines -/

/-- The first text is the second one with a line feed and the margin in the place of some
of its spaces. -/
inductive Folded (margin : Text) : Text → Text → Prop
  | nil : Folded margin [] []
  | char {c : Char} {t u : Text} : c ≠ '\n' → Folded margin t u → Folded margin (c :: t) (c :: u)
  | fold {t u : Text} : Folded margin t u → Folded margin ('\n' :: (margin ++ t)) (' ' :: u)

/-- The text with a space for each line feed that has the margin after it, where the first
`skip` characters are left out. -/
def unfoldedFrom (margin : Text) : Nat → Text → Text
  | _, [] => []
  | skip + 1, _ :: cs => unfoldedFrom margin skip cs
  | 0, c :: cs =>
    if c = '\n' ∧ margin.isPrefixOf cs = true then ' ' :: unfoldedFrom margin margin.length cs
    else c :: unfoldedFrom margin 0 cs

/-- The text with one space for each line feed with the margin after it. -/
def unfolded (margin t : Text) : Text := unfoldedFrom margin 0 t

example : unfolded "> ".toList "> a\n> b c\n>".toList = "> a b c\n>".toList := by decide

theorem unfoldedFrom_append (margin t u : Text) :
    unfoldedFrom margin t.length (t ++ u) = unfolded margin u := by
  induction t with
  | nil => rfl
  | cons c t ih => exact ih

namespace Folded

variable {margin t u t' u' : Text}

theorem ofLine (h : '\n' ∉ t) : Folded margin t t := by
  induction t with
  | nil => exact .nil
  | cons c t ih =>
    obtain ⟨hc, ht⟩ : '\n' ≠ c ∧ '\n' ∉ t := by simpa using h
    exact .char (Ne.symm hc) (ih ht)

theorem append (h : Folded margin t u) (h' : Folded margin t' u') :
    Folded margin (t ++ t') (u ++ u') := by
  induction h with
  | nil => exact h'
  | char hc _ ih => exact .char hc ih
  | fold _ ih =>
    have hfold := ih.fold
    simpa using hfold

/-- Unfolding gives the text that was folded. -/
theorem unfolded_eq (h : Folded margin t u) : unfolded margin t = u := by
  induction h with
  | nil => rfl
  | @char c t u hc _ ih =>
    rw [unfolded, unfoldedFrom, if_neg (by simp [hc])]
    exact congrArg (c :: ·) ih
  | @fold t u _ ih =>
    have hprefix : margin.isPrefixOf (margin ++ t) = true :=
      List.isPrefixOf_iff_prefix.mpr (List.prefix_append margin t)
    rw [unfolded, unfoldedFrom, if_pos ⟨rfl, hprefix⟩, unfoldedFrom_append, ih]

end Folded

/-! ## One page -/

namespace Page

variable {p q : Page} {f : Format} {t u : Text}

/-- What stands from the last breakable space on. -/
def pending (p : Page) : Text :=
  match p.tail with
  | none => []
  | some t => ' ' :: t.reverse

theorem text_eq_pending (p : Page) : p.text = p.past.reverse ++ p.pending := by
  cases h : p.tail with
  | none => simp [text, reversed, pending, h]
  | some t => simp [text, reversed, pending, h]

theorem beginLine_write (t : Text) : (p.write t).beginLine = p.beginLine := by
  unfold write
  split <;> rfl

theorem beginContent_write (t : Text) : (p.write t).beginContent = p.beginContent := by
  unfold write
  split <;> rfl

theorem beginContent_putSpace (hbegun : p.beginLine = false) (breaks : Bool) :
    (p.putSpace breaks).beginContent = false := by
  unfold putSpace
  rw [if_neg (by simp [hbegun])]
  cases breaks with
  | true => rfl
  | false => cases p.tail <;> rfl

/-- The page shows the text, folded at spaces that are before the last breakable one. -/
structure FoldsTo (p : Page) (u : Text) : Prop where
  past : ∃ v, Folded p.margin p.past.reverse v ∧ u = v ++ p.pending
  tail : ∀ t, p.tail = some t → '\n' ∉ t

namespace FoldsTo

theorem newline_notMem_pending (h : p.FoldsTo u) : '\n' ∉ p.pending := by
  unfold pending
  split
  · exact List.not_mem_nil
  · rename_i t ht
    simpa using h.tail t ht

theorem text (h : p.FoldsTo u) : Folded p.margin p.text u := by
  obtain ⟨v, hv, rfl⟩ := h.past
  rw [text_eq_pending]
  exact hv.append (.ofLine h.newline_notMem_pending)

theorem write (h : p.FoldsTo u) (ht : '\n' ∉ t) : (p.write t).FoldsTo (u ++ t) := by
  obtain ⟨v, hv, rfl⟩ := h.past
  unfold Page.write
  cases htail : p.tail with
  | none =>
    refine ⟨⟨v ++ t, ?_, by simp [pending, htail]⟩, nofun⟩
    simpa using hv.append (.ofLine ht)
  | some s =>
    refine ⟨⟨v, hv, by simp [pending, htail]⟩, ?_⟩
    intro s' hs'
    cases hs'
    simpa [ht] using h.tail s htail

theorem putSpace (h : p.FoldsTo u) (hbegun : p.beginLine = false) (breaks : Bool) :
    (p.putSpace breaks).FoldsTo (u ++ [' ']) := by
  unfold Page.putSpace
  rw [if_neg (by simp [hbegun])]
  cases breaks with
  | true => exact ⟨⟨u, h.text, rfl⟩, by simp⟩
  | false =>
    have hspace := h.write (t := [' ']) (by decide)
    unfold Page.write at hspace
    cases htail : p.tail with
    | none =>
      rw [htail] at hspace
      exact ⟨hspace.past, hspace.tail⟩
    | some s =>
      rw [htail] at hspace
      exact ⟨hspace.past, hspace.tail⟩

/-- A wrap folds the text at the last breakable space. -/
theorem wrap (h : p.FoldsTo u) : (p.wrap f).FoldsTo u := by
  unfold Page.wrap
  split
  · exact h
  · cases htail : p.tail with
    | none => exact h
    | some t =>
      obtain ⟨v, hv, rfl⟩ := h.past
      refine ⟨⟨v ++ p.pending, ?_, by simp [pending]⟩, nofun⟩
      have hline : Folded p.margin t.reverse t.reverse := .ofLine (by simpa using h.tail t htail)
      simpa [pending, htail] using hv.append hline.fold

end FoldsTo

/-! ## Two pages side by side -/

end Page

/-- Once the content of a line has begun, the escape does not look at what stands before,
and it writes no line feed of its own. -/
structure Steady (escape : Escape) : Prop where
  last : ∀ mode last last' c next, escape mode last c next false = escape mode last' c next false
  unbroken : Unbroken escape

namespace Page

variable {p q : Page} {width : Nat} {escape : Escape} {mode : Mode} {c : Char} {t : Text}

/-- The pages have taken the same chunks, and `p` may have folded its text. -/
structure Alike (p q : Page) : Prop where
  setting : p.setting = q.setting
  beginLine : p.beginLine = q.beginLine
  beginContent : p.beginContent = q.beginContent
  text : p.FoldsTo q.text
  /-- Where a line may still break, its content has begun. -/
  tail : p.tail ≠ none → p.beginContent = false
  /-- Until the content begins, there is nothing to fold. -/
  same : p.beginContent = true → p.reversed = q.reversed

namespace Alike

theorem margin (h : Alike p q) : p.margin = q.margin := margin_eq_of_setting h.setting

theorem wrap (h : Alike p q) (f : Format) : Alike (p.wrap f) q where
  setting := setting_wrap.trans h.setting
  beginLine := by
    rcases wrap_cases f p with hwrap | ⟨t, -, hbegun, -, hwrap⟩
    · rw [hwrap]
      exact h.beginLine
    · rw [hwrap, ← hbegun]
      exact h.beginLine
  beginContent := by
    unfold Page.wrap
    split
    · exact h.beginContent
    · split
      · exact h.beginContent
      · rename_i t ht
        have hfalse := h.tail (by simp [ht])
        exact hfalse.symm.trans h.beginContent
  text := h.text.wrap
  tail := by
    unfold Page.wrap
    split
    · exact h.tail
    · split
      · exact h.tail
      · exact fun _ => rfl
  same := by
    unfold Page.wrap
    split
    · exact h.same
    · split
      · exact h.same
      · nofun

theorem putSpace (h : Alike p q) (breaks : Bool) : Alike (p.putSpace breaks) (q.putSpace breaks) := by
  have hsetting : (p.putSpace breaks).setting = (q.putSpace breaks).setting := by
    rw [setting_putSpace, setting_putSpace]
    exact h.setting
  cases hbegin : p.beginLine with
  | true =>
    rw [Page.putSpace, if_pos hbegin, Page.putSpace, if_pos (h.beginLine ▸ hbegin)]
    exact h
  | false =>
    have hbegin' : q.beginLine = false := h.beginLine ▸ hbegin
    have hcontent := beginContent_putSpace hbegin breaks
    refine ⟨hsetting, ?_, ?_, ?_, fun _ => hcontent, ?_⟩
    · rw [beginLine_putSpace, beginLine_putSpace]
      exact h.beginLine
    · rw [hcontent, beginContent_putSpace hbegin' breaks]
    · have htext : (q.putSpace breaks).text = q.text ++ [' '] := by
        simp [Page.text, reversed_putSpace, hbegin']
      rw [htext]
      exact h.text.putSpace hbegin breaks
    · rw [hcontent]
      intro hfalse
      cases hfalse

theorem write (h : Alike p q) (ht : '\n' ∉ t) : Alike (p.write t) (q.write t) where
  setting := by
    rw [setting_write, setting_write]
    exact h.setting
  beginLine := by
    rw [beginLine_write, beginLine_write]
    exact h.beginLine
  beginContent := by
    rw [beginContent_write, beginContent_write]
    exact h.beginContent
  text := by
    rw [text_write]
    exact h.text.write ht
  tail htail := by
    rw [beginContent_write]
    apply h.tail
    rw [tail_write] at htail
    exact mt Option.map_eq_none_iff.mpr htail
  same hbegin := by
    rw [beginContent_write] at hbegin
    rw [reversed_write, reversed_write, h.same hbegin]

theorem startLine (h : Alike p q) (hmargin : '\n' ∉ p.margin) (hc : c ≠ '\n') :
    Alike (p.startLine c) (q.startLine c) := by
  unfold Page.startLine
  rw [if_neg hc, if_neg hc, ← h.margin, ← h.beginLine]
  split
  · have hwrite := h.write hmargin
    exact ⟨hwrite.setting, hwrite.beginLine, hwrite.beginContent, ⟨hwrite.text.past, hwrite.text.tail⟩,
      hwrite.tail, hwrite.same⟩
  · exact h

/-- Both pages write a character in the same way. -/
theorem ink_eq (h : Alike p q) (hescape : Steady escape) (next : Option Char) :
    ink ⟨width, escape⟩ mode c next p = ink ⟨0, escape⟩ mode c next q := by
  unfold ink
  split
  · rfl
  · dsimp only
    rw [← h.beginContent]
    -- the escape may look back while the content begins, and there is nothing folded yet
    cases hbegin : p.beginContent with
    | true => rw [h.same hbegin]
    | false => exact hescape.last mode _ _ c next

theorem putChar (h : Alike p q) (hescape : Steady escape) (hmargin : '\n' ∉ p.margin) (hc : c ≠ '\n')
    (next : Option Char) :
    Alike (p.putChar ⟨width, escape⟩ mode c next) (q.putChar ⟨0, escape⟩ mode c next) := by
  have hstart := h.startLine hmargin hc
  have hink := newline_notMem_ink (f := ⟨0, escape⟩) (p := q.startLine c) hescape.unbroken hc mode next
  have hwrite := hstart.write hink
  rw [putChar_of_ne hc, putChar_of_ne hc, hstart.ink_eq hescape]
  refine ⟨hwrite.setting, rfl, ?_, ⟨hwrite.text.past, hwrite.text.tail⟩, ?_, ?_⟩
  · simp [hstart.beginContent]
  · intro htail
    have hfalse := hwrite.tail htail
    rw [beginContent_write] at hfalse
    simp [hfalse]
  · intro hbegin
    have htrue : (p.startLine c).beginContent = true := (Bool.and_eq_true_iff.mp hbegin).1
    exact hwrite.same (by rw [beginContent_write, htrue])

theorem putGlyph (h : Alike p q) (hescape : Steady escape) (hmargin : '\n' ∉ p.margin) {g : Glyph}
    (hg : ∀ c next, g = .char c next → c ≠ '\n') :
    Alike (p.putGlyph ⟨width, escape⟩ mode g) (q.putGlyph ⟨0, escape⟩ mode g) := by
  cases g with
  | space breaks =>
    show Alike ((p.putSpace breaks).wrap _) ((q.putSpace breaks).wrap _)
    rw [wrap_of_width (p := q.putSpace breaks) rfl]
    exact (h.putSpace breaks).wrap _
  | char c next =>
    -- only the page with a width wraps, and a wrap folds what it shows
    show Alike ((p.putChar _ mode c next).wrap _) ((q.putChar _ mode c next).wrap _)
    rw [wrap_of_width (p := q.putChar _ mode c next) rfl]
    exact (h.putChar hescape hmargin (hg c next rfl) next).wrap _

theorem foldl (h : Alike p q) (hescape : Steady escape) (hmargin : '\n' ∉ p.margin) {gs : List Glyph}
    (hgs : ∀ c next, Glyph.char c next ∈ gs → c ≠ '\n') :
    Alike (gs.foldl (Page.putGlyph ⟨width, escape⟩ mode) p)
      (gs.foldl (Page.putGlyph ⟨0, escape⟩ mode) q) := by
  induction gs generalizing p q with
  | nil => exact h
  | cons g gs ih =>
    have hstep : Alike (p.putGlyph ⟨width, escape⟩ mode g) (q.putGlyph ⟨0, escape⟩ mode g) := by
      apply h.putGlyph hescape hmargin
      intro c next hg
      exact hgs c next (hg ▸ List.mem_cons_self)
    have hmargin' : (p.putGlyph ⟨width, escape⟩ mode g).margin = p.margin :=
      margin_eq_of_setting (setting_putGlyph mode g)
    exact ih hstep (hmargin' ▸ hmargin) fun c next hg => hgs c next (List.mem_cons_of_mem g hg)

/-- A chunk of one line keeps the pages alike, where no line break is owed. -/
theorem put (h : Alike p q) (hescape : Steady escape) (hmargin : '\n' ∉ p.margin) (howed : p.owed = 0)
    (ht : '\n' ∉ t) (wrap : Bool) :
    Alike (p.put ⟨width, escape⟩ t wrap mode) (q.put ⟨0, escape⟩ t wrap mode) := by
  have howed' : q.owed = 0 := (owed_eq_of_setting h.setting).symm.trans howed
  have hline : p.oneLine = q.oneLine := congrArg (·.2.2.1) h.setting
  unfold Page.put
  rw [settle_of_due (due_of_owed howed), settle_of_due (due_of_owed howed'), hline]
  apply h.foldl hescape hmargin
  rintro c next hg rfl
  exact ht (char_mem_of_glyph hg)

end Alike

end Page

/-! ## Rows of chunks -/

/-- The instruction writes a chunk of one line, in any way. -/
def Instruction.writesLine : Instruction → Prop
  | .put t _ _ => '\n' ∉ t
  | _ => False

theorem Page.Alike.run {p q : Page} {width : Nat} {escape : Escape} (h : Alike p q)
    (hescape : Steady escape) (hmargin : '\n' ∉ p.margin) (howed : p.owed = 0)
    {is : List Instruction} (his : ∀ i ∈ is, i.writesLine) :
    Alike (p.run ⟨width, escape⟩ is) (q.run ⟨0, escape⟩ is) := by
  induction is generalizing p q with
  | nil => exact h
  | cons i is ih =>
    obtain ⟨hi, hrest⟩ := List.forall_mem_cons.mp his
    cases i with
    | put t wrap mode =>
      have hmargin' := margin_put (f := ⟨width, escape⟩) (p := p) t wrap mode
      exact ih (h.put hescape hmargin howed hi wrap) (hmargin' ▸ hmargin) (owed_put t wrap mode) hrest
    | _ => cases hi

/-- Chunks of one line each, on a page with a margin of one line: whatever the width, each
line feed with the margin after it stands for a space of the page that has no width. -/
theorem unfolded_run {escape : Escape} (hescape : Steady escape) {margin : Text}
    (hmargin : '\n' ∉ margin) (width : Nat) {is : List Instruction} (his : ∀ i ∈ is, i.writesLine) :
    unfolded margin (Page.run ⟨width, escape⟩ (.indent margin :: is) {}).text =
      (Page.run ⟨0, escape⟩ (.indent margin :: is) {}).text := by
  have hfresh : Page.Alike { margin } { margin } :=
    ⟨rfl, rfl, rfl, ⟨⟨[], .nil, rfl⟩, nofun⟩, nofun, fun _ => rfl⟩
  have hrun : (Page.run ⟨width, escape⟩ is { margin }).margin = margin := by
    rw [Page.margin_run]
    apply marginAfter_of_keepsMargin
    apply List.all_eq_true.mpr
    intro i hi
    have hwrites := his i hi
    cases i with
    | put => rfl
    | _ => cases hwrites
  have halike : Page.Alike (Page.run ⟨width, escape⟩ is { margin })
      (Page.run ⟨0, escape⟩ is { margin }) := hfresh.run hescape hmargin rfl his
  have htext := halike.text.text
  rw [hrun] at htext
  exact htext.unfolded_eq

end Layout

end MarkupTree
