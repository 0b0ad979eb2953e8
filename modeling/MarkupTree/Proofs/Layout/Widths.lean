-- Lines that are wider than the page. A line breaks at its last breakable space, so one
-- that stays too wide has none: each space that it holds behind its margin stands directly
-- in front of a character that could begin a block. The characters of the chunks are
-- followed to the lines that they are set on.
import MarkupTree.Proofs.Layout.Bookkeeping

namespace MarkupTree

namespace Layout

/-! ## The characters of chunks -/

/-- A digit, or a sign with which a block may begin. -/
def guards (c : Char) : Bool := c.isDigit || ['-', '+', '*', '=', '#', '>'].contains c

/-- A character of a chunk, and whether one that guards against a break stands directly
after it in the chunk. -/
structure Mark where
  char : Char
  guarded : Bool
  deriving DecidableEq, Repr

/-- The characters of a chunk. -/
def marks : Text → List Mark
  | [] => []
  | c :: cs => ⟨c, cs.head?.any guards⟩ :: marks cs

example : marks "a 1 b".toList =
    [⟨'a', false⟩, ⟨' ', true⟩, ⟨'1', false⟩, ⟨' ', false⟩, ⟨'b', false⟩] := by decide

namespace Mark

/-- Neither a space nor a line feed. -/
def isInk (m : Mark) : Bool := m.char != ' ' && m.char != '\n'

/-- Every space of the row is guarded. -/
def Calm (row : List Mark) : Prop := ∀ m ∈ row, m.char = ' ' → m.guarded = true

theorem Calm.append {row row' : List Mark} (h : Calm row) (h' : Calm row') : Calm (row ++ row') :=
  List.forall_mem_append.mpr ⟨h, h'⟩

theorem calm_singleton {m : Mark} (h : m.char = ' ' → m.guarded = true) : Calm [m] :=
  List.forall_mem_singleton.mpr h

end Mark

/-- What is kept is the row without some of its spaces and line feeds. -/
structure Thins (row kept : List Mark) : Prop where
  sublist : kept.Sublist row
  ink : kept.filter Mark.isInk = row.filter Mark.isInk

namespace Thins

variable {row row' kept kept' : List Mark} {m : Mark}

theorem refl (row : List Mark) : Thins row row := ⟨.refl row, rfl⟩

theorem trans (h : Thins row row') (h' : Thins row' kept) : Thins row kept :=
  ⟨h'.sublist.trans h.sublist, h'.ink.trans h.ink⟩

theorem append (h : Thins row kept) (h' : Thins row' kept') : Thins (row ++ row') (kept ++ kept') where
  sublist := h.sublist.append h'.sublist
  ink := by rw [List.filter_append, List.filter_append, h.ink, h'.ink]

/-- A space or a line feed may be left out. -/
theorem drop (hm : m.isInk = false) : Thins [m] [] where
  sublist := List.nil_sublist _
  ink := by simp [hm]

end Thins

/-- What a glyph shows. -/
def Glyph.mark : Glyph → Mark
  | .space breaks => ⟨' ', !breaks⟩
  | .char c next => ⟨c, next.any guards⟩

/-- The glyphs of a chunk are its characters, where a row of spaces counts once. -/
theorem thins_glyphs (t : Text) : Thins (marks t) ((glyphs true t).map Glyph.mark) := by
  induction t with
  | nil => exact .refl []
  | cons c cs ih =>
    have hstarts : startsBlock = guards := by
      funext d
      rw [Bool.eq_iff_iff]
      simp [startsBlock, guards, or_assoc]
    by_cases hc : c = ' '
    · subst hc
      by_cases hhead : cs.head? = some ' '
      · have hglyphs : glyphs true (' ' :: cs) = glyphs true cs := by simp [glyphs, hhead]
        rw [hglyphs]
        exact (Thins.drop (m := ⟨' ', cs.head?.any guards⟩) rfl).append ih
      · have hglyphs : glyphs true (' ' :: cs) =
            .space (!cs.head?.any startsBlock) :: glyphs true cs := by
          simp [glyphs, hhead]
        rw [hglyphs, hstarts, List.map_cons, Glyph.mark, Bool.not_not]
        exact (Thins.refl [_]).append ih
    · have hglyphs : glyphs true (c :: cs) = .char c cs.head? :: glyphs true cs := by simp [glyphs, hc]
      rw [hglyphs]
      exact (Thins.refl [_]).append ih

theorem space_notMem_glyphs {t : Text} {next : Option Char} : Glyph.char ' ' next ∉ glyphs true t := by
  induction t with
  | nil => exact List.not_mem_nil
  | cons c cs ih =>
    by_cases hc : c = ' '
    · subst hc
      by_cases hhead : cs.head? = some ' ' <;> simp [glyphs, hhead, ih]
    · simp [glyphs, hc, Ne.symm hc, ih]

/-! ## Lines of characters -/

/-- The line is wider than the page. Nothing is wider than a page without a width. -/
def TooWide (width : Nat) (line : Text) : Prop := width ≠ 0 ∧ width < line.length

/-- A line of the output: what stands in front, and the characters of chunks after it. -/
structure SetLine where
  lead : Text
  row : List Mark

namespace SetLine

def text (l : SetLine) : Text := l.lead ++ l.row.map Mark.char

/-- The line starts with the margin, of which an empty line may have less. If it is too
wide, every space behind the margin is guarded. -/
structure Fits (width : Nat) (margin : Text) (l : SetLine) : Prop where
  lead : l.lead = margin ∨ l.row = [] ∧ l.lead <+: margin
  calm : TooWide width l.text → Mark.Calm l.row

theorem fits_empty {width : Nat} {margin lead : Text} (h : lead <+: margin) :
    Fits width margin ⟨lead, []⟩ :=
  ⟨Or.inr ⟨rfl, h⟩, fun _ => nofun⟩

end SetLine

/-- The characters of the lines. -/
def setRows (ls : List SetLine) : List Mark := ls.flatMap SetLine.row

theorem setRows_append (ls ls' : List SetLine) : setRows (ls ++ ls') = setRows ls ++ setRows ls' :=
  List.flatMap_append

theorem setRows_singleton (l : SetLine) : setRows [l] = l.row := List.flatMap_singleton _ _

theorem setRows_concat (ls : List SetLine) (lead lead' : Text) (row : List Mark) (m : Mark) :
    setRows (ls ++ [⟨lead, row ++ [m]⟩]) = setRows (ls ++ [⟨lead', row⟩]) ++ [m] := by
  simp [setRows]

/-- Characters are written as they are. -/
def verbatim : Escape := fun _ _ c _ _ => [c]

theorem unbroken_verbatim : Unbroken verbatim := by
  intro mode last c next begins _ hc
  simpa [verbatim] using Ne.symm hc

namespace Page

variable {width : Nat} {margin : Text} {p : Page} {done : List SetLine} {line : SetLine} {mode : Mode}

/-- The characters `t`, the last one first, hang behind the last breakable space of the
row. No space among them can break, and the line would fit if it ended in front. -/
def Hangs (width : Nat) (margin : Text) (row : List Mark) (t : List Char) : Prop :=
  ∃ front back, row = front ++ ⟨' ', false⟩ :: back ∧ t.reverse = back.map Mark.char ∧
    Mark.Calm back ∧ SetLine.Fits width margin ⟨margin, front⟩

theorem Hangs.append {row : List Mark} {t : List Char} (h : Hangs width margin row t) {m : Mark}
    (hm : m.char = ' ' → m.guarded = true) : Hangs width margin (row ++ [m]) (m.char :: t) := by
  obtain ⟨front, back, rfl, ht, hback, hfits⟩ := h
  refine ⟨front, back ++ [m], by simp, ?_, hback.append (Mark.calm_singleton hm), hfits⟩
  rw [List.reverse_cons, ht, List.map_append, List.map_singleton]

/-- The page shows the lines `done` and the line that goes on. -/
structure Typeset (width : Nat) (margin : Text) (done : List SetLine) (line : SetLine) (p : Page) : Prop
    where
  books : p.Books (done.map SetLine.text) line.text
  margin_eq : p.margin = margin
  fits : ∀ l ∈ done, l.Fits width margin
  starts : p.beginLine = true → line = ⟨[], []⟩
  lead : p.beginLine = false → line.lead = margin
  /-- Where there is no breakable space, all of the spaces are guarded. -/
  calm : p.tail = none → Mark.Calm line.row
  tail : ∀ t, p.tail = some t → Hangs width margin line.row t

/-- A line that can break is not too wide. -/
def Settled (width : Nat) (p : Page) : Prop := p.tail ≠ none → width = 0 ∨ p.column ≤ width

namespace Typeset

/-- The line that goes on fits. -/
theorem fits_line (h : Typeset width margin done line p) (hsettled : p.Settled width) :
    line.Fits width margin := by
  cases hbegins : p.beginLine with
  | true =>
    rw [h.starts hbegins]
    exact SetLine.fits_empty (List.nil_prefix)
  | false =>
    refine ⟨Or.inl (h.lead hbegins), ?_⟩
    intro hwide
    by_cases htail : p.tail = none
    · exact h.calm htail
    · have hbegun : p.column = line.text.length := by
        cases h.books with
        | fresh htrue => cases hbegins.symm.trans htrue
        | begun _ hbegun => exact hbegun.column
      obtain ⟨hzero, hlt⟩ := hwide
      have hle := (hsettled htail).resolve_left hzero
      omega

end Typeset

/-- The page shows the row of characters, some spaces and line feeds left out, on lines
that fit. -/
def Shows (width : Nat) (margin : Text) (row : List Mark) (p : Page) : Prop :=
  ∃ done line, Typeset width margin done line p ∧ p.Settled width ∧ Thins row (setRows (done ++ [line]))

theorem Shows.thin {row row' : List Mark} (h : p.Shows width margin row') (hthins : Thins row row') :
    p.Shows width margin row := by
  obtain ⟨done, line, htypeset, hsettled, hrow⟩ := h
  exact ⟨done, line, htypeset, hsettled, hthins.trans hrow⟩

namespace Typeset

/-- A line that is too wide ends in front of its last breakable space. -/
theorem wrap (h : Typeset width margin done line p) (hbegins : p.beginLine = false) :
    (p.wrap ⟨width, verbatim⟩).Shows width margin (setRows (done ++ [line])) := by
  cases h.books with
  | fresh htrue => cases hbegins.symm.trans htrue
  | begun _ hbegun =>
    rcases hbegun.wrap hbegins ⟨width, verbatim⟩ with
      ⟨hwrap, hstay⟩ | ⟨first, t, htail, hline, hnone, hbegins', hbegun'⟩
    · rw [hwrap]
      refine ⟨done, line, h, ?_, .refl _⟩
      intro htail
      rcases hstay with hzero | hle | hnone
      · exact Or.inl hzero
      · exact Or.inr hle
      · exact absurd hnone htail
    · -- the last breakable space goes, and what hangs behind it has none
      obtain ⟨front, back, hrow, ht, hback, hfits⟩ := h.tail t htail
      have hfirst : first = (SetLine.mk margin front).text := by
        rw [SetLine.text, h.lead hbegins, hrow, ht, List.map_append, List.map_cons,
          ← List.append_assoc] at hline
        exact (List.append_cancel_right hline).symm
      have hmargin : (p.wrap ⟨width, verbatim⟩).margin = margin :=
        (margin_eq_of_setting setting_wrap).trans h.margin_eq
      refine ⟨done ++ [⟨margin, front⟩], ⟨margin, back⟩, ⟨?books, hmargin, ?fits, ?starts, fun _ => rfl,
        fun _ => hback, ?tail⟩, fun hsome => absurd hnone hsome, ?row⟩
      case books =>
        rw [hfirst, ht, h.margin_eq] at hbegun'
        rw [List.map_append, List.map_singleton]
        exact .begun hbegins' hbegun'
      case fits =>
        exact List.forall_mem_append.mpr ⟨h.fits, List.forall_mem_singleton.mpr hfits⟩
      case starts =>
        intro htrue
        cases hbegins'.symm.trans htrue
      case tail =>
        intro t ht
        cases hnone.symm.trans ht
      case row =>
        have hspace : Thins [⟨' ', false⟩] [] := .drop rfl
        have hline := ((Thins.refl front).append hspace).append (Thins.refl back)
        simp only [setRows_append, setRows_singleton, hrow, List.append_assoc]
        exact (Thins.refl _).append (by simpa using hline)

/-- A space goes behind the line, where it may become the last breakable one. -/
theorem putSpace (h : Typeset width margin done line p) (hsettled : p.Settled width)
    (hbegins : p.beginLine = false) (breaks : Bool) :
    Typeset width margin done ⟨margin, line.row ++ [⟨' ', !breaks⟩]⟩ (p.putSpace breaks) := by
  have hbegins' : (p.putSpace breaks).beginLine = false := by
    rw [beginLine_putSpace]
    exact hbegins
  have htext : line.text ++ [' '] = (SetLine.mk margin (line.row ++ [⟨' ', !breaks⟩])).text := by
    simp [SetLine.text, h.lead hbegins]
  have hbooks := h.books.putSpace breaks
  rw [hbegins, if_neg Bool.false_ne_true, htext] at hbooks
  refine ⟨hbooks, (margin_eq_of_setting (setting_putSpace breaks)).trans h.margin_eq, h.fits, ?starts,
    fun _ => rfl, ?calm, ?tail⟩
  case starts =>
    intro htrue
    cases hbegins'.symm.trans htrue
  case calm =>
    intro hnone
    rw [tail_putSpace hbegins] at hnone
    cases breaks with
    | true => cases hnone
    | false =>
      have hcalm := h.calm (Option.map_eq_none_iff.mp hnone)
      exact hcalm.append (Mark.calm_singleton fun _ => rfl)
  case tail =>
    intro t ht
    rw [tail_putSpace hbegins] at ht
    cases breaks with
    | true =>
      cases ht
      have hfits := h.fits_line hsettled
      rw [show line = ⟨margin, line.row⟩ by rw [← h.lead hbegins]] at hfits
      exact ⟨line.row, [], rfl, rfl, nofun, hfits⟩
    | false =>
      obtain ⟨u, hu, rfl⟩ := Option.map_eq_some_iff.mp ht
      exact (h.tail u hu).append (m := ⟨' ', true⟩) fun _ => rfl

/-- A character goes behind the line, or behind the margin of a new one. -/
theorem putChar (h : Typeset width margin done line p) {m : Mark} (hspace : m.char ≠ ' ')
    (hbreak : m.char ≠ '\n') (next : Option Char) :
    Typeset width margin done ⟨margin, line.row ++ [m]⟩
      (p.putChar ⟨width, verbatim⟩ mode m.char next) := by
  have hbegins : (p.putChar ⟨width, verbatim⟩ mode m.char next).beginLine = false := by
    rw [putChar_of_ne hbreak]
  have hink : ink ⟨width, verbatim⟩ mode m.char next (p.startLine m.char) = [m.char] := by
    unfold ink
    split <;> rfl
  have hcalm : m.char = ' ' → m.guarded = true := fun hc => absurd hc hspace
  have htext : Books.startOf p line.text ++ [m.char] = (SetLine.mk margin (line.row ++ [m])).text := by
    unfold Books.startOf
    split
    · rename_i htrue
      rw [h.starts htrue, h.margin_eq]
      rfl
    · rename_i hfalse
      rw [Bool.not_eq_true] at hfalse
      simp [SetLine.text, h.lead hfalse]
  have hbegun : Begun (done.map SetLine.text)
      (Books.startOf p line.text ++ ink ⟨width, verbatim⟩ mode m.char next (p.startLine m.char))
      (p.putChar ⟨width, verbatim⟩ mode m.char next) := h.books.putChar unbroken_verbatim hbreak next
  rw [hink, htext] at hbegun
  have htail : (p.putChar ⟨width, verbatim⟩ mode m.char next).tail = p.tail.map (m.char :: ·) := by
    have hstart : (p.startLine m.char).tail = p.tail := by
      cases h.books with
      | fresh hbegins _ _ _ hnone =>
        rw [Page.startLine, if_pos hbegins]
        exact (tail_write _).trans (by rw [hnone]; rfl)
      | begun hbegins _ => rw [Page.startLine, if_neg (by simp [hbegins])]
    rw [putChar_of_ne hbreak, hink]
    exact (tail_write _).trans (by rw [hstart]; rfl)
  refine ⟨.begun hbegins hbegun, (margin_eq_of_setting (setting_putChar _ _ _)).trans h.margin_eq,
    h.fits, ?starts, fun _ => rfl, ?calm, ?tail⟩
  case starts =>
    intro htrue
    cases hbegins.symm.trans htrue
  case calm =>
    intro hnone
    rw [htail] at hnone
    exact (h.calm (Option.map_eq_none_iff.mp hnone)).append (Mark.calm_singleton hcalm)
  case tail =>
    intro t ht
    rw [htail] at ht
    obtain ⟨u, hu, rfl⟩ := Option.map_eq_some_iff.mp ht
    exact (h.tail u hu).append hcalm

/-- A page that begins its next line shows what it did, where the lines that it has more
hold the characters of the line that went on. -/
theorem shows_next (h : Typeset width margin done line p) {q : Page} (more : List SetLine)
    (hbooks : q.Books ((done ++ more).map SetLine.text) []) (hmargin : q.margin = p.margin)
    (hbegins : q.beginLine = true) (hnone : q.tail = none)
    (hmore : ∀ l ∈ more, l.Fits width margin) (hrow : setRows more = line.row) :
    q.Shows width margin (setRows (done ++ [line])) := by
  have htypeset : Typeset width margin (done ++ more) ⟨[], []⟩ q := by
    refine ⟨hbooks, hmargin.trans h.margin_eq, List.forall_mem_append.mpr ⟨h.fits, hmore⟩, fun _ => rfl,
      ?_, fun _ => nofun, ?_⟩
    · intro hfalse
      cases hbegins.symm.trans hfalse
    · intro t ht
      cases hnone.symm.trans ht
  have hsame : setRows (done ++ more ++ [⟨[], []⟩]) = setRows (done ++ [line]) := by
    rw [setRows_append, setRows_append, setRows_append, hrow, setRows_singleton, setRows_singleton,
      List.append_nil]
  refine ⟨done ++ more, ⟨[], []⟩, htypeset, fun hsome => absurd hnone hsome, ?_⟩
  rw [hsame]
  exact .refl _

/-- What an empty line has of the margin. -/
theorem fits_emptyMargin (h : Typeset width margin done line p) :
    SetLine.Fits width margin ⟨p.emptyMargin, []⟩ :=
  SetLine.fits_empty (h.margin_eq ▸ p.emptyMargin_prefix)

theorem endLine (h : Typeset width margin done line p) (hsettled : p.Settled width)
    (next : Option Char) :
    (p.putChar ⟨width, verbatim⟩ .literal '\n' next).Shows width margin (setRows (done ++ [line])) := by
  have hbreak : p.putChar ⟨width, verbatim⟩ .literal '\n' next = (p.startLine '\n').newline := by
    rw [Page.putChar, if_pos ⟨rfl, rfl⟩]
  have hbooks := h.books.endLine ⟨width, verbatim⟩ next
  have hmargin : (p.startLine '\n').newline.margin = p.margin :=
    margin_eq_of_setting (setting_startLine '\n')
  rw [hbreak] at hbooks ⊢
  cases hbegins : p.beginLine with
  | true =>
    rw [hbegins, if_pos rfl] at hbooks
    apply h.shows_next [⟨p.emptyMargin, []⟩] ?_ hmargin rfl rfl
    · exact List.forall_mem_singleton.mpr h.fits_emptyMargin
    · rw [h.starts hbegins]
      rfl
    · simpa [SetLine.text] using hbooks
  | false =>
    rw [hbegins, if_neg Bool.false_ne_true] at hbooks
    apply h.shows_next [line] ?_ hmargin rfl rfl
    · exact List.forall_mem_singleton.mpr (h.fits_line hsettled)
    · exact setRows_singleton line
    · simpa using hbooks

theorem settle (h : Typeset width margin done line p) (hsettled : p.Settled width) :
    p.settle.Shows width margin (setRows (done ++ [line])) := by
  by_cases hdue : p.due = 0
  · rw [settle_of_due hdue]
    exact ⟨done, line, h, hsettled, .refl _⟩
  · have hbegins : p.settle.beginLine = true := by rw [settle_eq hdue]
    have hnone : p.settle.tail = none := by rw [settle_eq hdue]
    obtain ⟨more, hbooks, hmore⟩ := h.books.settle hdue
    rcases hmore with ⟨rfl, hline⟩ | ⟨k, rfl⟩
    · apply h.shows_next [] ?_ margin_settle hbegins hnone nofun
      · have hempty := List.append_eq_nil_iff.mp hline
        rw [List.map_eq_nil_iff.mp hempty.2]
        rfl
      · simpa using hbooks
    · apply h.shows_next (line :: List.replicate k ⟨p.emptyMargin, []⟩) ?_ margin_settle
        hbegins hnone
      · refine List.forall_mem_cons.mpr ⟨h.fits_line hsettled, ?_⟩
        intro l hl
        rw [List.eq_of_mem_replicate hl]
        exact h.fits_emptyMargin
      · simp [setRows]
      · simpa [SetLine.text] using hbooks

end Typeset

namespace Shows

variable {row : List Mark}

/-- Each glyph puts its character behind those before it. -/
theorem putGlyph (h : p.Shows width margin row) {g : Glyph}
    (hg : ∀ c next, g = .char c next → c ≠ ' ' ∧ (c = '\n' → mode = .literal)) :
    (p.putGlyph ⟨width, verbatim⟩ mode g).Shows width margin (row ++ [g.mark]) := by
  have hleave : g.mark.isInk = false → Thins (row ++ [g.mark]) row := by
    intro hink
    have hdrop := (Thins.refl row).append (Thins.drop hink)
    rwa [List.append_nil] at hdrop
  obtain ⟨done, line, htypeset, hsettled, hrow⟩ := h
  have hput : Thins (row ++ [g.mark]) (setRows (done ++ [⟨margin, line.row ++ [g.mark]⟩])) := by
    rw [setRows_concat done margin line.lead]
    exact hrow.append (.refl _)
  cases g with
  | space breaks =>
    cases hbegins : p.beginLine with
    | true =>
      -- a space at the start of a line is left out
      have hsame : p.putGlyph ⟨width, verbatim⟩ mode (.space breaks) = p := by
        rw [Page.putGlyph, Page.putSpace, if_pos hbegins, wrap_of_beginLine hbegins]
      rw [hsame]
      exact ⟨done, line, htypeset, hsettled, (hleave rfl).trans hrow⟩
    | false =>
      have hspace := htypeset.putSpace hsettled hbegins breaks
      have hbegins' : (p.putSpace breaks).beginLine = false := by
        rw [beginLine_putSpace]
        exact hbegins
      exact (hspace.wrap hbegins').thin hput
  | char c next =>
    obtain ⟨hspace, hliteral⟩ := hg c next rfl
    by_cases hc : c = '\n'
    · subst hc
      obtain rfl := hliteral rfl
      have hended := htypeset.endLine hsettled next
      have hbegins : (p.putChar ⟨width, verbatim⟩ .literal '\n' next).beginLine = true := by
        rw [Page.putChar, if_pos ⟨rfl, rfl⟩]
        rfl
      rw [Page.putGlyph, wrap_of_beginLine hbegins]
      exact hended.thin ((hleave rfl).trans hrow)
    · have hchar : Typeset width margin done ⟨margin, line.row ++ [Glyph.mark (.char c next)]⟩
          (p.putChar ⟨width, verbatim⟩ mode c next) := htypeset.putChar hspace hc next
      have hbegins : (p.putChar ⟨width, verbatim⟩ mode c next).beginLine = false := by
        rw [putChar_of_ne hc]
      exact (hchar.wrap hbegins).thin hput

theorem foldl (h : p.Shows width margin row) {gs : List Glyph}
    (hgs : ∀ c next, Glyph.char c next ∈ gs → c ≠ ' ' ∧ (c = '\n' → mode = .literal)) :
    (gs.foldl (Page.putGlyph ⟨width, verbatim⟩ mode) p).Shows width margin
      (row ++ gs.map Glyph.mark) := by
  induction gs generalizing p row with
  | nil =>
    rw [List.map_nil, List.append_nil]
    exact h
  | cons g gs ih =>
    have hglyph : (p.putGlyph ⟨width, verbatim⟩ mode g).Shows width margin (row ++ [g.mark]) :=
      h.putGlyph fun c next hg => hgs c next (hg ▸ List.mem_cons_self)
    have hrest := ih hglyph fun c next hmem => hgs c next (List.mem_cons_of_mem g hmem)
    rw [List.append_assoc] at hrest
    exact hrest

/-- A chunk that may be wrapped puts its characters behind those before it. -/
theorem put (h : p.Shows width margin row) {t : Text}
    (ht : mode = .literal ∨ '\n' ∉ t) (hline : p.oneLine = false) :
    (p.put ⟨width, verbatim⟩ t true mode).Shows width margin (row ++ marks t) := by
  have hgs : ∀ c next, Glyph.char c next ∈ glyphs true t → c ≠ ' ' ∧ (c = '\n' → mode = .literal) := by
    intro c next hmem
    constructor
    · rintro rfl
      exact space_notMem_glyphs hmem
    · rintro rfl
      exact ht.resolve_right fun hnot => hnot (char_mem_of_glyph hmem)
  obtain ⟨done, line, htypeset, hsettled, hrow⟩ := h
  have hsettle := (htypeset.settle hsettled).thin hrow
  have hput := hsettle.foldl hgs
  rw [Page.put, hline]
  exact hput.thin ((Thins.refl row).append (thins_glyphs t))

end Shows

end Page

/-! ## Rows of operations -/

namespace Writer.Operation

/-- The characters that the operation brings. -/
def marks : Operation → List Mark
  | .put t _ _ => Layout.marks t
  | _ => []

/-- Whether the output has to stay on one line after the operation. -/
def staysOnLine (oneLine : Bool) : Operation → Bool
  | .oneLine on => on
  | _ => oneLine

/-- The operation leaves the margin as it is, and a chunk of it may be wrapped. -/
def wraps (oneLine : Bool) : Operation → Prop
  | .put t wraps mode => wraps = true ∧ oneLine = false ∧ (mode = .literal ∨ '\n' ∉ t)
  | .indent _ | .truncate _ => False
  | _ => True

end Writer.Operation

open Writer (Operation)

/-- Every chunk of the operations may be wrapped, on a margin that stays as it is. -/
def OnlyWraps : Bool → List Operation → Prop
  | _, [] => True
  | oneLine, o :: os => o.wraps oneLine ∧ OnlyWraps (o.staysOnLine oneLine) os

/-- The characters of the chunks. -/
def written (os : List Operation) : List Mark := os.flatMap Operation.marks

namespace Page

variable {width : Nat} {margin : Text} {p : Page} {row : List Mark}

/-- What a page shows depends on the margin, the output, the column and the start of the
line. -/
theorem Shows.of_same {q : Page} (h : p.Shows width margin row) (hmargin : q.margin = p.margin)
    (hpast : q.past = p.past) (htail : q.tail = p.tail) (hcolumn : q.column = p.column)
    (hbegins : q.beginLine = p.beginLine) : q.Shows width margin row := by
  obtain ⟨done, line, h, hsettled, hrow⟩ := h
  have hbooks := h.books.of_same (hmargin ▸ h.books.margin) hpast htail hcolumn hbegins
  refine ⟨done, line, ?_, ?_, hrow⟩
  · exact ⟨hbooks, hmargin.trans h.margin_eq, h.fits, fun hq => h.starts (hbegins ▸ hq),
      fun hq => h.lead (hbegins ▸ hq), fun hq => h.calm (htail ▸ hq), fun t ht => h.tail t (htail ▸ ht)⟩
  · intro hq
    rw [hcolumn]
    exact hsettled (htail ▸ hq)

theorem Shows.operate (h : p.Shows width margin row) {o : Operation} (ho : o.wraps p.oneLine) :
    (p.operate ⟨width, verbatim⟩ o).Shows width margin (row ++ o.marks) ∧
      (p.operate ⟨width, verbatim⟩ o).oneLine = o.staysOnLine p.oneLine := by
  have hnone : row ++ [] = row := List.append_nil row
  cases o with
  | put t wraps mode =>
    obtain ⟨rfl, hline, ht⟩ := ho
    exact ⟨h.put ht hline, congrArg (·.2.2.1) (setting_put t true mode)⟩
  | indent => exact ho.elim
  | truncate => exact ho.elim
  | _ => exact ⟨hnone.symm ▸ h.of_same rfl rfl rfl rfl rfl, rfl⟩

/-- A writer whose chunks may all be wrapped runs to the end, as a page does. -/
theorem Shows.run (h : p.Shows width margin row) {os : List Operation} (hos : OnlyWraps p.oneLine os) :
    ∃ q : Page, p.writer.run ⟨width, verbatim⟩ os = some q.writer ∧
      q.Shows width margin (row ++ written os) := by
  induction os generalizing p row with
  | nil =>
    rw [written, List.flatMap_nil, List.append_nil]
    exact ⟨p, rfl, h⟩
  | cons o os ih =>
    obtain ⟨ho, hos⟩ := hos
    have hsplits : ¬ o.Splits p.margin := by
      cases o with
      | truncate => exact ho.elim
      | _ => exact id
    obtain ⟨hoperate, hline⟩ := h.operate ho
    obtain ⟨q, hrun, hshows⟩ := ih hoperate (hline ▸ hos)
    rw [List.append_assoc] at hshows
    exact ⟨q, (Writer.run_writer hsplits os).trans hrun, hshows⟩

/-- A page that shows characters has a file of lines that fit. -/
theorem Shows.lines_finish (h : p.Shows width margin row) :
    ∃ ls : List SetLine, Text.lines p.finish = ls.map SetLine.text ∧ Thins row (setRows ls) ∧
      ∀ l ∈ ls, l.Fits width margin := by
  obtain ⟨done, line, h, hsettled, hrow⟩ := h
  by_cases hline : line.text = []
  · have hempty : line.row = [] := List.map_eq_nil_iff.mp (List.append_eq_nil_iff.mp hline).2
    refine ⟨done, ?_, ?_, h.fits⟩
    · exact Page.lines_finish_of_nil (hline ▸ h.books.lined)
    · rw [setRows_append, setRows_singleton, hempty, List.append_nil] at hrow
      exact hrow
  · refine ⟨done ++ [line], ?_, hrow, ?_⟩
    · rw [Page.lines_finish h.books.lined hline, List.map_append, List.map_singleton]
    · exact List.forall_mem_append.mpr ⟨h.fits, List.forall_mem_singleton.mpr (h.fits_line hsettled)⟩

end Page

/-! ## The laws -/

/-- The books of a writer are right after every row of operations, for all formats whose
escape writes no line feeds, and no operation is a cut inside a character, but one that takes
the margin apart there. With characters as they are, a margin that stays and nothing but
chunks that may be wrapped, the output is set in lines that fit: a line wider than the page
holds, behind its margin, only spaces that are guarded in their chunk. -/
theorem writer_keeps_books :
    (∀ (f : Format) (os : List Operation) (w : Writer), Unbroken f.escape →
      (∀ o ∈ os, o.keepsLines) → Writer.run f os {} = some w →
      w.Kept ∧ ∀ o, w.operate f o = none ↔ o.Splits w.margin) ∧
    ∀ (width : Nat) (margin : Text) (os : List Operation), '\n' ∉ margin → OnlyWraps false os →
      ∃ w ls, Writer.run ⟨width, verbatim⟩ (.indent margin :: os) {} = some w ∧
        Text.lines w.finish = ls.map SetLine.text ∧ Thins (written os) (setRows ls) ∧
        ∀ l ∈ ls, l.Fits width margin := by
  constructor
  · intro f os w hescape hos hrun
    obtain ⟨p, ls, line, rfl, hbooks⟩ := Writer.exists_page hescape Page.Books.start hos hrun
    refine ⟨Writer.kept_of_books hbooks, fun o => ⟨fun hnone => ?_, Writer.operate_of_splits⟩⟩
    refine Classical.byContradiction fun hsplits => ?_
    cases hnone.symm.trans (Writer.operate_writer hsplits)
  · intro width margin os hmargin hos
    have hstart : Page.Shows width margin [] { margin } := by
      have hbooks : Page.Books [] [] { margin } := .fresh rfl rfl hmargin .nil rfl
      have htypeset : Page.Typeset width margin [] ⟨[], []⟩ { margin } :=
        ⟨hbooks, rfl, nofun, fun _ => rfl, nofun, fun _ => nofun, nofun⟩
      exact ⟨[], ⟨[], []⟩, htypeset, fun hsome => absurd rfl hsome, .refl _⟩
    obtain ⟨q, hrun, hshows⟩ := hstart.run hos
    obtain ⟨ls, hlines, hthins, hfits⟩ := hshows.lines_finish
    exact ⟨q.writer, ls, hrun, Page.finish_writer ▸ hlines, hthins, hfits⟩

/-- On a page of six columns, the line in front of the number stays too wide, and the next
space breaks it. -/
theorem writer_keeps_books_number :
    (∃ w, Writer.run ⟨6, verbatim⟩ [.indent "> ".toList, .put "aaaa 1 b".toList true .normal] {} = some w ∧
      w.buffer = "> aaaa 1\n> b".toList ∧ w.Kept) ∧
      ∃ w ls, Writer.run ⟨6, verbatim⟩
        [.indent "> ".toList, .put "aaaa 1 b".toList true .normal] {} = some w ∧
        Text.lines w.finish = ls.map SetLine.text ∧ Thins (marks "aaaa 1 b".toList) (setRows ls) ∧
        ∀ l ∈ ls, l.Fits 6 "> ".toList := by
  constructor
  · let p : Page := Page.operate ⟨6, verbatim⟩ { margin := "> ".toList }
      (.put "aaaa 1 b".toList true .normal)
    have hrun : Writer.run ⟨6, verbatim⟩
        [.indent "> ".toList, .put "aaaa 1 b".toList true .normal] {} = some p.writer := by
      exact (Writer.run_writer (p := {}) id _).trans (Writer.run_writer (p := { margin := _ }) id [])
    refine ⟨p.writer, hrun, by decide, ?_⟩
    exact (writer_keeps_books.1 _ _ _ unbroken_verbatim (by simp [Operation.keepsLines]) hrun).1
  · apply writer_keeps_books.2 6 "> ".toList [.put "aaaa 1 b".toList true .normal]
    · decide
    · simp [OnlyWraps, Operation.wraps]

end Layout

end MarkupTree
