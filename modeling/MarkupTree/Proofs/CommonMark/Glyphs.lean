-- The glyphs of a row of texts and soft breaks, and how the row reads. Where the row
-- is smooth, no line can break in front of glyphs that would open a block or leave a
-- line blank.
import MarkupTree.Node.Content
import MarkupTree.Proofs.CommonMark.LineStarts

namespace MarkupTree

namespace CommonMark

open Layout

variable {g : Glyph} {gs : List Glyph} {wrap : Bool} {c : Char} {next : Option Char}

/-! ## Glyphs that may be written -/

/-- A character is told what follows it in its chunk. If that is no blank, it is the
next glyph. -/
def Sees (next : Option Char) (gs : List Glyph) : Prop :=
  next.all Text.isAsciiBlank = true ∨ ∃ c next' rest, gs = .char c next' :: rest ∧ c ≠ ' '

/-- Lines may break at each space that allows it. -/
def Tidy : List Glyph → Prop
  | [] => True
  | .space true :: gs => Free .blank gs ∧ Tidy gs
  | .space false :: gs => Tidy gs
  | .char _ next :: gs => Sees next gs ∧ Tidy gs

theorem Tidy.tail (h : Tidy (g :: gs)) : Tidy gs := by
  cases g with
  | space breaks =>
    cases breaks with
    | true => exact h.2
    | false => exact h
  | char c next => exact h.2

theorem Tidy.of_append {gs' : List Glyph} (h : Tidy (gs ++ gs')) : Tidy gs' := by
  induction gs with
  | nil => exact h
  | cons g gs ih => exact ih (Tidy.tail h)

/-- A character that could begin no block. -/
theorem free_char (hspace : c ≠ ' ') (hstarts : startsBlock c = false) :
    Free .blank (.char c next :: gs) where
  calm := by
    have htext : LineStart.blank.next c = .text := by
      unfold startsBlock at hstarts
      simp only [Bool.or_eq_false_iff, beq_eq_false_iff_ne] at hstarts
      obtain ⟨⟨⟨⟨⟨⟨hdigit, hminus⟩, hplus⟩, -⟩, hequal⟩, -⟩, -⟩ := hstarts
      simp [LineStart.next, hspace, hdigit, hminus, hplus, hequal]
    show ((LineStart.blank.next c).scan _).opens = false
    rw [htext, LineStart.scan_text]
    rfl
  goesOn _ := runsOut_char hspace

/-! ## The glyphs of a text -/

theorem glyphs_cons_of_ne (hspace : c ≠ ' ') (cs : Text) :
    glyphs wrap (c :: cs) = .char c cs.head? :: glyphs wrap cs := by
  rw [glyphs, if_neg (by simp [hspace])]

theorem glyphs_space (cs : Text) : glyphs true (' ' :: cs) =
    if cs.head? == some ' ' then glyphs true cs
    else .space (!cs.head?.any startsBlock) :: glyphs true cs := rfl

theorem sees_glyphs (cs : Text) : Sees cs.head? (glyphs wrap cs ++ gs) := by
  cases cs with
  | nil => exact Or.inl rfl
  | cons d ds =>
    by_cases hspace : d = ' '
    · subst hspace
      exact Or.inl rfl
    · rw [glyphs_cons_of_ne hspace]
      exact Or.inr ⟨d, _, _, rfl, hspace⟩

/-- Within a text, lines may break where the glyphs say so. -/
theorem tidy_glyphs {t : Text} (htidy : Tidy gs)
    (hend : wrap = true → t.getLast? = some ' ' → Free .blank gs) : Tidy (glyphs wrap t ++ gs) := by
  induction t with
  | nil => exact htidy
  | cons c cs ih =>
    have hrest : Tidy (glyphs wrap cs ++ gs) := by
      refine ih fun hwrap hlast => hend hwrap ?_
      rw [List.getLast?_cons, hlast]
      rfl
    unfold glyphs
    split
    · rename_i hspace
      obtain ⟨hwrap, hc⟩ := Bool.and_eq_true_iff.mp hspace
      split
      · exact hrest
      · rename_i hne
        rcases hbreaks : !cs.head?.any startsBlock with _ | _
        · exact hrest
        · refine ⟨?_, hrest⟩
          cases cs with
          | nil => exact hend hwrap (by rw [eq_of_beq hc]; rfl)
          | cons d ds =>
            have hd : d ≠ ' ' := by simpa using hne
            rw [glyphs_cons_of_ne hd]
            exact free_char hd (by simpa using hbreaks)
    · exact ⟨sees_glyphs cs, hrest⟩

/-! ## Rows -/

/-- How a text or a soft break reads. -/
def source : Content → Text
  | .text t => t
  | _ => [' ']

/-- How a row of texts and soft breaks reads. -/
def reading (row : List Content) : Text := row.flatMap source

/-- The glyphs of a text, or the one that stands for a soft break. -/
def contentGlyphs (wrap : Bool) (soft : Glyph) : Content → List Glyph
  | .text t => glyphs wrap t
  | _ => [soft]

def rowGlyphs (wrap : Bool) (soft : Glyph) (row : List Content) : List Glyph :=
  row.flatMap (contentGlyphs wrap soft)

/-- Lines may break after each soft break and after each text that ends with a space: what
comes next neither opens a block nor begins with another space at which a line may
break. -/
def Smooth (row : List Content) : Prop :=
  ∀ xs ys, row = xs ++ ys → (reading xs).getLast? = some ' ' →
    opensBlock (reading ys) = false ∧ runsOut (rowGlyphs true (.space true) ys) = false

variable {soft : Glyph} {row : List Content}

/-- Where spaces run together, the scan shows the same. -/
theorem scan_glyphs (s : LineStart) (t : Text) : s.scan ((glyphs wrap t).map glyphChar) = s.scan t := by
  induction t generalizing s with
  | nil => rfl
  | cons c cs ih =>
    unfold glyphs
    split
    · rename_i hspace
      obtain ⟨-, hc⟩ := Bool.and_eq_true_iff.mp hspace
      rw [eq_of_beq hc]
      split
      · rename_i hnext
        obtain ⟨ds, rfl⟩ := List.head?_eq_some_iff.mp (eq_of_beq hnext)
        have htwice : (s.next ' ').next ' ' = s.next ' ' := by
          cases s <;> rfl
        rw [ih]
        show (s.next ' ').scan ds = ((s.next ' ').next ' ').scan ds
        rw [htwice]
      · exact ih (s.next ' ')
    · exact ih (s.next c)

theorem scan_rowGlyphs (hsoft : glyphChar soft = ' ') (s : LineStart) (row : List Content) :
    s.scan ((rowGlyphs wrap soft row).map glyphChar) = s.scan (reading row) := by
  induction row generalizing s with
  | nil => rfl
  | cons c row ih =>
    have hcontent : s.scan ((contentGlyphs wrap soft c).map glyphChar) = s.scan (source c) := by
      unfold contentGlyphs source
      split
      · exact scan_glyphs s _
      · rw [List.map_singleton, hsoft]
    rw [rowGlyphs, reading, List.flatMap_cons, List.flatMap_cons, List.map_append, LineStart.scan_append,
      LineStart.scan_append, hcontent]
    exact ih _

/-- A text in which a line cannot run out of characters has one even with all its
spaces kept. -/
theorem runsOut_glyphs {t : Text} (ht : t ≠ []) {gs' : List Glyph}
    (h : runsOut (glyphs true t ++ gs) = false) : runsOut (glyphs false t ++ gs') = false := by
  induction t with
  | nil => exact absurd rfl ht
  | cons c cs ih =>
    by_cases hspace : c = ' '
    · subst hspace
      show runsOut (glyphs false cs ++ gs') = false
      rw [glyphs_space] at h
      split at h
      · refine ih ?_ h
        rintro rfl
        contradiction
      · rename_i hne
        rcases hbreaks : !cs.head?.any startsBlock with _ | _
        · cases cs with
          | nil => cases hbreaks
          | cons d ds =>
            have hd : d ≠ ' ' := by simpa using hne
            rw [glyphs_cons_of_ne hd]
            exact runsOut_char hd
        · rw [hbreaks] at h
          cases h
    · rw [glyphs_cons_of_ne hspace]
      exact runsOut_char hspace

theorem runsOut_rowGlyphs (h : runsOut (rowGlyphs true (.space true) row) = false) :
    runsOut (rowGlyphs false (.space true) row) = false := by
  induction row with
  | nil => exact h
  | cons c row ih =>
    cases c with
    | text t =>
      cases t with
      | nil => exact ih h
      | cons d ds => exact runsOut_glyphs (List.cons_ne_nil d ds) h
    | _ => cases h

/-- Where a row reads as a space, its lines may break. -/
theorem tidy_rowGlyphs (h : ∀ xs ys, row = xs ++ ys → (reading xs).getLast? = some ' ' →
    Free .blank (rowGlyphs wrap (.space true) ys)) : Tidy (rowGlyphs wrap (.space true) row) := by
  induction row with
  | nil => trivial
  | cons c row ih =>
    have hrest : Tidy (rowGlyphs wrap (.space true) row) := by
      refine ih fun xs ys hsplit hlast => h (c :: xs) ys (by rw [hsplit]; rfl) ?_
      have hcons : reading (c :: xs) = source c ++ reading xs := rfl
      rw [hcons, List.getLast?_append, hlast]
      rfl
    have hfirst : (source c).getLast? = some ' ' → Free .blank (rowGlyphs wrap (.space true) row) :=
      fun hlast => h [c] row rfl (by simpa [reading] using hlast)
    cases c with
    | text t => exact tidy_glyphs hrest fun _ hlast => hfirst hlast
    | _ => exact ⟨hfirst rfl, hrest⟩

/-- A row that stays on one line breaks nowhere. -/
theorem tidy_rowGlyphs_line (row : List Content) : Tidy (rowGlyphs false (.char ' ' none) row) := by
  induction row with
  | nil => trivial
  | cons c row ih =>
    cases c with
    | text t => exact tidy_glyphs ih nofun
    | _ => exact ⟨Or.inl rfl, ih⟩

/-- A smooth row may break where it reads as a space, whether its texts wrap or only its
soft breaks end lines. -/
theorem Smooth.free (h : Smooth row) (wrap : Bool) : ∀ xs ys, row = xs ++ ys →
    (reading xs).getLast? = some ' ' → Free .blank (rowGlyphs wrap (.space true) ys) := by
  intro xs ys hsplit hlast
  obtain ⟨hopens, hout⟩ := h xs ys hsplit hlast
  refine ⟨?_, fun _ => ?_⟩
  · rw [scan_rowGlyphs rfl, LineStart.opens_scan]
    exact hopens
  · cases wrap with
    | true => exact hout
    | false => exact runsOut_rowGlyphs hout

/-- The last glyph, where lines may break, of a text that ends with the character. -/
def lastGlyph (c : Char) : Glyph := if c = ' ' then .space true else .char c none

theorem getLast?_glyphs (t : Text) : (glyphs true t).getLast? = t.getLast?.map lastGlyph := by
  induction t with
  | nil => rfl
  | cons c cs ih =>
    cases cs with
    | nil =>
      by_cases hspace : c = ' '
      · rw [hspace]
        rfl
      · rw [glyphs_cons_of_ne hspace, List.getLast?_singleton, Option.map_some, lastGlyph, if_neg hspace]
        rfl
    | cons d ds =>
      have hne : glyphs true (d :: ds) ≠ [] := by
        intro hnil
        rw [hnil, List.getLast?_cons] at ih
        cases ih
      have hcons (g : Glyph) : (g :: glyphs true (d :: ds)).getLast? = (glyphs true (d :: ds)).getLast? :=
        List.getLast?_cons_of_ne_nil hne
      rw [List.getLast?_cons_cons, ← ih]
      by_cases hspace : c = ' '
      · rw [hspace, glyphs_space]
        split
        · rfl
        · exact hcons _
      · rw [glyphs_cons_of_ne hspace]
        exact hcons _

theorem getLast?_rowGlyphs (row : List Content) :
    (rowGlyphs true (.space true) row).getLast? = (reading row).getLast?.map lastGlyph := by
  induction row with
  | nil => rfl
  | cons c row ih =>
    have hcontent : (contentGlyphs true (.space true) c).getLast? = (source c).getLast?.map lastGlyph := by
      cases c with
      | text t => exact getLast?_glyphs t
      | _ => rfl
    rw [rowGlyphs, reading, List.flatMap_cons, List.flatMap_cons, List.getLast?_append, List.getLast?_append,
      hcontent, Option.map_or]
    exact congrArg (Option.or · _) ih

/-- Otherwise a line may break in front of what must not begin one. -/
theorem exists_break_of_not_smooth (h : ¬Smooth row) : ∃ as bs,
    rowGlyphs true (.space true) row = as ++ .space true :: bs ∧ ¬Free .blank bs := by
  obtain ⟨xs, ys, rfl, hlast, hbreak⟩ : ∃ xs ys, row = xs ++ ys ∧ (reading xs).getLast? = some ' ' ∧
      ¬(opensBlock (reading ys) = false ∧ runsOut (rowGlyphs true (.space true) ys) = false) := by
    simpa [Smooth] using h
  have hglyph : (rowGlyphs true (.space true) xs).getLast? = some (.space true) := by
    rw [getLast?_rowGlyphs, hlast]
    rfl
  obtain ⟨as, has⟩ := List.getLast?_eq_some_iff.mp hglyph
  refine ⟨as, rowGlyphs true (.space true) ys, ?_, fun hfree => hbreak ⟨?_, hfree.goesOn rfl⟩⟩
  · have happend : rowGlyphs true (.space true) (xs ++ ys) =
        rowGlyphs true (.space true) xs ++ rowGlyphs true (.space true) ys := List.flatMap_append
    rw [happend, has, List.append_assoc]
    rfl
  · have hscan : LineStart.blank.scan ((rowGlyphs true (.space true) ys).map glyphChar) =
        LineStart.blank.scan (reading ys) := scan_rowGlyphs rfl _ _
    rw [← LineStart.opens_scan, ← hscan]
    exact hfree.calm

theorem rowGlyphs_of_head (wrap : Bool) (soft : Glyph) {d : Char} {t : Text} (h : reading row = d :: t) (hspace : d ≠ ' ') :
    ∃ next rest, rowGlyphs wrap soft row = .char d next :: rest := by
  induction row with
  | nil => cases h
  | cons c row ih =>
    cases c with
    | text u =>
      cases u with
      | nil => exact ih h
      | cons e es =>
        obtain ⟨rfl, -⟩ := List.cons.inj h
        exact ⟨_, _, by rw [rowGlyphs, List.flatMap_cons, contentGlyphs, glyphs_cons_of_ne hspace]; rfl⟩
    | _ =>
      obtain ⟨rfl, -⟩ := List.cons.inj h
      exact absurd rfl hspace

end CommonMark

end MarkupTree
