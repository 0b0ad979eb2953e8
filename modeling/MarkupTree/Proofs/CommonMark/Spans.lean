-- Code spans. The ticks around the code are no run of the code, so the span ends where it is
-- closed. A reader takes line endings as spaces and a space off each end, and finds the code
-- again unless spaces have run together where lines wrap, or blank code begins and ends with
-- a space.
import MarkupTree.Output
import MarkupTree.Proofs.CommonMark.LineStarts
import MarkupTree.Proofs.CommonMark.Margins
import MarkupTree.Proofs.CommonMark.Unwrapping
import MarkupTree.Proofs.Document.Sessions
import MarkupTree.Proofs.Forest.Visits
import MarkupTree.Proofs.Layout.Chunks
import MarkupTree.Proofs.Xml.Trees

namespace MarkupTree

namespace CommonMark

open Layout

variable {t u literal : Text} {wrap : Bool} {n : Nat}

/-! ## Runs of backticks -/

/-- A run of `n` backticks stands in the text, with no backtick on either side of it. -/
def HasRun (n : Nat) (t : Text) : Prop :=
  ∃ front back, t = front ++ List.replicate n '\x60' ++ back ∧
    front.getLast? ≠ some '\x60' ∧ back.head? ≠ some '\x60'

theorem tickRuns_replicate {back : Text} (hback : back.head? ≠ some '\x60') {current : Nat}
    (hpos : current + n ≠ 0) :
    tickRuns current (List.replicate n '\x60' ++ back) = (current + n) :: tickRuns 0 back := by
  induction n generalizing current with
  | zero =>
    have hcurrent : current ≠ 0 := by simpa using hpos
    cases back with
    | nil => simp [tickRuns, hcurrent]
    | cons c cs =>
      have hc : c ≠ '\x60' := by simpa using hback
      simp [tickRuns, hc, hcurrent]
  | succ n ih =>
    have hrest := @ih (current + 1) (by omega)
    rw [List.replicate_succ, List.cons_append, tickRuns, if_pos rfl, hrest]
    congr 1
    omega

/-- The lengths of the runs hold that of each run. -/
theorem mem_tickRuns {front back : Text} (hn : n ≠ 0) (hfront : front.getLast? ≠ some '\x60')
    (hback : back.head? ≠ some '\x60') {current : Nat} (hcurrent : front = [] → current = 0) :
    n ∈ tickRuns current (front ++ (List.replicate n '\x60' ++ back)) := by
  induction front generalizing current with
  | nil =>
    rw [hcurrent rfl, List.nil_append, tickRuns_replicate hback (by omega), Nat.zero_add]
    exact List.mem_cons_self
  | cons c cs ih =>
    have hcs : cs.getLast? ≠ some '\x60' := by
      intro h
      apply hfront
      rw [List.getLast?_cons, h]
      rfl
    rw [List.cons_append, tickRuns]
    split
    · rename_i hc
      apply ih hcs
      rintro rfl
      exact absurd (by rw [hc]; rfl) hfront
    · split
      · exact ih hcs fun _ => rfl
      · exact List.mem_cons_of_mem _ (ih hcs fun _ => rfl)

theorem le_firstUnused (runs : List Nat) (limit n : Nat) : n ≤ firstUnused runs limit n := by
  induction limit generalizing n with
  | zero => exact Nat.le_refl n
  | succ limit ih =>
    unfold firstUnused
    split
    · have hmore := ih (n + 1)
      omega
    · exact Nat.le_refl n

/-- The search ends at a used number only if each one that it came by is used. -/
theorem range_subset_of_firstUnused {runs : List Nat} {limit : Nat}
    (h : firstUnused runs limit n ∈ runs) : List.range' n (limit + 1) ⊆ runs := by
  induction limit generalizing n with
  | zero => simpa [firstUnused] using h
  | succ limit ih =>
    unfold firstUnused at h
    split at h
    · rename_i hn
      rw [List.range'_succ, List.cons_subset]
      exact ⟨List.contains_iff_mem.mp hn, ih h⟩
    · rename_i hn
      exact absurd (List.contains_iff_mem.mpr h) hn

theorem firstUnused_notMem (runs : List Nat) (n : Nat) : firstUnused runs runs.length n ∉ runs := by
  intro h
  have hle := (List.subperm_of_subset List.nodup_range' (range_subset_of_firstUnused h)).length_le
  rw [List.length_range'] at hle
  omega

/-- The ticks of code are a run of backticks that the code does not have. -/
theorem exists_ticks (literal : Text) :
    ∃ n, 0 < n ∧ ticks literal = List.replicate n '\x60' ∧ n ∉ tickRuns 0 literal :=
  ⟨_, le_firstUnused _ _ _, rfl, firstUnused_notMem _ _⟩

/-! ## Spaces that run together -/

/-- What is written of a chunk: where lines may break, one space for each run of them. -/
def squeezed (wrap : Bool) (t : Text) : Text := (glyphs wrap t).map glyphChar

theorem squeezed_cons (c : Char) (cs : Text) : squeezed wrap (c :: cs) =
    if wrap = true ∧ c = ' ' ∧ cs.head? = some ' ' then squeezed wrap cs else c :: squeezed wrap cs := by
  unfold squeezed
  by_cases hc : wrap = true ∧ c = ' '
  · obtain ⟨rfl, rfl⟩ := hc
    by_cases hnext : cs.head? = some ' '
    · simp [glyphs, hnext]
    · simp [glyphs, hnext, glyphChar]
  · have hglyphs : glyphs wrap (c :: cs) = .char c cs.head? :: glyphs wrap cs := by
      rw [glyphs, if_neg (by simpa using hc)]
    rw [hglyphs, if_neg fun h => hc ⟨h.1, h.2.1⟩]
    rfl

theorem mem_squeezed {c : Char} : c ∈ squeezed wrap t ↔ c ∈ t := by
  induction t with
  | nil => rfl
  | cons d ds ih =>
    rw [squeezed_cons]
    split
    · rename_i h
      obtain ⟨-, rfl, hnext⟩ := h
      have hspace : ' ' ∈ ds := List.mem_of_mem_head? hnext
      rw [ih, List.mem_cons]
      constructor
      · exact Or.inr
      · rintro (rfl | h)
        · exact hspace
        · exact h
    · rw [List.mem_cons, List.mem_cons, ih]

theorem head?_squeezed (wrap : Bool) (t : Text) : (squeezed wrap t).head? = t.head? := by
  induction t with
  | nil => rfl
  | cons c cs ih =>
    rw [squeezed_cons]
    split
    · rename_i h
      rw [ih, h.2.2, h.2.1]
      rfl
    · rfl

theorem getLast?_squeezed (wrap : Bool) (t : Text) : (squeezed wrap t).getLast? = t.getLast? := by
  induction t with
  | nil => rfl
  | cons c cs ih =>
    rw [squeezed_cons]
    split
    · rename_i h
      obtain ⟨ds, rfl⟩ := List.head?_eq_some_iff.mp h.2.2
      rw [ih, List.getLast?_cons_cons]
    · rw [List.getLast?_cons, List.getLast?_cons, ih]

theorem tickRuns_squeezed (wrap : Bool) (t : Text) (current : Nat) : tickRuns current (squeezed wrap t) = tickRuns current t := by
  induction t generalizing current with
  | nil => rfl
  | cons c cs ih =>
    rw [squeezed_cons]
    split
    · rename_i h
      obtain ⟨ds, rfl⟩ := List.head?_eq_some_iff.mp h.2.2
      rw [ih, h.2.1]
      simp [tickRuns]
    · simp [tickRuns, ih]

theorem length_squeezed_le (wrap : Bool) (t : Text) : (squeezed wrap t).length ≤ t.length := by
  induction t with
  | nil => exact Nat.le_refl _
  | cons c cs ih =>
    rw [squeezed_cons]
    split
    · simp only [List.length_cons]
      omega
    · simp only [List.length_cons]
      omega

/-- Nothing runs together if and only if no two spaces stand side by side where lines may break. -/
theorem squeezed_eq_iff : squeezed wrap t = t ↔ ¬(wrap = true ∧ [' ', ' '] <:+: t) := by
  induction t with
  | nil => simp [squeezed, glyphs]
  | cons c cs ih =>
    rw [squeezed_cons, List.infix_cons_iff]
    split
    · rename_i h
      obtain ⟨ds, rfl⟩ := List.head?_eq_some_iff.mp h.2.2
      have hprefix : [' ', ' '] <+: c :: ' ' :: ds := ⟨ds, by rw [h.2.1]; rfl⟩
      have hle := length_squeezed_le wrap (' ' :: ds)
      refine iff_of_false ?_ fun hnot => hnot ⟨h.1, Or.inl hprefix⟩
      intro heq
      rw [heq] at hle
      simp only [List.length_cons] at hle
      omega
    · rename_i h
      have hprefix : ¬(wrap = true ∧ [' ', ' '] <+: c :: cs) := by
        rintro ⟨hwrap, rest, heq⟩
        obtain ⟨rfl, rfl⟩ := List.cons.inj heq
        exact h ⟨hwrap, rfl, rfl⟩
      rw [List.cons.injEq, ih]
      tauto

/-! ## Reading a span -/

def asSpace (c : Char) : Char := if c = '\n' ∨ c = '\r' then ' ' else c

/-- The text with a space for each line ending. -/
def spaced : Text → Text
  | [] => []
  | c :: cs =>
    -- a carriage return and the line feed after it are one line ending
    if c = '\r' ∧ cs.head? = some '\n' then spaced cs
    else asSpace c :: spaced cs

/-- The text without a space at each end, if it has one at each end and anything else. -/
def stripped (t : Text) : Text :=
  if t.head? = some ' ' ∧ t.getLast? = some ' ' ∧ t.all (· == ' ') = false then t.tail.dropLast else t

/-- The code of a span with the text between its runs of backticks. -/
def codeOf (inside : Text) : Text := stripped (spaced inside)

/-- The text is a span of code from its first character to its last: the run of backticks that it begins
with is met again at its end, and not before. -/
structure IsSpan (n : Nat) (inside t : Text) : Prop where
  eq : t = List.replicate n '\x60' ++ inside ++ List.replicate n '\x60'
  pos : 0 < n
  nonempty : inside ≠ []
  opens : inside.head? ≠ some '\x60'
  closes : inside.getLast? ≠ some '\x60'
  inner : ¬HasRun n inside

theorem asSpace_eq_tick {c : Char} : asSpace c = '\x60' ↔ c = '\x60' := by
  unfold asSpace
  split
  · rename_i h
    rcases h with rfl | rfl <;> decide
  · exact Iff.rfl

theorem spaced_eq_map (h : '\r' ∉ t) : spaced t = t.map asSpace := by
  induction t with
  | nil => rfl
  | cons c cs ih =>
    obtain ⟨hc, hcs⟩ : '\r' ≠ c ∧ '\r' ∉ cs := by simpa using h
    rw [spaced, if_neg fun h => hc h.1.symm, ih hcs]
    rfl

/-- A reader takes the line feeds of a folded text back to spaces. -/
theorem map_asSpace_of_folded (h : Folded [] t u) (hu : '\r' ∉ u) : '\r' ∉ t ∧ t.map asSpace = u := by
  induction h with
  | nil => exact ⟨List.not_mem_nil, rfl⟩
  | @char c t u hc _ ih =>
    obtain ⟨hreturn, hu⟩ : '\r' ≠ c ∧ '\r' ∉ u := by simpa using hu
    obtain ⟨ht, hmap⟩ := ih hu
    refine ⟨by simpa using ⟨hreturn, ht⟩, ?_⟩
    rw [List.map_cons, hmap, asSpace, if_neg (by simp [hc, Ne.symm hreturn])]
  | @fold t u _ ih =>
    obtain ⟨ht, hmap⟩ := ih fun h => hu (List.mem_cons_of_mem _ h)
    refine ⟨by simpa using ht, ?_⟩
    rw [List.nil_append, List.map_cons, hmap]
    rfl

theorem eq_replicate_of_map (h : t.map asSpace = List.replicate n '\x60') : t = List.replicate n '\x60' := by
  obtain ⟨hlength, hticks⟩ := List.eq_replicate_iff.mp h
  rw [List.length_map] at hlength
  refine List.eq_replicate_iff.mpr ⟨hlength, ?_⟩
  intro c hc
  exact asSpace_eq_tick.mp (hticks _ (List.mem_map_of_mem hc))

theorem head?_map_asSpace : (t.map asSpace).head? = some '\x60' ↔ t.head? = some '\x60' := by
  simp [asSpace_eq_tick]

theorem getLast?_map_asSpace : (t.map asSpace).getLast? = some '\x60' ↔ t.getLast? = some '\x60' := by
  simp [asSpace_eq_tick]

theorem HasRun.map_asSpace (h : HasRun n t) : HasRun n (t.map asSpace) := by
  obtain ⟨front, back, rfl, hfront, hback⟩ := h
  refine ⟨front.map asSpace, back.map asSpace, ?_, mt getLast?_map_asSpace.mp hfront,
    mt head?_map_asSpace.mp hback⟩
  have htick : asSpace '\x60' = '\x60' := asSpace_eq_tick.mpr rfl
  simp [htick]

/-- A span whose spaces are folded into line feeds is a span, and reads the same. -/
theorem IsSpan.of_folded {inside out : Text} (h : IsSpan n inside u) (hfolded : Folded [] out u)
    (hreturn : '\r' ∉ u) : ∃ inner, IsSpan n inner out ∧ spaced inner = inside := by
  obtain ⟨hout, hmap⟩ := map_asSpace_of_folded hfolded hreturn
  rw [h.eq] at hmap
  obtain ⟨front, close, rfl, hfront, hclose⟩ := List.map_eq_append_iff.mp hmap
  obtain ⟨opening, inner, rfl, hopen, rfl⟩ := List.map_eq_append_iff.mp hfront
  have hinner : '\r' ∉ inner := by
    intro hmem
    apply hout
    simp [hmem]
  refine ⟨inner, ⟨?_, h.pos, ?_, mt head?_map_asSpace.mpr h.opens, mt getLast?_map_asSpace.mpr h.closes,
    mt HasRun.map_asSpace h.inner⟩, spaced_eq_map hinner⟩
  · rw [eq_replicate_of_map hopen, eq_replicate_of_map hclose]
  · rintro rfl
    exact h.nonempty rfl

/-! ## What stands between the ticks -/

/-- What is written between the ticks. -/
def padded (wrap : Bool) (literal : Text) : Text :=
  let pad := if needsPad literal then [' '] else []
  pad ++ squeezed wrap literal ++ pad

/-- The code is blank and more than spaces, and a reader takes a space off each of its ends. -/
def LosesEnds (t : Text) : Prop :=
  t.head? = some ' ' ∧ t.getLast? = some ' ' ∧ t.all Text.isBlank = true ∧ t.all (· == ' ') = false

theorem all_spaces_squeezed : (squeezed wrap t).all (· == ' ') = t.all (· == ' ') := by
  rw [Bool.eq_iff_iff, List.all_eq_true, List.all_eq_true]
  simp only [mem_squeezed]

/-- Code that is padded has something else than spaces. -/
theorem not_spaces_of_needsPad (hne : literal ≠ []) (h : needsPad literal = true) :
    literal.all (· == ' ') = false ∧ ¬LosesEnds literal := by
  have hblank : (∃ c ∈ literal, Text.isBlank c = false) → literal.all (· == ' ') = false ∧ ¬LosesEnds literal := by
    rintro ⟨c, hc, hblank⟩
    constructor
    · rw [List.all_eq_false]
      refine ⟨c, hc, ?_⟩
      intro heq
      rw [eq_of_beq heq] at hblank
      exact absurd hblank (by decide)
    · intro hloses
      have hc' := List.all_eq_true.mp hloses.2.2.1 c hc
      exact absurd (hblank.symm.trans hc') (by decide)
  unfold needsPad at h
  simp only [Bool.or_eq_true, List.isEmpty_iff, hne, false_or, beq_iff_eq, Bool.and_eq_true,
    Bool.not_eq_true'] at h
  apply hblank
  rcases h with (h | h) | ⟨-, h⟩
  · exact ⟨'\x60', List.mem_of_mem_head? h, by decide⟩
  · exact ⟨'\x60', List.mem_of_getLast? h, by decide⟩
  · obtain ⟨c, hc, hblank⟩ := List.all_eq_false.mp h
    exact ⟨c, hc, by simpa using hblank⟩

/-- The code reads back, if no spaces run together and it does not lose its ends. -/
theorem stripped_padded (hne : literal ≠ []) :
    stripped (padded wrap literal) = literal ↔
      ¬(wrap = true ∧ [' ', ' '] <:+: literal) ∧ ¬LosesEnds literal := by
  by_cases hpad : needsPad literal = true
  · obtain ⟨hspaces, hloses⟩ := not_spaces_of_needsPad hne hpad
    have hstrip : stripped (padded wrap literal) = squeezed wrap literal := by
      unfold stripped padded
      rw [hpad, if_pos]
      · simp
      · refine ⟨by simp, ?_, ?_⟩
        · rw [if_pos rfl, List.getLast?_concat]
        · simp [all_spaces_squeezed, hspaces]
    rw [hstrip, squeezed_eq_iff]
    simp [hloses]
  · have hpadded : padded wrap literal = squeezed wrap literal := by simp [padded, hpad]
    rw [hpadded, stripped, head?_squeezed, getLast?_squeezed, all_spaces_squeezed]
    split
    · rename_i h
      obtain ⟨hhead, hlast, hspaces⟩ := h
      -- code that is not padded between its spaces is blank
      have hblank : literal.all Text.isBlank = true := by
        simpa [needsPad, hne, hhead, hlast] using hpad
      have hle := length_squeezed_le wrap literal
      have hpos := List.length_pos_iff.mpr hne
      refine iff_of_false ?_ fun hnot => hnot.2 ⟨hhead, hlast, hblank, hspaces⟩
      intro heq
      have hlength := congrArg List.length heq
      rw [List.length_dropLast, List.length_tail] at hlength
      omega
    · rename_i h
      have hloses : ¬LosesEnds literal := fun hl => h ⟨hl.1, hl.2.1, hl.2.2.2⟩
      rw [squeezed_eq_iff]
      simp [hloses]

theorem tickRuns_concat_space (t : Text) (current : Nat) : tickRuns current (t ++ [' ']) = tickRuns current t := by
  induction t generalizing current with
  | nil =>
    show (if current = 0 then [] else [current]) = _
    rfl
  | cons c cs ih => simp [tickRuns, ih]

theorem tickRuns_padded (wrap : Bool) (literal : Text) : tickRuns 0 (padded wrap literal) = tickRuns 0 literal := by
  unfold padded
  dsimp only
  split
  · rw [tickRuns_concat_space, List.singleton_append]
    exact tickRuns_squeezed wrap literal 0
  · rw [List.nil_append, List.append_nil, tickRuns_squeezed]

/-- No backtick of the code stands beside the ticks. -/
theorem padded_ends : (padded wrap literal).head? ≠ some '\x60' ∧ (padded wrap literal).getLast? ≠ some '\x60' := by
  unfold padded
  dsimp only
  split
  · rw [List.getLast?_concat]
    exact ⟨by simp, by decide⟩
  · rename_i hpad
    rw [List.nil_append, List.append_nil, head?_squeezed, getLast?_squeezed]
    constructor
    · intro h
      exact hpad (by simp [needsPad, h])
    · intro h
      exact hpad (by simp [needsPad, h])

/-- What is written for code is a span. -/
theorem isSpan_padded (wrap : Bool) (hne : literal ≠ []) :
    ∃ n, IsSpan n (padded wrap literal) (ticks literal ++ padded wrap literal ++ ticks literal) := by
  obtain ⟨n, hpos, hticks, hunused⟩ := exists_ticks literal
  have hsqueezed : squeezed wrap literal ≠ [] := by
    intro hnil
    apply hne
    rw [← List.head?_eq_none_iff, ← head?_squeezed wrap, hnil]
    rfl
  refine ⟨n, by rw [hticks], hpos, ?_, padded_ends.1, padded_ends.2, ?_⟩
  · simp [padded, hsqueezed]
  · rintro ⟨front, back, heq, hfront, hback⟩
    apply hunused
    rw [← tickRuns_padded wrap, heq, List.append_assoc]
    exact mem_tickRuns (by omega) hfront hback fun _ => rfl

/-! ## The page of a span -/

/-- The output of the page is `t`, with no margin, nothing owed and lines that may break. -/
structure Typed (t : Text) (p : Page) : Prop where
  margin : p.margin = []
  owed : p.owed = 0
  oneLine : p.oneLine = false
  text : p.text = t
  begun : p.beginLine = true → t = []

/-- On a page that does not wrap, the characters of glyphs go behind the output. -/
theorem text_foldl_literal {f : Format} (hwidth : f.width = 0) {gs : List Glyph}
    (hgs : ∀ next, Glyph.char '\n' next ∉ gs) {p : Page} (hmargin : p.margin = [])
    (hstart : p.beginLine = true → ∀ b, Glyph.space b ∉ gs) :
    (gs.foldl (Page.putGlyph f .literal) p).text = p.text ++ gs.map glyphChar ∧
      ((gs.foldl (Page.putGlyph f .literal) p).beginLine = true → p.beginLine = true ∧ gs = []) := by
  induction gs generalizing p with
  | nil => exact ⟨by simp, fun h => ⟨h, rfl⟩⟩
  | cons g gs ih =>
    have hstep : (p.putGlyph f .literal g).text = p.text ++ [glyphChar g] ∧
        (p.putGlyph f .literal g).beginLine = false := by
      cases g with
      | space breaks =>
        have hbegun : p.beginLine = false := by
          by_contra htrue
          exact hstart (by simpa using htrue) breaks List.mem_cons_self
        rw [Page.putGlyph, Page.wrap_of_width hwidth, Page.beginLine_putSpace]
        refine ⟨?_, hbegun⟩
        simp [Page.text, Page.reversed_putSpace, hbegun, glyphChar]
      | char c next =>
        have hc : c ≠ '\n' := fun heq => hgs next (heq ▸ List.mem_cons_self)
        have hline : (p.startLine c).reversed = p.reversed := by
          rw [Page.startLine_of_margin hmargin]
          split <;> rfl
        rw [Page.putGlyph, Page.wrap_of_width hwidth, Page.putChar_of_ne hc]
        refine ⟨?_, rfl⟩
        show ((p.startLine c).write [c]).reversed.reverse = _
        rw [Page.reversed_write, hline]
        simp [Page.text, glyphChar]
    have hmargin' : (p.putGlyph f .literal g).margin = [] :=
      (Page.margin_eq_of_setting (Page.setting_putGlyph _ g)).trans hmargin
    have hfalse : (p.putGlyph f .literal g).beginLine ≠ true := by simp [hstep.2]
    obtain ⟨htext, hbegins⟩ := ih (fun next hmem => hgs next (List.mem_cons_of_mem g hmem)) hmargin'
      fun h => absurd h hfalse
    rw [List.foldl_cons]
    refine ⟨?_, fun h => absurd (hbegins h).1 hfalse⟩
    rw [htext, hstep.1]
    simp

theorem space_notMem_glyphs (t : Text) (b : Bool) : Glyph.space b ∉ glyphs false t := by
  induction t with
  | nil => simp [glyphs]
  | cons c cs ih => simp [glyphs, ih]

theorem squeezed_false (t : Text) : squeezed false t = t :=
  squeezed_eq_iff.mpr fun h => Bool.noConfusion h.1

theorem Typed.put {f : Format} {p : Page} (hwidth : f.width = 0) (h : Typed t p) (hu : '\n' ∉ u) (wrap : Bool)
    (hstart : t = [] → wrap = false) : Typed (t ++ squeezed wrap u) (p.put f u wrap .literal) := by
  have hsetting := Page.setting_put (f := f) (p := p) u wrap .literal
  have hglyphs : ∀ next, Glyph.char '\n' next ∉ glyphs wrap u := fun next hmem => hu (Page.char_mem_of_glyph hmem)
  have hspace : p.beginLine = true → ∀ b, Glyph.space b ∉ glyphs wrap u := by
    intro hbegins b
    rw [hstart (h.begun hbegins)]
    exact space_notMem_glyphs u b
  obtain ⟨htext, hbegins⟩ := text_foldl_literal hwidth hglyphs h.margin hspace
  have hput : p.put f u wrap .literal = (glyphs wrap u).foldl (Page.putGlyph f .literal) p := by
    unfold Page.put
    rw [Page.settle_of_due (Page.due_of_owed h.owed), h.oneLine]
    simp
  rw [← hput] at htext hbegins
  refine ⟨(Page.margin_put _ _ _).trans h.margin, Page.owed_put _ _ _, ?_, ?_, ?_⟩
  · exact (congrArg (·.2.2.1) hsetting).trans h.oneLine
  · rw [htext, h.text]
    rfl
  · intro htrue
    obtain ⟨hp, hnil⟩ := hbegins htrue
    rw [h.begun hp, squeezed, hnil]
    rfl

theorem Typed.lit {f : Format} {p : Page} (hwidth : f.width = 0) (h : Typed t p) (hu : '\n' ∉ u) :
    Typed (t ++ u) (p.follow f (lit u)) := by
  have hput := h.put hwidth hu false fun _ => rfl
  rw [squeezed_false] at hput
  exact hput

theorem eq_of_mem_ticks {c : Char} (h : c ∈ ticks literal) : c = '\x60' := by
  obtain ⟨n, -, hticks, -⟩ := exists_ticks literal
  exact List.eq_of_mem_replicate (hticks ▸ h)

theorem newline_notMem_ticks (literal : Text) : '\n' ∉ ticks literal :=
  fun h => absurd (eq_of_mem_ticks h) (by decide)

theorem ticks_ne_nil (literal : Text) : ticks literal ≠ [] := by
  obtain ⟨n, hpos, hticks, -⟩ := exists_ticks literal
  rw [hticks]
  simp
  omega

/-- On a page that does not wrap, a span stands as it is written. -/
theorem typed_codeSpan {p : Page} (hstart : Typed [] p) (hline : '\n' ∉ literal) (wrap : Bool) :
    Typed (ticks literal ++ padded wrap literal ++ ticks literal)
      (p.run ⟨0, escapeChar⟩ (codeSpan wrap literal)) := by
  have hticks := newline_notMem_ticks literal
  have hspace : '\n' ∉ [' '] := by decide
  have hne : ∀ t, ticks literal ++ t ≠ [] := by simp [ticks_ne_nil]
  have hopen := hstart.lit (f := ⟨0, escapeChar⟩) rfl hticks
  rw [List.nil_append] at hopen
  unfold codeSpan padded
  dsimp only
  split
  · have hpad := hopen.lit (f := ⟨0, escapeChar⟩) rfl hspace
    have hcode := hpad.put (f := ⟨0, escapeChar⟩) rfl hline wrap fun h => absurd h (hne [' '])
    have hclose := (hcode.lit (f := ⟨0, escapeChar⟩) rfl hspace).lit (f := ⟨0, escapeChar⟩) rfl hticks
    simp only [List.append_assoc] at hclose ⊢
    exact hclose
  · have hcode := hopen.put (f := ⟨0, escapeChar⟩) rfl hline wrap fun h => absurd h (ticks_ne_nil _)
    have hclose := hcode.lit (f := ⟨0, escapeChar⟩) rfl hticks
    simp only [List.nil_append, List.append_nil] at hclose ⊢
    exact hclose

theorem writesLine_codeSpan (hline : '\n' ∉ literal) (wrap : Bool) : ∀ i ∈ codeSpan wrap literal, i.writesLine := by
  have hticks := newline_notMem_ticks literal
  unfold codeSpan
  dsimp only
  split <;> simp [lit, Instruction.writesLine, hticks, hline]

theorem alike_start (on : Bool) : Page.Alike { tightItem := on } { tightItem := on } :=
  ⟨rfl, rfl, rfl, ⟨⟨[], .nil, rfl⟩, nofun⟩, nofun, fun _ => rfl⟩

/-- The page of a span of code: it is one span, of which the code is that of the padded literal. -/
theorem render_code {s : Site} (hcontent : s.content = .code literal) (hchildren : s.children = .nil)
    (hne : literal ≠ []) (hline : '\n' ∉ literal) (hreturn : '\r' ∉ literal) (o : Options) (width : Nat) :
    ∃ n inside out, render o width s = out ++ ['\n'] ∧ IsSpan n inside out ∧
      spaced inside = padded (o.wraps (effectiveWidth o width)) literal := by
  have hkind : s.kind = .code := congrArg Content.kind hcontent
  let on := inTightItem (s.node :: s.ancestors)
  let wrap := o.wraps (effectiveWidth o width)
  have hvisit : s.visit (visitor o (effectiveWidth o width)) =
      .tightItem on :: (codeSpan wrap literal ++ [.tightItem on]) := by
    rw [Site.visit_of_leaf hchildren]
    simp [visitor, enter, enterContent, exit, exitContent, hcontent, hkind, tightness, on, wrap]
  -- a page of any width is the one that does not wrap, with some of its spaces folded
  have halike : Page.Alike (Page.run (format o width) (codeSpan wrap literal) { tightItem := on })
      (Page.run ⟨0, escapeChar⟩ (codeSpan wrap literal) { tightItem := on }) :=
    (alike_start on).run steady_escapeChar (by simp) rfl (writesLine_codeSpan hline wrap)
  have htyped := typed_codeSpan (p := { tightItem := on }) ⟨rfl, rfl, rfl, rfl, fun _ => rfl⟩ hline wrap
  have hfolded := halike.text.text
  rw [halike.margin, htyped.margin, htyped.text] at hfolded
  obtain ⟨n, hspan⟩ := isSpan_padded wrap hne
  have hreturn' : '\r' ∉ ticks literal ++ padded wrap literal ++ ticks literal := by
    have hticks : '\r' ∉ ticks literal := fun h => absurd (eq_of_mem_ticks h) (by decide)
    have hpadded : '\r' ∉ padded wrap literal := by
      unfold padded
      dsimp only
      split <;> simp [mem_squeezed, hreturn]
    simp [hticks, hpadded]
  obtain ⟨inside, hinside, hspaced⟩ := hspan.of_folded hfolded hreturn'
  refine ⟨n, inside, _, ?_, hinside, hspaced⟩
  have hlast : (Page.run (format o width) (codeSpan wrap literal) { tightItem := on }).text.getLast? = some '\x60' := by
    obtain ⟨m, hm⟩ := Nat.exists_eq_succ_of_ne_zero (Nat.pos_iff_ne_zero.mp hinside.pos)
    have htext := hinside.eq
    rw [hm, Nat.succ_eq_add_one, List.replicate_succ', ← List.append_assoc] at htext
    exact (congrArg List.getLast? htext).trans List.getLast?_concat
  have hfinish := (Page.finish_eq _).trans (Text.ended_lines_of_getLast? hlast (by decide))
  unfold render
  dsimp only
  rw [hvisit, ← List.cons_append]
  unfold Layout.render
  rw [Page.run_append]
  exact hfinish

end CommonMark

namespace Document

open CommonMark

/-- In every session, code of one line is written as one span at any width: the run of backticks that it
begins with is met again at its end alone. The code that is read from it is the code, if and only if no
two spaces of it stand side by side where lines may break, and it is not blank with a space at each end
and something else than spaces between them. -/
theorem Session.code_reads_back (x : Session) {id : NodeId} {s : Site} (hs : x.document.site? id = some s)
    {literal : Text} (hcontent : s.content = .code literal) (hne : literal ≠ []) (hline : '\n' ∉ literal)
    (hreturn : '\r' ∉ literal) (o : Options) (width : Nat) :
    ∃ out n inside, x.document.render? id .commonMark o width = some (out ++ ['\n']) ∧ IsSpan n inside out ∧
      (codeOf inside = literal ↔
        ¬(o.wraps (effectiveWidth o width) = true ∧ [' ', ' '] <:+: literal) ∧ ¬LosesEnds literal) := by
  have hchildren := x.sound.children_of_literal hs (by rw [hcontent]; rfl)
  obtain ⟨n, inside, out, hrender, hspan, hspaced⟩ :=
    render_code hcontent hchildren hne hline hreturn o width
  refine ⟨out, n, inside, ?_, hspan, ?_⟩
  · rw [← hrender, render?, hs]
    rfl
  · rw [codeOf, hspaced, stripped_padded hne]

/-- Code with a backtick at its start and a run of two in it, in lines of four columns. -/
theorem code_reads_back_ticks :
    let x : Session := ⟨.new, [.create .paragraph, .appendChild 0 1, .create .code, .appendChild 1 2,
      .set 2 (.literal (some "\x60 a \x60\x60b c".toList))]⟩
    let literal := "\x60 a \x60\x60b c".toList
    ∃ s, (x.document.site? 2 = some s ∧ s.content = .code literal ∧ literal ≠ [] ∧ '\n' ∉ literal ∧
        '\r' ∉ literal) ∧
      ∃ out n inside, x.document.render? 2 .commonMark {} 4 = some (out ++ ['\n']) ∧ IsSpan n inside out ∧
        (codeOf inside = literal ↔
          ¬(({} : Options).wraps (effectiveWidth {} 4) = true ∧ [' ', ' '] <:+: literal) ∧ ¬LosesEnds literal) := by
  intro x literal
  have hcode : (x.document.site? 2).map Site.content = some (.code literal) := by decide +kernel
  obtain ⟨s, hs, hcontent⟩ := Option.map_eq_some_iff.mp hcode
  have hne : literal ≠ [] := by decide
  have hline : '\n' ∉ literal := by decide
  have hreturn : '\r' ∉ literal := by decide
  exact ⟨s, ⟨hs, hcontent, hne, hline, hreturn⟩, x.code_reads_back hs hcontent hne hline hreturn {} 4⟩

/-- A tab between two spaces is written without a pad, and the spaces are taken off. Two spaces become one
where lines may break. -/
theorem code_loses_spaces :
    let x : Session := ⟨.new, [.create .paragraph, .appendChild 0 1, .create .code, .appendChild 1 2,
      .set 2 (.literal (some " \t ".toList)), .create .code, .appendChild 1 3,
      .set 3 (.literal (some "a  b".toList))]⟩
    (x.document.render? 2 .commonMark {} 80 = some ("\x60 \t \x60".toList ++ ['\n']) ∧
        IsSpan 1 " \t ".toList "\x60 \t \x60".toList ∧ codeOf " \t ".toList ≠ " \t ".toList) ∧
      x.document.render? 3 .commonMark {} 80 = some ("\x60a b\x60".toList ++ ['\n']) ∧
        IsSpan 1 "a b".toList "\x60a b\x60".toList ∧ codeOf "a b".toList ≠ "a  b".toList := by
  intro x
  have hrun : ∀ {t : Text}, '\x60' ∉ t → ¬HasRun 1 t := by
    rintro t hnot ⟨front, back, rfl, -, -⟩
    exact hnot (by simp)
  refine ⟨⟨?_, ?_, ?_⟩, ?_, ?_, ?_⟩
  · decide +kernel
  · exact ⟨rfl, by decide, by decide, by decide, by decide, hrun (by decide)⟩
  · decide
  · decide +kernel
  · exact ⟨rfl, by decide, by decide, by decide, by decide, hrun (by decide)⟩
  · decide

end Document

end MarkupTree
