-- Blank lines in a stretch of the source. The search cuts the stretch into its
-- lines and looks at each line between two others. What it finds is a pair of
-- line endings with nothing but blanks and quote markers between them.
import MarkupTree.Source

namespace MarkupTree

namespace Source

/-- The text with each line ending written as one LF. -/
def unified : Text → Text
  | [] => []
  | '\r' :: '\n' :: cs => '\n' :: unified cs
  | c :: cs => (if c = '\r' then '\n' else c) :: unified cs

/-- Whether a character may stand on a blank line: a blank, or the marker of a
block quote. -/
def isFill (c : Char) : Bool := c == '>' || Text.isBlank c

/-- Two line endings stand in the text with nothing but blanks and quote
markers between them. CRLF is one line ending. -/
def SpansBlankLine (gap : Text) : Prop :=
  ∃ before fill after, unified gap = before ++ '\n' :: fill ++ '\n' :: after ∧
    ∀ c ∈ fill, isFill c = true

/-! ## Lines -/

/-- The lines of a text stand between the line feeds once its line endings are
unified. -/
theorem lines_eq (t : Text) : lines t = (unified t).splitOn '\n' := by
  unfold List.splitOn
  induction t using unified.induct with
  | case1 => rfl
  | case2 cs ih => rw [unified, lines, List.splitOnP_cons_eq_if_modifyHead, if_pos (by rfl), ih]
  | case3 c cs hcrlf ih =>
    rw [unified.eq_3 _ _ hcrlf, lines.eq_3 _ _ hcrlf, List.splitOnP_cons_eq_if_modifyHead]
    by_cases hend : c = '\n' ∨ c = '\r'
    · have hlf : (if c = '\r' then '\n' else c) = '\n' := by
        rcases hend with rfl | rfl <;> rfl
      rw [hlf, if_pos hend, if_pos (by rfl), ih]
    · obtain ⟨hlf, hcr⟩ := not_or.mp hend
      rw [if_neg hend, if_neg hcr, if_neg (by simpa using hlf)]
      rw [ih]
      obtain ⟨l, ls, hl⟩ := List.exists_cons_of_ne_nil (List.splitOnP_ne_nil _ (unified cs))
      rw [hl]
      rfl

theorem intercalate_append {ls ms : List Text} (hls : ls ≠ []) (hms : ms ≠ []) :
    ['\n'].intercalate (ls ++ ms) =
      ['\n'].intercalate ls ++ '\n' :: ['\n'].intercalate ms := by
  induction ls with
  | nil => exact absurd rfl hls
  | cons l ls ih =>
    cases ls with
    | nil => simp [List.intercalate_cons_of_ne_nil hms]
    | cons k ls =>
      rw [List.cons_append, List.intercalate_cons_of_ne_nil (by simp), ih (List.cons_ne_nil k ls),
        List.intercalate_cons_of_ne_nil (List.cons_ne_nil k ls)]
      simp

theorem subset_intercalate {l : Text} {ls : List Text} (hl : l ∈ ls) :
    l ⊆ ['\n'].intercalate ls := by
  induction ls with
  | nil => cases hl
  | cons k ls ih =>
    intro c hc
    rcases List.mem_cons.mp hl with rfl | hl
    · cases ls with
      | nil => simpa using hc
      | cons m ls => simp [List.intercalate_cons_cons, hc]
    · rw [List.intercalate_cons_of_ne_nil (List.ne_nil_of_mem hl)]
      exact List.mem_append_right _ (ih hl hc)

/-! ## Blank lines -/

/-- The search finds a blank line exactly where two line endings show one. -/
theorem hasBlankLine_iff (gap : Text) : hasBlankLine gap = true ↔ SpansBlankLine gap := by
  rw [hasBlankLine, List.any_eq_true, lines_eq]
  constructor
  · rintro ⟨l, hl, hfill⟩
    obtain ⟨first, rest, hrest⟩ := List.exists_cons_of_ne_nil (List.splitOn_ne_nil '\n' (unified gap))
    rw [hrest, List.drop_succ_cons, List.drop_zero] at hl
    rcases List.eq_nil_or_concat rest with rfl | ⟨init, last, rfl⟩
    · cases hl
    · rw [List.concat_eq_append, List.dropLast_concat] at hl
      obtain ⟨ls, ms, rfl⟩ := List.append_of_mem hl
      refine ⟨['\n'].intercalate (first :: ls), l, ['\n'].intercalate (ms ++ [last]), ?_,
        List.all_eq_true.mp hfill⟩
      have heq : first :: (ls ++ l :: ms).concat last = (first :: ls) ++ ([l] ++ (ms ++ [last])) := by
        simp
      have hjoin : ['\n'].intercalate ((unified gap).splitOn '\n') = unified gap :=
        List.intercalate_splitOn '\n'
      rw [← hjoin, hrest, heq, intercalate_append (by simp) (by simp), intercalate_append (by simp) (by simp)]
      simp
  · rintro ⟨before, fill, after, heq, hfill⟩
    have hsplit : (unified gap).splitOn '\n' =
        before.splitOn '\n' ++ (fill.splitOn '\n' ++ after.splitOn '\n') := by
      rw [heq, List.append_assoc, List.cons_append]
      unfold List.splitOn
      rw [List.splitOnP_append_cons _ _ (by rfl), List.splitOnP_append_cons _ _ (by rfl)]
    obtain ⟨first, ls, hfirst⟩ := List.exists_cons_of_ne_nil (List.splitOn_ne_nil '\n' before)
    obtain ⟨l, ms, hl⟩ := List.exists_cons_of_ne_nil (List.splitOn_ne_nil '\n' fill)
    have hsub : l ⊆ fill := by
      have hjoin : ['\n'].intercalate (fill.splitOn '\n') = fill := List.intercalate_splitOn '\n'
      rw [← hjoin, hl]
      exact subset_intercalate List.mem_cons_self
    refine ⟨l, ?_, List.all_eq_true.mpr fun c hc => hfill c (hsub hc)⟩
    rw [hsplit, hfirst, hl, List.cons_append, List.drop_succ_cons, List.drop_zero,
      ← List.append_assoc, List.dropLast_append_of_ne_nil (List.splitOn_ne_nil _ _)]
    simp

/-- A line with a quote marker is blank, and one CRLF ends one line only. -/
example : hasBlankLine ['\r', '\n', '>', ' ', '\n'] = true ∧ hasBlankLine ['\r', '\n'] = false := by
  decide

end Source

end MarkupTree
