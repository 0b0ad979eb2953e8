-- The lines of a text, and texts of which every line begins with a mark. A
-- page grows at its end, so the mark is followed there character by character,
-- the last character first.
import MarkupTree.Text.Basic

namespace MarkupTree

namespace Text

/-- The lines of a text. A line break ends its line, so none stands after the
last line break. -/
def lines : Text → List Text
  | [] => []
  | c :: cs =>
    if c = '\n' then [] :: lines cs
    else
      match lines cs with
      | [] => [[c]]
      | l :: ls => (c :: l) :: ls

example : lines "a\n\nb".toList = ["a".toList, [], "b".toList] := rfl

/-- Whether more output would stand at the start of a line. The output is
given with the last character first. -/
def atStart (output : List Char) : Bool := output.headD '\n' == '\n'

/-- Every line of the output begins with the character `m`. The output is given
with the last character first. -/
def Marked (m : Char) : List Char → Prop
  | [] => True
  | c :: cs => (atStart cs = true → c = m) ∧ Marked m cs

@[simp] theorem atStart_nil : atStart [] = true := rfl

@[simp] theorem atStart_cons (c : Char) (cs : List Char) : atStart (c :: cs) = (c == '\n') := rfl

variable {m : Char}

/-! ## Lines and marks -/

/-- The characters that begin a line are the mark, where `start` tells whether
the text itself stands at the start of one. -/
def MarkedFrom (m : Char) : Bool → Text → Prop
  | _, [] => True
  | start, c :: cs => (start = true → c = m) ∧ MarkedFrom m (c == '\n') cs

theorem marked_reverse_append (t : Text) (output : List Char) :
    Marked m (t.reverse ++ output) ↔ Marked m output ∧ MarkedFrom m (atStart output) t := by
  induction t generalizing output with
  | nil => simp [MarkedFrom]
  | cons c cs ih =>
    rw [List.reverse_cons, List.append_assoc, List.singleton_append, ih]
    simp only [Marked, MarkedFrom, atStart_cons]
    rw [and_assoc, and_left_comm]

theorem exists_lines_cons {c : Char} (hc : c ≠ '\n') (t : Text) :
    ∃ l, lines (c :: t) = (c :: l) :: (lines (c :: t)).tail := by
  rw [lines, if_neg hc]
  split
  · exact ⟨[], rfl⟩
  · exact ⟨_, rfl⟩

/-- A text in which every line begins with the mark, and one that goes on with a
line whose beginning is given. -/
theorem forall_lines_iff (hm : m ≠ '\n') (t : Text) :
    ((∀ l ∈ lines t, l.head? = some m) ↔ MarkedFrom m true t) ∧
      ∀ c, c ≠ '\n' → ((∀ l ∈ (lines (c :: t)).tail, l.head? = some m) ↔ MarkedFrom m false t) := by
  induction t with
  | nil =>
    refine ⟨by simp [lines, MarkedFrom], fun c hc => ?_⟩
    simp [lines, hc, MarkedFrom]
  | cons d ds ih =>
    obtain ⟨hstart, hgoes⟩ := ih
    by_cases hd : d = '\n'
    · subst hd
      constructor
      · simp [lines, MarkedFrom, Ne.symm hm]
      · intro c hc
        simpa [lines, hc, MarkedFrom] using hstart
    · obtain ⟨l, hl⟩ := exists_lines_cons hd ds
      have htail := hgoes d hd
      have hdn : (d == '\n') = false := beq_eq_false_iff_ne.mpr hd
      constructor
      · rw [hl, List.forall_mem_cons, htail, MarkedFrom, hdn]
        simp
      · intro c hc
        have hcons : (lines (c :: d :: ds)).tail = (lines (d :: ds)).tail := by
          rw [lines, if_neg hc, hl]
          rfl
        rw [hcons, htail, MarkedFrom, hdn]
        simp

theorem forall_lines_iff_marked (hm : m ≠ '\n') (output : List Char) :
    (∀ l ∈ lines output.reverse, l.head? = some m) ↔ Marked m output := by
  have h := marked_reverse_append (m := m) output.reverse []
  rw [List.reverse_reverse, List.append_nil] at h
  rw [(forall_lines_iff hm _).1, h]
  simp [Marked]

/-! ## Whole lines -/

/-- The lines, each with its line break. -/
def ended (ls : List Text) : Text := ls.flatMap (· ++ ['\n'])

theorem ended_concat (ls : List Text) (l : Text) : ended (ls ++ [l]) = ended ls ++ l ++ ['\n'] := by
  simp [ended]

theorem lines_line_append {l : Text} (h : '\n' ∉ l) (t : Text) : lines (l ++ '\n' :: t) = l :: lines t := by
  induction l with
  | nil => rfl
  | cons c l ih =>
    obtain ⟨hc, hl⟩ : '\n' ≠ c ∧ '\n' ∉ l := by simpa using h
    rw [List.cons_append, lines, if_neg (Ne.symm hc), ih hl]

theorem lines_ended_append {ls : List Text} (h : ∀ l ∈ ls, '\n' ∉ l) (t : Text) :
    lines (ended ls ++ t) = ls ++ lines t := by
  induction ls with
  | nil => rfl
  | cons l ls ih =>
    obtain ⟨hl, hls⟩ := List.forall_mem_cons.mp h
    have hcons : ended (l :: ls) ++ t = l ++ '\n' :: (ended ls ++ t) := by simp [ended]
    rw [hcons, lines_line_append hl, ih hls, List.cons_append]

/-- The output is whole lines and a line that goes on. The output is given with the
last character first. -/
structure Lined (ls : List Text) (current : Text) (output : List Char) : Prop where
  eq : output.reverse = ended ls ++ current
  whole : ∀ l ∈ ls, '\n' ∉ l
  goesOn : '\n' ∉ current

namespace Lined

variable {ls : List Text} {current : Text} {output : List Char}

theorem nil : Lined [] [] [] := ⟨rfl, nofun, nofun⟩

theorem append (h : Lined ls current output) {t : Text} (ht : '\n' ∉ t) :
    Lined ls (current ++ t) (t.reverse ++ output) where
  eq := by rw [List.reverse_append, List.reverse_reverse, h.eq, List.append_assoc]
  whole := h.whole
  goesOn := by
    rw [List.mem_append, not_or]
    exact ⟨h.goesOn, ht⟩

theorem append_reversed (h : Lined ls current output) {t : List Char} (ht : '\n' ∉ t) :
    Lined ls (current ++ t.reverse) (t ++ output) := by
  have happend := h.append (t := t.reverse) (mt List.mem_reverse.mp ht)
  rwa [List.reverse_reverse] at happend

theorem newline (h : Lined ls current output) : Lined (ls ++ [current]) [] ('\n' :: output) where
  eq := by rw [List.reverse_cons, h.eq, ended_concat, List.append_nil]
  whole := by
    rw [List.forall_mem_append]
    exact ⟨h.whole, List.forall_mem_singleton.mpr h.goesOn⟩
  goesOn := List.not_mem_nil

/-- The output ends with the last character of its last line, if that is begun. -/
theorem head?_of_ne_nil (h : Lined ls current output) (hne : current ≠ []) :
    output.head? = current.getLast? := by
  obtain ⟨l, c, rfl⟩ : ∃ l c, current = l ++ [c] :=
    ⟨_, _, (List.dropLast_concat_getLast hne).symm⟩
  rw [← List.getLast?_reverse, h.eq, ← List.append_assoc, List.getLast?_concat, List.getLast?_concat]

/-- The last character of a begun line is no line feed. -/
theorem exists_cons (h : Lined ls current output) (hne : current ≠ []) :
    ∃ c cs, c ≠ '\n' ∧ output = c :: cs := by
  have hhead := h.head?_of_ne_nil hne
  rw [List.getLast?_eq_some_getLast hne] at hhead
  obtain ⟨cs, hcs⟩ := List.head?_eq_some_iff.mp hhead
  refine ⟨_, cs, ?_, hcs⟩
  intro heq
  exact h.goesOn (heq ▸ List.getLast_mem hne)

theorem head?_of_nil (h : Lined ls [] output) : output.head? = none ∨ output.head? = some '\n' := by
  rw [← List.getLast?_reverse, h.eq, List.append_nil]
  rcases List.eq_nil_or_concat ls with rfl | ⟨ms, l, rfl⟩
  · exact Or.inl rfl
  · rw [List.concat_eq_append, ended_concat, List.getLast?_concat]
    exact Or.inr rfl

/-- With its last line ended, the output is the whole lines and that one. -/
theorem lines_eq (h : Lined ls current output) :
    lines (output.reverse ++ ['\n']) = ls ++ [current] := by
  rw [h.eq, List.append_assoc, lines_ended_append h.whole, lines_line_append h.goesOn]
  rfl

end Lined

/-! ## Marks of a growing output -/

theorem marked_of_append {xs output : List Char} (h : Marked m (xs ++ output)) : Marked m output := by
  induction xs with
  | nil => exact h
  | cons x xs ih => exact ih h.2

/-- More on a line that is begun changes no beginning of a line. -/
theorem marked_append {xs output : List Char} (hxs : '\n' ∉ xs) (hstart : atStart output = false)
    (h : Marked m output) : Marked m (xs ++ output) ∧ atStart (xs ++ output) = false := by
  induction xs with
  | nil => exact ⟨h, hstart⟩
  | cons x xs ih =>
    obtain ⟨hx, hxs⟩ : '\n' ≠ x ∧ '\n' ∉ xs := by simpa using hxs
    obtain ⟨hmarked, hfalse⟩ := ih hxs
    refine ⟨⟨fun htrue => ?_, hmarked⟩, by simpa using Ne.symm hx⟩
    cases hfalse.symm.trans htrue

/-- A line that begins with the mark may begin anywhere. -/
theorem marked_append_line {xs output : List Char} {c : Char} (hxs : '\n' ∉ xs ++ [c])
    (hc : atStart output = true → c = m) (h : Marked m output) :
    Marked m (xs ++ c :: output) ∧ atStart (xs ++ c :: output) = false := by
  obtain ⟨hx, hn⟩ : '\n' ∉ xs ∧ '\n' ≠ c := by simpa using hxs
  exact marked_append hx (by simpa using Ne.symm hn) ⟨hc, h⟩

/-- What stands on a begun line may stand on another one. -/
theorem marked_congr {a b : List Char} (ha : atStart a = false) (hb : atStart b = false)
    (h : Marked m a ↔ Marked m b) (t : List Char) : Marked m (t ++ a) ↔ Marked m (t ++ b) := by
  induction t with
  | nil => exact h
  | cons c t ih =>
    have hstart : atStart (t ++ a) = atStart (t ++ b) := by
      cases t with
      | nil => exact ha.trans hb.symm
      | cons d t => rfl
    simp only [List.cons_append, Marked, hstart, ih]

end Text

end MarkupTree
