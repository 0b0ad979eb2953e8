-- Escaped text. What is written of a text is what is written of its parts, one
-- after the other, and a single pass over it that puts the characters in the
-- place of their references gives the text back, also where the text itself
-- looks escaped.
import MarkupTree.Proofs.Html.Safety

namespace MarkupTree

namespace Html

/-! ## One pass over the references -/

/-- The references that escaped text has. -/
def textReferences : List Text :=
  ["&amp;".toList, "&lt;".toList, "&gt;".toList, "&quot;".toList]

/-- Puts the characters in the place of their references, from left to right.
What is put there is not looked at again. -/
def unescape : Text → Text
  | [] => []
  | '&' :: 'a' :: 'm' :: 'p' :: ';' :: cs => '&' :: unescape cs
  | '&' :: 'l' :: 't' :: ';' :: cs => '<' :: unescape cs
  | '&' :: 'g' :: 't' :: ';' :: cs => '>' :: unescape cs
  | '&' :: 'q' :: 'u' :: 'o' :: 't' :: ';' :: cs => '\x22' :: unescape cs
  | c :: cs => c :: unescape cs

example : unescape "&amp;lt; &copy;&lt;".toList = "&lt; &copy;<".toList := rfl

theorem unescape_cons {c : Char} (hc : c ≠ '&') (cs : Text) :
    unescape (c :: cs) = c :: unescape cs := by
  rw [unescape] <;> simp [hc]

/-- The pass takes what is written of one character for that character. -/
theorem unescape_escapeChar (c : Char) (t : Text) :
    unescape (escapeChar c ++ t) = c :: unescape t := by
  unfold escapeChar
  split
  · subst c
    rfl
  · split
    · subst c
      rfl
    · split
      · subst c
        rfl
      · split
        · subst c
          rfl
        · exact unescape_cons ‹_› t

theorem unescape_escape (t : Text) : unescape (escape t) = t := by
  induction t with
  | nil => rfl
  | cons c t ih => rw [escape, List.flatMap_cons, unescape_escapeChar, ← escape, ih]

/-! ## Ampersands -/

/-- A character is written as one of the references, which has no ampersand but
the one at its front, or as itself. -/
theorem escapeChar_cases (c : Char) :
    (∃ name, escapeChar c = '&' :: name ∧ '&' :: name ∈ textReferences ∧ '&' ∉ name) ∨
      (escapeChar c = [c] ∧ c ≠ '&') := by
  unfold escapeChar
  split
  · exact Or.inl ⟨"amp;".toList, rfl, by decide, by decide⟩
  · split
    · exact Or.inl ⟨"lt;".toList, rfl, by decide, by decide⟩
    · split
      · exact Or.inl ⟨"gt;".toList, rfl, by decide, by decide⟩
      · split
        · exact Or.inl ⟨"quot;".toList, rfl, by decide, by decide⟩
        · exact Or.inr ⟨rfl, ‹c ≠ '&'›⟩

/-- An ampersand in what is written of one character stands at its front and
begins a reference. -/
theorem reference_of_escapeChar {c : Char} {a b : Text} (h : escapeChar c = a ++ '&' :: b) :
    a = [] ∧ escapeChar c ∈ textReferences := by
  rcases escapeChar_cases c with ⟨name, hc, hname, hnot⟩ | ⟨hc, hne⟩
  · rw [hc] at h ⊢
    refine ⟨?_, hname⟩
    cases a with
    | nil => rfl
    | cons x a =>
      obtain ⟨-, rfl⟩ := List.cons.inj h
      simp at hnot
  · have hmem : '&' ∈ escapeChar c := by
      rw [h]
      simp
    rw [hc, List.mem_singleton] at hmem
    exact absurd hmem.symm hne

/-- Wherever an ampersand stands in escaped text, a reference stands there. -/
theorem reference_of_ampersand {t a b : Text} (h : escape t = a ++ '&' :: b) :
    ∃ r ∈ textReferences, r <+: '&' :: b := by
  induction t generalizing a with
  | nil => simp [escape] at h
  | cons c t ih =>
    rw [escape, List.flatMap_cons, ← escape, List.append_eq_append_iff] at h
    rcases h with ⟨before, rfl, hrest⟩ | ⟨within, hc, hrest⟩
    · exact ih hrest
    · cases within with
      | nil =>
        have hrest : escape t = [] ++ '&' :: b := hrest.symm
        exact ih hrest
      | cons x within =>
        obtain ⟨rfl, rfl⟩ := List.cons.inj hrest
        obtain ⟨rfl, hmem⟩ := reference_of_escapeChar hc
        exact ⟨_, hmem, escape t, by rw [hc]; rfl⟩

/-! ## The law -/

/-- Escaping goes part by part, is undone by one pass, and leaves no bracket, no
quote, and no ampersand that begins no reference. -/
theorem escaping_is_undone (s : Text) :
    (∀ t, escape (s ++ t) = escape s ++ escape t) ∧ unescape (escape s) = s ∧
      (∀ c ∈ escape s, c ≠ '<' ∧ c ≠ '>' ∧ c ≠ '\x22') ∧
      ∀ a b, escape s = a ++ '&' :: b → ∃ r ∈ textReferences, r <+: '&' :: b := by
  refine ⟨escape_append s, unescape_escape s, fun c hc => ?_, fun a b => reference_of_ampersand⟩
  exact Markup.isValueChar_iff.mp ((isHarmless_escape s).chars c hc)

end Html

end MarkupTree
