-- Escaping literals and the values of attributes. Of the escaper nothing is used
-- but what its documentation says: what it writes reads back, whatever the text,
-- and ends no attribute value.
import MarkupTree.Proofs.Xml.Reading
import Mathlib.Data.List.Basic

namespace MarkupTree

namespace Xml

/-! ## Escaping -/

/-- What the documentation says of an escaper: it goes over the text part by
part, it writes five characters as references, and it leaves the others as they
are. -/
structure Escaper.Documented (e : Escaper) : Prop where
  append : ∀ s t, e (s ++ t) = e s ++ e t
  lt : e ['<'] = "&lt;".toList
  gt : e ['>'] = "&gt;".toList
  amp : e ['&'] = "&amp;".toList
  apos : e ['\x27'] = "&apos;".toList
  quot : e ['\x22'] = "&quot;".toList
  kept : ∀ c, c ∉ ['<', '>', '&', '\x27', '\x22'] → e [c] = [c]

/-- A character that is none of the five stays as it is. -/
theorem escapeChar_kept {c : Char} (h : c ∉ ['<', '>', '&', '\x27', '\x22']) :
    escapeChar c = [c] := by
  simp only [List.mem_cons, List.not_mem_nil, or_false, not_or] at h
  obtain ⟨hlt, hgt, hamp, hapos, hquot⟩ := h
  simp [escapeChar, hlt, hgt, hamp, hapos, hquot]

theorem documented_escape : Escaper.Documented escape where
  append _ _ := List.flatMap_append
  lt := rfl
  gt := rfl
  amp := rfl
  apos := rfl
  quot := rfl
  kept _ h := (List.flatMap_singleton _ _).trans (escapeChar_kept h)

namespace Escaper.Documented

variable {e : Escaper}

theorem escape_char (he : e.Documented) (c : Char) : e [c] = escapeChar c := by
  by_cases hc : c ∈ ['<', '>', '&', '\x27', '\x22']
  · simp only [List.mem_cons, List.not_mem_nil, or_false] at hc
    rcases hc with rfl | rfl | rfl | rfl | rfl
    · exact he.lt
    · exact he.gt
    · exact he.amp
    · exact he.apos
    · exact he.quot
  · rw [he.kept c hc, escapeChar_kept hc]

/-- Part by part means character by character. -/
theorem eq_escape (he : e.Documented) : e = escape := by
  funext t
  induction t with
  | nil =>
    have hlength := congrArg List.length (he.append [] [])
    exact List.length_eq_zero_iff.mp (by simpa using hlength)
  | cons c t ih => rw [← List.singleton_append, he.append, he.escape_char, ih]; rfl

end Escaper.Documented

/-! ## References -/

/-- A character is written so that it reads back and ends no attribute value. -/
theorem escapeChar_reads (c : Char) :
    Markup.decode references (escapeChar c) = some [c] ∧
      ∀ d ∈ escapeChar c, Markup.isValueChar d = true := by
  unfold escapeChar
  by_cases hlt : c = '<'
  · subst c
    exact ⟨rfl, List.forall_iff_forall_mem.mp (by decide)⟩
  by_cases hgt : c = '>'
  · subst c
    exact ⟨rfl, List.forall_iff_forall_mem.mp (by decide)⟩
  by_cases hamp : c = '&'
  · subst c
    exact ⟨rfl, List.forall_iff_forall_mem.mp (by decide)⟩
  by_cases hapos : c = '\x27'
  · subst c
    exact ⟨rfl, List.forall_iff_forall_mem.mp (by decide)⟩
  by_cases hquot : c = '\x22'
  · subst c
    exact ⟨rfl, List.forall_iff_forall_mem.mp (by decide)⟩
  simp only [hlt, hgt, hamp, hapos, hquot, if_false]
  refine ⟨Markup.decode_of_notMem (by simpa using Ne.symm hamp), ?_⟩
  exact List.forall_mem_singleton.mpr (Markup.isValueChar_iff.mpr ⟨hlt, hgt, hquot⟩)

theorem decode_escape (t : Text) : Markup.decode references (escape t) = some t := by
  have hread : Markup.decode references (escape t) = some (t.flatMap fun c => [c]) :=
    Markup.decode_flatMap fun c _ => (escapeChar_reads c).1
  rwa [List.flatMap_singleton'] at hread

theorem isValueChar_escape (t : Text) : ∀ c ∈ escape t, Markup.isValueChar c = true := by
  intro d hd
  obtain ⟨c, -, hd⟩ := List.mem_flatMap.mp hd
  exact (escapeChar_reads c).2 d hd

/-- Names and numbers are written as they are. -/
theorem escape_of_names {t : Text} (h : ∀ c ∈ t, Markup.isNameChar c = true) : escape t = t := by
  have hspecials : ∀ d ∈ ['<', '>', '&', '\x27', '\x22'], Markup.isNameChar d = false :=
    List.forall_iff_forall_mem.mp (by decide)
  have hkept : ∀ c ∈ t, escapeChar c = [c] := fun c hc => escapeChar_kept fun hspecial =>
    absurd (h c hc) (Bool.eq_false_iff.mp (hspecials c hspecial))
  rw [escape, List.flatMap_congr hkept, List.flatMap_singleton']

theorem property_of_names {name value : Text} (h : ∀ c ∈ value, Markup.isNameChar c = true) :
    property escape name value = plain name value := by
  rw [property, escape_of_names h]

end Xml

end MarkupTree
