-- Reading text with character references. A reference is a name between an
-- ampersand and a semicolon, and a table says which character each name stands
-- for. An ampersand that begins no reference of the table is refused.
import MarkupTree.Text.Basic

namespace MarkupTree

namespace Markup

/-! ## The reader -/

/-- Reads on in a text, or in a reference of which so much is seen. -/
def decodeFrom (table : List (Text × Char)) : Option Text → Text → Option Text
  | none, [] => some []
  | some _, [] => none
  | none, c :: cs =>
    if c = '&' then decodeFrom table (some []) cs
    else (decodeFrom table none cs).map (c :: ·)
  | some seen, c :: cs =>
    if c = ';' then
      (table.lookup seen).bind fun d => (decodeFrom table none cs).map (d :: ·)
    else decodeFrom table (some (seen ++ [c])) cs

/-- The text that a text with references stands for. -/
def decode (table : List (Text × Char)) (t : Text) : Option Text := decodeFrom table none t

variable {table : List (Text × Char)}

example : decode [("amp".toList, '&')] "a&amp;b".toList = some "a&b".toList := rfl

example : decode [("amp".toList, '&')] "a&b".toList = none := rfl

/-! ## Reading one part after the other -/

/-- What is read of a text does not hang on what follows it. -/
theorem decodeFrom_append {pending : Option Text} {s a : Text} (t : Text)
    (hs : decodeFrom table pending s = some a) :
    decodeFrom table pending (s ++ t) = (decode table t).map (a ++ ·) := by
  induction s generalizing pending a with
  | nil =>
    cases pending with
    | none =>
      cases hs
      simp [decode]
    | some seen => cases hs
  | cons c s ih =>
    cases pending with
    | none =>
      rw [decodeFrom] at hs
      rw [List.cons_append, decodeFrom]
      split at hs
      · rw [if_pos ‹_›]
        exact ih hs
      · obtain ⟨b, hb, rfl⟩ := Option.map_eq_some_iff.mp hs
        rw [if_neg ‹_›, ih hb, Option.map_map]
        rfl
    | some seen =>
      rw [decodeFrom] at hs
      rw [List.cons_append, decodeFrom]
      split at hs
      · obtain ⟨d, hd, hs⟩ := Option.bind_eq_some_iff.mp hs
        obtain ⟨b, hb, rfl⟩ := Option.map_eq_some_iff.mp hs
        rw [if_pos ‹_›, hd, Option.bind_some, ih hb, Option.map_map]
        rfl
      · rw [if_neg ‹_›]
        exact ih hs

theorem decode_append {s a t b : Text} (hs : decode table s = some a)
    (ht : decode table t = some b) : decode table (s ++ t) = some (a ++ b) := by
  rw [decode, decodeFrom_append t hs, ht, Option.map_some]

/-- A text without ampersands stands for itself. -/
theorem decode_of_notMem {t : Text} (h : '&' ∉ t) : decode table t = some t := by
  induction t with
  | nil => rfl
  | cons c t ih =>
    obtain ⟨hc, ht⟩ : '&' ≠ c ∧ '&' ∉ t := by simpa using h
    rw [decode, decodeFrom, if_neg (Ne.symm hc)]
    exact congrArg (Option.map (c :: ·)) (ih ht)

theorem decodeFrom_some (seen name rest : Text) (hname : ';' ∉ name) :
    decodeFrom table (some seen) (name ++ ';' :: rest) =
      (table.lookup (seen ++ name)).bind fun d => (decodeFrom table none rest).map (d :: ·) := by
  induction name generalizing seen with
  | nil => simp [decodeFrom]
  | cons c name ih =>
    obtain ⟨hc, hname⟩ : ';' ≠ c ∧ ';' ∉ name := by simpa using hname
    rw [List.cons_append, decodeFrom, if_neg (Ne.symm hc), ih _ hname, List.append_assoc]
    rfl

/-- A reference of the table stands for its character. -/
theorem decode_reference {name : Text} {c : Char} (hname : ';' ∉ name)
    (hc : table.lookup name = some c) : decode table ('&' :: (name ++ [';'])) = some [c] := by
  rw [decode, decodeFrom, if_pos rfl, decodeFrom_some _ _ _ hname, List.nil_append, hc]
  rfl

/-- Where each character is written as a text that stands for a text, the whole
stands for all of these. -/
theorem decode_flatMap {α : Type} {write read : α → Text} {xs : List α}
    (h : ∀ x ∈ xs, decode table (write x) = some (read x)) :
    decode table (xs.flatMap write) = some (xs.flatMap read) := by
  induction xs with
  | nil => rfl
  | cons x xs ih =>
    rw [List.flatMap_cons, List.flatMap_cons]
    exact decode_append (h x List.mem_cons_self) (ih fun y hy => h y (List.mem_cons_of_mem _ hy))

end Markup

end MarkupTree
