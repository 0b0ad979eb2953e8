-- What a reader finds in printed HTML: each piece reads as its own tokens,
-- with a line break here and there between two pieces.
import MarkupTree.Html.Piece
import MarkupTree.Proofs.Markup.Reading
import MarkupTree.Proofs.Markup.References

namespace MarkupTree

namespace Html

open Markup (Mark Token)

/-- The references that text and attribute values may hold. -/
def references : List (Text × Char) :=
  [("amp".toList, '&'), ("lt".toList, '<'), ("gt".toList, '>'), ("quot".toList, '\x22'),
    ("#x27".toList, '\x27')]

/-- Each ampersand of the text begins one of the references. -/
def Decodes (t : Text) : Prop := ∃ u, Markup.decode references t = some u

/-- The note in the place of raw HTML, as a reader finds it. -/
def omittedMark : Mark := .comment "-- raw HTML omitted --".toList

theorem decodes_nil : Decodes [] := ⟨[], rfl⟩

theorem Decodes.append {s t : Text} (hs : Decodes s) (ht : Decodes t) : Decodes (s ++ t) := by
  obtain ⟨a, ha⟩ := hs
  obtain ⟨b, hb⟩ := ht
  exact ⟨a ++ b, Markup.decode_append ha hb⟩

theorem decodes_of_notMem {t : Text} (h : '&' ∉ t) : Decodes t := ⟨t, Markup.decode_of_notMem h⟩

def Attribute.pair (a : Attribute) : Text × Text := (a.name, a.value)

namespace Piece

/-- The mark that the piece is, unless it is text or part of a tag only. -/
def mark? : Piece → Option Mark
  | .opening name attributes => some (.opening name (attributes.map Attribute.pair))
  | .closing name => some (.closing name)
  | .void name attributes => some (.void name (attributes.map Attribute.pair))
  | .omitted => some omittedMark
  | .tagStart _ _ | .tagEnd _ | .chars _ | .raw _ | .newline | .freshLine => none

def tokens (p : Piece) : List Token :=
  match p.mark? with
  | some m => [.mark m]
  | none => p.text.map .char

theorem attributeText_pair (as : List Attribute) :
    (as.map Attribute.pair).flatMap Markup.attributeText = as.flatMap Attribute.text := by
  rw [List.flatMap_map]
  rfl

theorem text_tokens (p : Piece) : p.tokens.flatMap Token.text = p.text := by
  have hmark : ∀ m : Mark, [Token.mark m].flatMap Token.text = (Token.mark m).text := fun m =>
    List.flatMap_singleton _ _
  cases p with
  | opening name as =>
    refine (hmark _).trans ?_
    rw [Token.text, Mark.inner, attributeText_pair]
    rfl
  | closing name => exact hmark _
  | void name as =>
    refine (hmark _).trans ?_
    rw [Token.text, Mark.inner, attributeText_pair]
    show _ = '<' :: name ++ as.flatMap Attribute.text ++ " />".toList
    simp
  | omitted => decide +kernel
  | tagStart name as => exact Markup.flatMap_text_chars _
  | tagEnd as => exact Markup.flatMap_text_chars _
  | chars t => exact Markup.flatMap_text_chars _
  | raw t => exact Markup.flatMap_text_chars _
  | newline => rfl
  | freshLine => rfl

theorem marks_tokens (p : Piece) : Markup.marks p.tokens = p.mark?.toList := by
  unfold tokens
  cases p.mark? with
  | some m => rfl
  | none => simp [Markup.marks, List.filterMap_map]

/-- A piece that is a mark has no other token. -/
theorem tokens_of_mark {p : Piece} {m : Mark} (h : p.mark? = some m) : p.tokens = [.mark m] := by
  rw [tokens, h]

/-- A piece in which brackets and ampersands are what they should be: each
token is clean and each ampersand begins a reference. -/
structure IsSafe (p : Piece) : Prop where
  clean : ∀ t ∈ p.tokens, t.isClean = true
  decoded : Decodes p.text

end Piece

/-! ## Pieces that print alike -/

/-- The pieces print the same after any output. -/
def PrintAlike (ps qs : List Piece) : Prop := ∀ fresh, print fresh ps = print fresh qs

theorem PrintAlike.of_eq {ps qs : List Piece} (h : ps = qs) : PrintAlike ps qs := fun fresh =>
  congrArg (print fresh) h

theorem PrintAlike.trans {ps qs rs : List Piece} (h : PrintAlike ps qs) (h' : PrintAlike qs rs) :
    PrintAlike ps rs := fun fresh => (h fresh).trans (h' fresh)

theorem print_cons {p : Piece} (hp : p ≠ .freshLine) (fresh : Bool) (ps : List Piece) :
    print fresh (p :: ps) = p.text ++ print (atLineStart fresh p.text) ps := by
  cases p <;> first | rfl | exact absurd rfl hp

theorem PrintAlike.append {ps qs ps' qs' : List Piece} (h : PrintAlike ps qs)
    (h' : PrintAlike ps' qs') : PrintAlike (ps ++ ps') (qs ++ qs') := by
  intro fresh
  rw [print_append, print_append, h fresh, h' _]

/-- A tag that is started and ended is a whole one. -/
theorem printAlike_tag (name : Text) (as bs : List Attribute) :
    PrintAlike [.tagStart name as, .tagEnd bs] [.void name (as ++ bs)] := by
  intro fresh
  show ('<' :: name ++ as.flatMap Attribute.text) ++
      ((bs.flatMap Attribute.text ++ " />".toList) ++ []) =
    ('<' :: name ++ (as ++ bs).flatMap Attribute.text ++ " />".toList) ++ []
  rw [List.append_nil, List.append_nil, List.flatMap_append]
  simp only [List.append_assoc]

/-! ## Printed pieces -/

theorem marks_append (ts us : List Token) :
    Markup.marks (ts ++ us) = Markup.marks ts ++ Markup.marks us := List.filterMap_append

/-- The tokens of printed pieces are those of the pieces and line breaks. -/
theorem print_tokens (fresh : Bool) (ps : List Piece) :
    ∃ ts : List Token, ts.flatMap Token.text = print fresh ps ∧
      Markup.marks ts = ps.filterMap Piece.mark? ∧
      ∀ t ∈ ts, t = .char '\n' ∨ ∃ p ∈ ps, t ∈ p.tokens := by
  induction ps generalizing fresh with
  | nil => exact ⟨[], rfl, rfl, by simp⟩
  | cons p ps ih =>
    by_cases hp : p = .freshLine
    · subst hp
      obtain ⟨ts, htext, hmarks, hts⟩ := ih true
      have hlater : ∀ t ∈ ts, t = .char '\n' ∨ ∃ p ∈ Piece.freshLine :: ps, t ∈ p.tokens :=
        fun t ht => (hts t ht).imp_right fun ⟨p, hp, h⟩ => ⟨p, List.mem_cons_of_mem _ hp, h⟩
      cases fresh with
      | true => exact ⟨ts, htext, hmarks, hlater⟩
      | false =>
        exact ⟨.char '\n' :: ts, congrArg (List.cons '\n') htext, hmarks,
          List.forall_mem_cons.mpr ⟨Or.inl rfl, hlater⟩⟩
    · obtain ⟨ts, htext, hmarks, hts⟩ := ih (atLineStart fresh p.text)
      refine ⟨p.tokens ++ ts, ?_, ?_, fun t ht => ?_⟩
      · rw [List.flatMap_append, Piece.text_tokens, htext, print_cons hp]
      · rw [marks_append, Piece.marks_tokens, hmarks, List.filterMap_cons]
        cases p.mark? <;> rfl
      · rcases List.mem_append.mp ht with ht | ht
        · exact Or.inr ⟨p, List.mem_cons_self, ht⟩
        · exact (hts t ht).imp_right fun ⟨q, hq, h⟩ => ⟨q, List.mem_cons_of_mem _ hq, h⟩

/-- A safe piece that is a mark is read as that mark. -/
theorem Piece.IsSafe.read?_text {p : Piece} (h : p.IsSafe) {m : Mark} (hm : p.mark? = some m) :
    Markup.read? p.text = some [.mark m] := by
  rw [← Piece.text_tokens, Markup.read?_flatMap_text h.clean, Piece.tokens_of_mark hm]

/-- Each ampersand of safe pieces begins a reference. -/
theorem decodes_print (fresh : Bool) {ps : List Piece} (h : ∀ p ∈ ps, p.IsSafe) :
    Decodes (print fresh ps) := by
  induction ps generalizing fresh with
  | nil => exact decodes_nil
  | cons p ps ih =>
    obtain ⟨hp, hps⟩ := List.forall_mem_cons.mp h
    cases p with
    | freshLine =>
      cases fresh with
      | true => exact ih true hps
      | false => exact (decodes_of_notMem (t := ['\n']) (by decide)).append (ih true hps)
    | _ => exact hp.decoded.append (ih _ hps)

end Html

end MarkupTree
