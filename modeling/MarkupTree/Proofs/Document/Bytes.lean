-- Documents from bytes. Strict reading refuses what is no UTF-8 and names the
-- end of the longest text that the bytes begin with. Lenient reading takes any
-- bytes, and keeps that text. On what is UTF-8 the two are one.
import MarkupTree.Document.Read
import MarkupTree.Proofs.Text.Utf8

namespace MarkupTree

namespace Document

open Utf8 (IsUtf8 IsLongestText)

/-- What comes of reading bytes of which `lead` is the longest text that they
begin with. -/
structure BytesRead (grammar : Grammar) (bytes : List UInt8) (lead : Text) : Prop where
  longest : IsLongestText lead bytes
  refused_iff : ∀ o : Options, o.validateUtf8 = false →
    ((∃ fault, parseBytes grammar bytes o = .error (.notUtf8 fault)) ↔ ¬ IsUtf8 bytes)
  index : ∀ o fault, parseBytes grammar bytes o = .error (.notUtf8 fault) →
    fault.index = (Utf8.encode lead).length
  lenient : ∀ o : Options, o.validateUtf8 = true →
    parseBytes grammar bytes o = .ok (parse grammar (Utf8.decodeLenient bytes) o)
  replaced : ¬ IsUtf8 bytes → ∃ rest, Utf8.decodeLenient bytes = lead ++ '\ufffd' :: rest
  /-- On the bytes of a text both ways give the document of that text. -/
  agreed : ∀ text, Utf8.encode text = bytes → ∀ o v,
    parseBytes grammar bytes { o with validateUtf8 := v } = .ok (parse grammar text o)
  /-- Both ways read smartly and normalize as the options say. -/
  applied : ∀ text, Utf8.encode text = bytes → ∀ o, parseBytes grammar bytes o =
    .ok (if o.normalize then (ofEvents (.ofText text) (grammar o.smart text)).normalize
      else ofEvents (.ofText text) (grammar o.smart text))

variable {grammar : Grammar} {bytes : List UInt8} {o : Options}

theorem parseBytes_strict (ho : o.validateUtf8 = false) :
    parseBytes grammar bytes o =
      match Utf8.decode bytes with
      | .ok text => .ok (parse grammar text o)
      | .error fault => .error (.notUtf8 fault) := by
  rw [parseBytes, ho]
  rfl

theorem parseBytes_lenient (ho : o.validateUtf8 = true) :
    parseBytes grammar bytes o = .ok (parse grammar (Utf8.decodeLenient bytes) o) := by
  rw [parseBytes, if_pos ho]

/-- Reading bytes fails where strict decoding does, and for its reason. -/
theorem parseBytes_eq_error_iff {fault : Utf8.Fault} :
    parseBytes grammar bytes o = .error (.notUtf8 fault) ↔
      o.validateUtf8 = false ∧ Utf8.decode bytes = .error fault := by
  rcases ho : o.validateUtf8 with _ | _
  · rw [parseBytes_strict ho]
    cases Utf8.decode bytes <;> simp
  · simp [parseBytes_lenient ho]

/-- On the bytes of a text both ways of reading give the document of the text. -/
theorem parseBytes_encode (text : Text) (o : Options) (v : Bool) :
    parseBytes grammar (Utf8.encode text) { o with validateUtf8 := v } =
      .ok (parse grammar text o) := by
  have hreads := Utf8.readsAs_encode text
  cases v with
  | false =>
    rw [parseBytes_strict rfl, hreads.strict]
    rfl
  | true =>
    rw [parseBytes_lenient rfl, hreads.lenient]
    rfl

/-- Whatever the bytes, strict and lenient reading agree on the longest text that
they begin with. -/
theorem strict_and_lenient_agree (grammar : Grammar) (bytes : List UInt8) :
    ∃ lead, BytesRead grammar bytes lead := by
  obtain ⟨lead, hlongest, hread⟩ := Utf8.readsAs_or_failsAfter bytes
  refine ⟨lead, hlongest, fun o ho => ?_, fun o fault h => ?_, fun o => parseBytes_lenient,
    fun hnot => ?_, fun text htext o v => htext ▸ parseBytes_encode text o v,
    fun text htext o => htext ▸ parseBytes_encode text o o.validateUtf8⟩
  · simp only [parseBytes_eq_error_iff, ho, true_and]
    rcases hread with hread | hread
    · simp [hread.strict, show IsUtf8 bytes from ⟨lead, hread.encode⟩]
    · obtain ⟨fault, hfault, -⟩ := hread.strict
      simp [hfault, hread.not_isUtf8]
  · have hfault := (parseBytes_eq_error_iff.mp h).2
    rcases hread with hread | hread
    · rw [hread.strict] at hfault
      cases hfault
    · obtain ⟨fault', hfault', hindex⟩ := hread.strict
      rw [hfault'] at hfault
      cases hfault
      exact hindex
  · rcases hread with hread | hread
    · exact absurd ⟨lead, hread.encode⟩ hnot
    · exact hread.lenient

end Document

end MarkupTree
