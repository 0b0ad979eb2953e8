-- Addresses as a reader of the page follows them: references decoded, blanks
-- in front and line breaks left out, in lower case. Without unsafe output, no
-- such address runs a script or reads a local file, although the check looks
-- at the address before it is encoded and the reader sees it after. Of the
-- encoder nothing is used but what its documentation says.
import MarkupTree.Proofs.Html.Written

namespace MarkupTree

namespace Html

/-! ## What is followed -/

/-- The references that an address may hold. -/
def addressReferences : List (Text × Char) := [("amp".toList, '&'), ("#x27".toList, '\x27')]

/-- White space and control characters, which are left out in front of an
address. -/
def isPadding (c : Char) : Bool :=
  Text.isBlank c || Text.isAsciiControl c || (decide (0x80 ≤ c.toNat) && decide (c.toNat ≤ 0x9F))

/-- The characters that are left out anywhere in an address. -/
def isBreak (c : Char) : Bool := c == '\t' || c == '\n' || c == '\r'

/-- The address that is followed for an attribute value, in lower case. -/
def followed (value : Text) : Option Text :=
  (Markup.decode addressReferences value).map fun url =>
    Text.lowerAscii ((url.dropWhile isPadding).filter fun c => !isBreak c)

/-- A script behind a blank, a tab and capital letters is followed as such. -/
example : followed " JAVA\tscript:f(&#x27;&amp;&#x27;)".toList =
    some "javascript:f('&')".toList := by
  decide

/-- An address that runs no script and reads no local file. Data is harmless if
it is a picture. -/
def Harmless (url : Text) : Prop :=
  (∀ scheme ∈ ["javascript:".toList, "vbscript:".toList, "file:".toList], ¬scheme <+: url) ∧
    ("data:".toList <+: url →
      ∃ kind ∈ ["image/png".toList, "image/gif".toList, "image/jpeg".toList, "image/webp".toList],
        "data:".toList ++ kind <+: url)

/-! ## Encoded addresses -/

/-- What the documentation says of an encoder: it goes over the text part by
part, it writes the bytes of some characters with percent signs, and it leaves
the others as they are. -/
structure Encoder.Documented (e : Encoder) : Prop where
  append : ∀ specials s t, e specials (s ++ t) = e specials s ++ e specials t
  encoded : ∀ specials c, needsPercent specials c = true →
    e specials [c] = (String.utf8EncodeChar c).flatMap fun b => Text.percent b.toNat
  kept : ∀ specials c, needsPercent specials c = false → e specials [c] = [c]

theorem documented_percentEncode : percentEncode.Documented where
  append _ _ _ := List.flatMap_append
  encoded specials c h := by simp [percentEncode, percentChar, h]
  kept specials c h := by simp [percentEncode, percentChar, h]

variable {e : Encoder}

namespace Encoder.Documented

theorem encode_char (he : e.Documented) (specials : List Char) (c : Char) :
    e specials [c] = percentChar specials c := by
  rcases h : needsPercent specials c
  · simp [he.kept specials c h, percentChar, h]
  · simp [he.encoded specials c h, percentChar, h]

/-- Part by part means character by character. -/
theorem encode (he : e.Documented) (specials : List Char) (url : Text) :
    e specials url = url.flatMap (percentChar specials) := by
  induction url with
  | nil =>
    have hlength := congrArg List.length (he.append specials [] [])
    exact List.length_eq_zero_iff.mp (by simpa using hlength)
  | cons c cs ih => rw [← List.singleton_append, he.append, he.encode_char, ih]; rfl

end Encoder.Documented

/-- An address as the page shows it, once its references are decoded. -/
def encoded (url : Text) : Text := url.flatMap (percentChar addressSpecials)

theorem needsPercent_percent (b : UInt8) :
    ∀ c ∈ Text.percent b.toNat, needsPercent addressSpecials c = false := by
  have hdigit : ∀ n < 16, needsPercent addressSpecials (Text.hexDigit n) = false := by decide
  have hb := b.toNat_lt
  intro c hc
  simp only [Text.percent, List.mem_cons, List.not_mem_nil, or_false] at hc
  rcases hc with rfl | rfl | rfl
  · rfl
  · exact hdigit _ (by omega)
  · exact hdigit _ (by omega)

/-- Nothing in an encoded address needs a percent sign any more. -/
theorem needsPercent_encoded {url : Text} :
    ∀ c ∈ encoded url, needsPercent addressSpecials c = false := by
  intro d hd
  obtain ⟨c, -, hd⟩ := List.mem_flatMap.mp hd
  unfold percentChar at hd
  split at hd
  · obtain ⟨b, -, hd⟩ := List.mem_flatMap.mp hd
    exact needsPercent_percent b d hd
  · rw [List.mem_singleton.mp hd]
    exact Bool.eq_false_iff.mpr ‹_›

theorem decode_referenceChar {table : List (Text × Char)}
    (hamp : table.lookup "amp".toList = some '&')
    (hquote : table.lookup "#x27".toList = some '\x27') (c : Char) :
    Markup.decode table (referenceChar c) = some [c] := by
  unfold referenceChar
  split
  · subst c
    exact Markup.decode_reference (by decide) hamp
  · split
    · subst c
      exact Markup.decode_reference (by decide) hquote
    · exact Markup.decode_of_notMem (by simpa using Ne.symm ‹c ≠ '&'›)

/-- Every ampersand of an address begins one of its two references. -/
theorem decode_address (he : e.Documented) {table : List (Text × Char)}
    (hamp : table.lookup "amp".toList = some '&')
    (hquote : table.lookup "#x27".toList = some '\x27') (url : Text) :
    Markup.decode table (address e url) = some (encoded url) := by
  have hread : Markup.decode table ((encoded url).flatMap referenceChar) =
      some ((encoded url).flatMap fun c => [c]) :=
    Markup.decode_flatMap fun c _ => decode_referenceChar hamp hquote c
  rw [address, he.encode, ← encoded, hread, List.flatMap_singleton']

/-! ## Nothing to leave out -/

theorem bounds_of_needsPercent {c : Char} (h : needsPercent addressSpecials c = false) :
    0x21 ≤ c.toNat ∧ c.toNat ≤ 0x7E := by
  obtain ⟨⟨hascii, hcontrol⟩, hspecial⟩ : (Text.isAscii c = true ∧ Text.isAsciiControl c = false) ∧
      c ∉ addressSpecials := by simpa [needsPercent] using h
  have hspace : c.toNat ≠ 0x20 := fun h32 =>
    hspecial ((Char.toNat_inj.mp h32 : c = ' ') ▸ List.mem_cons_self)
  simp only [Text.isAscii, Text.isAsciiControl, decide_eq_true_eq, Bool.or_eq_false_iff,
    decide_eq_false_iff_not, beq_eq_false_iff_ne] at hascii hcontrol
  omega

theorem isBlank_of_needsPercent {c : Char} (h : needsPercent addressSpecials c = false) :
    Text.isBlank c = false := by
  obtain ⟨hlow, hhigh⟩ := bounds_of_needsPercent h
  simp [Text.isBlank, Text.blankRanges]
  omega

theorem isPadding_of_needsPercent {c : Char} (h : needsPercent addressSpecials c = false) :
    isPadding c = false := by
  obtain ⟨hlow, hhigh⟩ := bounds_of_needsPercent h
  have hcontrol : Text.isAsciiControl c = false := by simp [Text.isAsciiControl]; omega
  have hhigh' : ¬0x80 ≤ c.toNat := by omega
  simp [isPadding, isBlank_of_needsPercent h, hcontrol, hhigh']

theorem isBreak_of_needsPercent {c : Char} (h : needsPercent addressSpecials c = false) :
    isBreak c = false := by
  refine Bool.eq_false_iff.mpr fun hbreak => ?_
  simp only [isBreak, Bool.or_eq_true, beq_iff_eq] at hbreak
  rcases hbreak with (rfl | rfl) | rfl <;> cases h

/-- An encoded address holds nothing that is left out. -/
theorem followed_address (he : e.Documented) (url : Text) :
    followed (address e url) = some (Text.lowerAscii (encoded url)) := by
  have hdrop : (encoded url).dropWhile isPadding = encoded url := by
    rcases h : encoded url with _ | ⟨c, cs⟩
    · rfl
    · have hc := needsPercent_encoded c (h ▸ List.mem_cons_self)
      exact List.dropWhile_cons_of_neg (by simp [isPadding_of_needsPercent hc])
  have hkeep : (encoded url).filter (fun c => !isBreak c) = encoded url :=
    List.filter_eq_self.mpr fun c hc => by simp [isBreak_of_needsPercent (needsPercent_encoded c hc)]
  rw [followed, decode_address he rfl rfl, Option.map_some, hdrop, hkeep]

/-! ## What an address starts with, before and after -/

/-- Capital letters need no percent sign, so what needs one has no lower case. -/
theorem toLower_of_needsPercent {c : Char} (h : needsPercent addressSpecials c = true) :
    c.toLower = c := by
  unfold Char.toLower
  split
  · obtain ⟨hlow, hhigh⟩ := ‹c.val ≥ 'A'.val ∧ c.val ≤ 'Z'.val›
    have hlow : 65 ≤ c.toNat := UInt32.le_iff_toNat_le.mp hlow
    have hhigh : c.toNat ≤ 90 := UInt32.le_iff_toNat_le.mp hhigh
    have hspecials : ∀ d ∈ addressSpecials, d.toNat < 65 ∨ 90 < d.toNat :=
      List.forall_iff_forall_mem.mp (by decide)
    simp only [needsPercent, Text.isAscii, Text.isAsciiControl, Bool.or_eq_true,
      Bool.not_eq_true', decide_eq_false_iff_not, decide_eq_true_eq, beq_iff_eq,
      List.contains_iff_mem] at h
    rcases h with (h | h) | h
    · omega
    · omega
    · have := hspecials c h
      omega
  · rfl

theorem percentChar_of_needsPercent {c : Char} (h : needsPercent addressSpecials c = true) :
    ∃ rest, percentChar addressSpecials c = '%' :: rest := by
  obtain ⟨b, bs, hbytes⟩ := List.exists_cons_of_ne_nil (String.utf8EncodeChar_ne_nil (c := c))
  rw [percentChar, if_pos h, hbytes]
  exact ⟨_, rfl⟩

/-- A beginning that needs no percent sign is one before encoding if it is one
after. -/
theorem prefix_encoded_iff {lead url : Text}
    (hlead : ∀ d ∈ lead, needsPercent addressSpecials d = false ∧ d ≠ '%') :
    lead <+: Text.lowerAscii (encoded url) ↔ lead <+: Text.lowerAscii url := by
  induction lead generalizing url with
  | nil => simp
  | cons d lead ih =>
    obtain ⟨⟨hd, hpercent⟩, hlead⟩ := List.forall_mem_cons.mp hlead
    rcases url with _ | ⟨c, cs⟩
    · rfl
    · rcases hc : needsPercent addressSpecials c
      · have hone : Text.lowerAscii (encoded (c :: cs)) =
            c.toLower :: Text.lowerAscii (encoded cs) := by
          simp [encoded, percentChar, hc, Text.lowerAscii]
        rw [hone, List.cons_prefix_cons, ih hlead]
        exact List.cons_prefix_cons.symm
      · obtain ⟨rest, hrest⟩ := percentChar_of_needsPercent hc
        constructor
        · intro h
          rw [encoded, List.flatMap_cons, hrest] at h
          exact absurd (List.cons_prefix_cons.mp h).1 hpercent
        · intro h
          have hdc : d = c.toLower := (List.cons_prefix_cons.mp h).1
          rw [hdc, toLower_of_needsPercent hc, hc] at hd
          cases hd

/-- An address that starts so after encoding has no blanks in front. -/
theorem trimStart_of_prefix {lead url : Text}
    (hlead : ∀ d ∈ lead, needsPercent addressSpecials d = false ∧ d ≠ '%')
    (hne : lead ≠ []) (h : lead <+: Text.lowerAscii (encoded url)) : Text.trimStart url = url := by
  rcases url with _ | ⟨c, cs⟩
  · rfl
  · have hc : needsPercent addressSpecials c = false := by
      refine Bool.eq_false_iff.mpr fun hc => ?_
      obtain ⟨d, lead, rfl⟩ := List.exists_cons_of_ne_nil hne
      obtain ⟨hd, -⟩ := hlead d List.mem_cons_self
      have hdc : d = c.toLower := (List.cons_prefix_cons.mp ((prefix_encoded_iff hlead).mp h)).1
      rw [hdc, toLower_of_needsPercent hc, hc] at hd
      cases hd
    exact List.dropWhile_cons_of_neg (by simp [isBlank_of_needsPercent hc])

/-! ## Every address that is written -/

theorem isDangerous_of_scheme {url scheme : Text} (hscheme : scheme ∈ dangerousSchemes)
    (h : scheme <+: Text.lowerAscii (Text.trimStart url)) : isDangerous url = true := by
  have hdata : ¬"data:".toList <+: Text.lowerAscii (Text.trimStart url) := by
    have hneither : ∀ s ∈ dangerousSchemes, ¬s <+: "data:".toList ∧ ¬"data:".toList <+: s := by
      decide
    intro hdata
    rcases List.prefix_or_prefix_of_prefix h hdata with hp | hp
    · exact (hneither _ hscheme).1 hp
    · exact (hneither _ hscheme).2 hp
  have hafter : Text.after? "data:".toList (Text.lowerAscii (Text.trimStart url)) = none :=
    if_neg (by simpa using hdata)
  rw [isDangerous, hafter]
  exact List.any_eq_true.mpr ⟨scheme, hscheme, List.isPrefixOf_iff_prefix.mpr h⟩

/-- Data that passes the check is of one of the harmless kinds. -/
theorem harmlessData_of_not_isDangerous {url : Text} (h : isDangerous url = false)
    (hdata : "data:".toList <+: Text.lowerAscii (Text.trimStart url)) :
    ∃ kind ∈ harmlessData, "data:".toList ++ kind <+: Text.lowerAscii (Text.trimStart url) := by
  obtain ⟨data, hlower⟩ := hdata
  have hafter : Text.after? "data:".toList (Text.lowerAscii (Text.trimStart url)) = some data := by
    rw [← hlower, Text.after?_append]
  rw [isDangerous, hafter] at h
  obtain ⟨kind, hkind, hstart⟩ := List.any_eq_true.mp (by simpa using h)
  exact ⟨kind, hkind, hlower ▸
    (List.prefix_append_right_inj _).mpr (List.isPrefixOf_iff_prefix.mp hstart)⟩

/-- What passes the check is harmless when it is followed. -/
theorem harmless_of_not_isDangerous {url : Text} (h : isDangerous url = false) :
    Harmless (Text.lowerAscii (encoded url)) := by
  have hschemes : ∀ scheme ∈ dangerousSchemes,
      scheme ≠ [] ∧ scheme.Forall fun d => needsPercent addressSpecials d = false ∧ d ≠ '%' := by decide
  have hkinds : ∀ kind ∈ [] :: harmlessData, "data:".toList ++ kind ≠ [] ∧
      ("data:".toList ++ kind).Forall fun d => needsPercent addressSpecials d = false ∧ d ≠ '%' := by decide
  constructor
  · intro scheme hscheme hpre
    obtain ⟨hne, hforall⟩ := hschemes scheme hscheme
    have hchars := List.forall_iff_forall_mem.mp hforall
    have htrim := trimStart_of_prefix hchars hne hpre
    have hraw := (prefix_encoded_iff hchars).mp hpre
    rw [← htrim] at hraw
    rw [isDangerous_of_scheme hscheme hraw] at h
    cases h
  · intro hpre
    obtain ⟨hne, hforall⟩ := hkinds [] List.mem_cons_self
    rw [List.append_nil] at hne hforall
    have hchars := List.forall_iff_forall_mem.mp hforall
    have htrim := trimStart_of_prefix hchars hne hpre
    have hraw := (prefix_encoded_iff hchars).mp hpre
    rw [← htrim] at hraw
    obtain ⟨kind, hkind, hlong⟩ := harmlessData_of_not_isDangerous h hraw
    have hkindChars := List.forall_iff_forall_mem.mp (hkinds kind (List.mem_cons_of_mem _ hkind)).2
    rw [htrim] at hlong
    exact ⟨kind, hkind, (prefix_encoded_iff hkindChars).mpr hlong⟩

/-- Whatever the address of a link or an image, what is written for it is
harmless. -/
theorem harmless_addressValue (he : e.Documented) {o : Options} (ho : o.allowUnsafe = false)
    (url : Text) : ∃ u, followed (addressValue e o url) = some u ∧ Harmless u := by
  unfold addressValue
  rcases h : isDangerous url
  · exact ⟨_, by simpa [ho] using followed_address he url, harmless_of_not_isDangerous h⟩
  · refine ⟨[], by simp [ho]; rfl, ?_⟩
    exact ⟨by decide, by decide⟩

end Html

end MarkupTree
