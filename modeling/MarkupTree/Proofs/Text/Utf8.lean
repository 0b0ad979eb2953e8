-- Strict and lenient reading of UTF-8, told by its writing. Any bytes begin
-- with what is written of some text, and go on with nothing or with bytes that
-- no text can go on with there. Strict reading gives that text in the first
-- case and names the end of it in the second, where lenient reading puts the
-- replacement character.
import MarkupTree.Text.Utf8

namespace MarkupTree

namespace Utf8

/-! ## The bytes of one character -/

/-- A byte that goes on with a character. -/
def IsTail (x : UInt8) : Prop := 0x80 ≤ x.toNat ∧ x.toNat ≤ 0xBF

/-- The bytes that spell a code point, by their number. Longer spellings than
the shortest are none, nor are those of surrogates and of what lies past the last
code point. -/
inductive Spells : List UInt8 → Nat → Prop
  | one {b : UInt8} {n : Nat} (hb : b.toNat ≤ 0x7F) (hn : n = b.toNat) : Spells [b] n
  | two {b x : UInt8} {n : Nat} (hb : 0xC2 ≤ b.toNat ∧ b.toNat ≤ 0xDF) (hx : IsTail x)
      (hn : n = (b.toNat - 0xC0) * 64 + (x.toNat - 0x80)) : Spells [b, x] n
  | three {b x y : UInt8} {n : Nat} (hb : 0xE0 ≤ b.toNat ∧ b.toNat ≤ 0xEF) (hx : IsTail x)
      (hy : IsTail y)
      (hn : n = ((b.toNat - 0xE0) * 64 + (x.toNat - 0x80)) * 64 + (y.toNat - 0x80))
      (hlow : 0x800 ≤ n) (hvalid : n.isValidChar) : Spells [b, x, y] n
  | four {b x y z : UInt8} {n : Nat} (hb : 0xF0 ≤ b.toNat ∧ b.toNat ≤ 0xF4) (hx : IsTail x)
      (hy : IsTail y) (hz : IsTail z)
      (hn : n = (((b.toNat - 0xF0) * 64 + (x.toNat - 0x80)) * 64 + (y.toNat - 0x80)) * 64 +
        (z.toNat - 0x80))
      (hlow : 0x10000 ≤ n) (hvalid : n.isValidChar) : Spells [b, x, y, z] n

/-- No code point is greater than the last one. -/
theorem lt_of_isValidChar {n : Nat} (h : n.isValidChar) : n < 0x110000 := by
  rcases h with h | h
  · omega
  · exact h.2

/-- A character is written as the bytes that spell it. -/
theorem spells_encodeChar (c : Char) : Spells (String.utf8EncodeChar c) c.toNat := by
  have hvalid : c.toNat.isValidChar := c.valid
  have hsize := lt_of_isValidChar hvalid
  unfold String.utf8EncodeChar
  simp only [Char.toNat_val]
  split
  · refine .one ?_ ?_ <;> simp only [UInt8.toNat_ofNat'] <;> omega
  · split
    · refine .two ?_ ?_ ?_ <;> simp only [IsTail, UInt8.toNat_ofNat'] <;> omega
    · split
      · refine .three ?_ ?_ ?_ ?_ (by omega) hvalid <;>
          simp only [IsTail, UInt8.toNat_ofNat'] <;> omega
      · refine .four ?_ ?_ ?_ ?_ ?_ (by omega) hvalid <;>
          simp only [IsTail, UInt8.toNat_ofNat'] <;> omega

namespace Spells

variable {s : List UInt8} {n : Nat}

theorem isValidChar (h : Spells s n) : n.isValidChar := by
  cases h with
  | one hb hn => left; omega
  | two hb hx hn =>
    unfold IsTail at hx
    left
    omega
  | three _ _ _ _ _ hvalid => exact hvalid
  | four _ _ _ _ _ _ hvalid => exact hvalid

theorem toNat_ofNat (h : Spells s n) : (Char.ofNat n).toNat = n := by
  rw [Char.ofNat, dif_pos h.isValidChar]
  rfl

/-- Bytes that spell a code point are what is written of its character. -/
theorem encodeChar (h : Spells s n) : String.utf8EncodeChar (Char.ofNat n) = s := by
  unfold String.utf8EncodeChar
  simp only [Char.toNat_val, h.toNat_ofNat]
  cases h with
  | one hb hn => rw [if_pos (by omega), hn, UInt8.ofNat_toNat]
  | two hb hx hn =>
    unfold IsTail at hx
    rw [if_neg (by omega), if_pos (by omega)]
    simp only [List.cons.injEq, and_true, ← UInt8.toNat_inj, UInt8.toNat_ofNat']
    omega
  | three hb hx hy hn hlow hvalid =>
    unfold IsTail at hx hy
    rw [if_neg (by omega), if_neg (by omega), if_pos (by omega)]
    simp only [List.cons.injEq, and_true, ← UInt8.toNat_inj, UInt8.toNat_ofNat']
    omega
  | four hb hx hy hz hn hlow hvalid =>
    unfold IsTail at hx hy hz
    rw [if_neg (by omega), if_neg (by omega), if_neg (by omega)]
    simp only [List.cons.injEq, and_true, ← UInt8.toNat_inj, UInt8.toNat_ofNat']
    omega

end Spells

/-! ## The machine on one character -/

/-- What the first byte of two, three or four says of the second: it is one that
goes on with a character, and the number is neither too small for so many bytes
nor that of no character. -/
theorem lead_two {b : Nat} (hb : 0xC2 ≤ b ∧ b ≤ 0xDF) :
    lead b = ([], some ⟨1, 1, b - 0xC0, 0x80, 0xBF⟩) := by
  unfold lead
  rw [if_neg (by omega), if_pos hb]

theorem lead_three {b : Nat} (hb : 0xE0 ≤ b ∧ b ≤ 0xEF) :
    ∃ low high, lead b = ([], some ⟨1, 2, b - 0xE0, low, high⟩) ∧
      ∀ x, low ≤ x ∧ x ≤ high ↔ (0x80 ≤ x ∧ x ≤ 0xBF) ∧
        0x20 ≤ (b - 0xE0) * 64 + (x - 0x80) ∧
        ¬ (0x360 ≤ (b - 0xE0) * 64 + (x - 0x80) ∧ (b - 0xE0) * 64 + (x - 0x80) < 0x380) := by
  unfold lead
  rw [if_neg (by omega), if_neg (by omega)]
  split
  · exact ⟨_, _, by rw [‹b = 0xE0›], by omega⟩
  · split
    · exact ⟨_, _, by rw [‹b = 0xED›], by omega⟩
    · rw [if_pos (by omega)]
      exact ⟨_, _, rfl, by omega⟩

theorem lead_four {b : Nat} (hb : 0xF0 ≤ b ∧ b ≤ 0xF4) :
    ∃ low high, lead b = ([], some ⟨1, 3, b - 0xF0, low, high⟩) ∧
      ∀ x, low ≤ x ∧ x ≤ high ↔ (0x80 ≤ x ∧ x ≤ 0xBF) ∧
        0x10 ≤ (b - 0xF0) * 64 + (x - 0x80) ∧ (b - 0xF0) * 64 + (x - 0x80) < 0x110 := by
  unfold lead
  rw [if_neg (by omega), if_neg (by omega), if_neg (by omega), if_neg (by omega),
    if_neg (by omega)]
  split
  · exact ⟨_, _, by rw [‹b = 0xF0›], by omega⟩
  · split
    · exact ⟨_, _, rfl, by omega⟩
    · rw [if_pos (by omega)]
      exact ⟨_, _, by rw [show b = 0xF4 by omega], by omega⟩

/-- No character begins with any other byte. -/
theorem lead_broken {b : Nat} (hone : ¬ b ≤ 0x7F) (htwo : ¬ (0xC2 ≤ b ∧ b ≤ 0xDF))
    (hthree : ¬ (0xE0 ≤ b ∧ b ≤ 0xEF)) (hfour : ¬ (0xF0 ≤ b ∧ b ≤ 0xF4)) :
    lead b = ([.broken 1], none) := by
  unfold lead
  rw [if_neg hone, if_neg htwo, if_neg (by omega), if_neg (by omega), if_neg (by omega),
    if_neg (by omega), if_neg (by omega), if_neg (by omega)]

theorem scan_none_cons (b : UInt8) (bs : List UInt8) :
    scan none (b :: bs) = (lead b.toNat).1 ++ scan (lead b.toNat).2 bs := rfl

section

variable {b : UInt8} {low high : Nat} (hb : low ≤ b.toNat ∧ b.toNat ≤ high) (seen bits : Nat)
  (bs : List UInt8)

include hb

theorem scan_more (missing : Nat) :
    scan (some ⟨seen, missing + 2, bits, low, high⟩) (b :: bs) =
      scan (some ⟨seen + 1, missing + 1, bits * 64 + (b.toNat - 0x80), 0x80, 0xBF⟩) bs := by
  rw [scan, step, follow, if_pos hb]
  rfl

theorem scan_last :
    scan (some ⟨seen, 1, bits, low, high⟩) (b :: bs) =
      .char (Char.ofNat (bits * 64 + (b.toNat - 0x80))) :: scan none bs := by
  rw [scan, step, follow, if_pos hb]
  rfl

end

/-- The machine reads bytes that spell a code point as its character, and goes
on as if they had not been there. -/
theorem scan_spells {s : List UInt8} {n : Nat} (h : Spells s n) (bs : List UInt8) :
    scan none (s ++ bs) = .char (Char.ofNat n) :: scan none bs := by
  have hsize := lt_of_isValidChar h.isValidChar
  cases h with
  | one hb hn =>
    rw [List.singleton_append, scan_none_cons, lead, if_pos hb, hn]
    rfl
  | two hb hx hn =>
    rw [List.cons_append, scan_none_cons, lead_two hb, hn]
    exact scan_last hx _ _ bs
  | three hb hx hy hn hlow hvalid =>
    obtain ⟨low, high, hlead, hsecond⟩ := lead_three hb
    have hx' := (hsecond _).mpr ⟨hx, by unfold IsTail at hy; omega⟩
    rw [List.cons_append, scan_none_cons, hlead, hn]
    exact (scan_more hx' _ _ _ 0).trans (scan_last hy _ _ bs)
  | four hb hx hy hz hn hlow hvalid =>
    obtain ⟨low, high, hlead, hsecond⟩ := lead_four hb
    have hx' := (hsecond _).mpr ⟨hx, by unfold IsTail at hy hz; omega⟩
    rw [List.cons_append, scan_none_cons, hlead, hn]
    exact (scan_more hx' _ _ _ 1).trans ((scan_more hy _ _ _ 0).trans (scan_last hz _ _ bs))

/-! ## Where the machine finds a fault -/

/-- The first piece is no character. -/
def Stops (ps : List Piece) : Prop := ∃ p rest, ps = p :: rest ∧ ∀ c, p ≠ .char c

/-- A character that is begun goes on, or the machine finds a fault. -/
theorem scan_some_cases (seen missing bits low high : Nat) (bs : List UInt8) :
    Stops (scan (some ⟨seen, missing, bits, low, high⟩) bs) ∨
      ∃ b rest, bs = b :: rest ∧ low ≤ b.toNat ∧ b.toNat ≤ high := by
  cases bs with
  | nil => exact Or.inl ⟨.cut seen, [], rfl, fun _ => Piece.noConfusion⟩
  | cons b rest =>
    by_cases hb : low ≤ b.toNat ∧ b.toNat ≤ high
    · exact Or.inr ⟨b, rest, rfl, hb⟩
    · rw [scan, step, follow, if_neg hb]
      exact Or.inl ⟨.broken seen, _, rfl, fun _ => Piece.noConfusion⟩

/-- Bytes begin with those that spell a code point, or the machine finds a
fault at once. -/
theorem scan_none_cases (b : UInt8) (bs : List UInt8) :
    Stops (scan none (b :: bs)) ∨ ∃ s n rest, Spells s n ∧ b :: bs = s ++ rest := by
  by_cases hone : b.toNat ≤ 0x7F
  · exact Or.inr ⟨[b], _, bs, .one hone rfl, rfl⟩
  by_cases htwo : 0xC2 ≤ b.toNat ∧ b.toNat ≤ 0xDF
  · rw [scan_none_cons, lead_two htwo]
    rcases scan_some_cases _ _ _ _ _ bs with hstop | ⟨x, rest, rfl, hx⟩
    · exact Or.inl hstop
    · exact Or.inr ⟨[b, x], _, rest, .two htwo hx rfl, rfl⟩
  by_cases hthree : 0xE0 ≤ b.toNat ∧ b.toNat ≤ 0xEF
  · obtain ⟨low, high, hlead, hsecond⟩ := lead_three hthree
    rw [scan_none_cons, hlead]
    rcases scan_some_cases _ _ _ _ _ bs with hstop | ⟨x, bs, rfl, hx⟩
    · exact Or.inl hstop
    · rw [List.nil_append, scan_more hx]
      rcases scan_some_cases _ _ _ _ _ bs with hstop | ⟨y, rest, rfl, hy⟩
      · exact Or.inl hstop
      · obtain ⟨hx, hsmall, hgap⟩ := (hsecond _).mp hx
        refine Or.inr ⟨[b, x, y], _, rest, .three hthree hx hy rfl ?_ ?_, rfl⟩
        · omega
        · unfold Nat.isValidChar
          omega
  by_cases hfour : 0xF0 ≤ b.toNat ∧ b.toNat ≤ 0xF4
  · obtain ⟨low, high, hlead, hsecond⟩ := lead_four hfour
    rw [scan_none_cons, hlead]
    rcases scan_some_cases _ _ _ _ _ bs with hstop | ⟨x, bs, rfl, hx⟩
    · exact Or.inl hstop
    · rw [List.nil_append, scan_more hx]
      rcases scan_some_cases _ _ _ _ _ bs with hstop | ⟨y, bs, rfl, hy⟩
      · exact Or.inl hstop
      · rw [scan_more hy]
        rcases scan_some_cases _ _ _ _ _ bs with hstop | ⟨z, rest, rfl, hz⟩
        · exact Or.inl hstop
        · obtain ⟨hx, hsmall, hgreat⟩ := (hsecond _).mp hx
          refine Or.inr ⟨[b, x, y, z], _, rest, .four hfour hx hy hz rfl ?_ ?_, rfl⟩
          · omega
          · unfold Nat.isValidChar
            omega
  · rw [scan_none_cons, lead_broken hone htwo hthree hfour]
    exact Or.inl ⟨.broken 1, _, rfl, fun _ => Piece.noConfusion⟩

/-! ## The text that bytes begin with -/

/-- The bytes are those of a text. -/
def IsUtf8 (bytes : List UInt8) : Prop := ∃ t, encode t = bytes

/-- The bytes begin with those of the text, and no longer beginning of them is
that of a text. -/
structure IsLongestText (t : Text) (bytes : List UInt8) : Prop where
  begins : encode t <+: bytes
  longest : ∀ lead, lead <+: bytes → IsUtf8 lead → lead.length ≤ (encode t).length

theorem encode_cons (c : Char) (t : Text) : encode (c :: t) = String.utf8EncodeChar c ++ encode t :=
  List.flatMap_cons

theorem encode_append (t u : Text) : encode (t ++ u) = encode t ++ encode u := List.flatMap_append

theorem length_encode (t : Text) : (encode t).length = Text.byteLength t := by
  induction t with
  | nil => rfl
  | cons c t ih =>
    rw [encode_cons, List.length_append, String.length_utf8EncodeChar, ih, Text.byteLength]

/-- The machine reads what is written of a text as its characters. -/
theorem scan_encode_append (t : Text) (bs : List UInt8) :
    scan none (encode t ++ bs) = t.map .char ++ scan none bs := by
  induction t with
  | nil => rfl
  | cons c t ih =>
    rw [encode_cons, List.append_assoc, scan_spells (spells_encodeChar c), Char.ofNat_toNat, ih]
    rfl

/-- Any bytes are those of a text and some rest, which is empty or one where the
machine finds a fault at once. -/
theorem exists_text (bytes : List UInt8) :
    ∃ t rest, bytes = encode t ++ rest ∧ (rest = [] ∨ Stops (scan none rest)) := by
  -- the bytes after one character are fewer, though not by one
  induction hlength : bytes.length using Nat.strongRecOn generalizing bytes with
  | ind n ih =>
    cases bytes with
    | nil => exact ⟨[], [], rfl, Or.inl rfl⟩
    | cons b bs =>
      rcases scan_none_cases b bs with hstop | ⟨s, n, rest, hs, hsplit⟩
      · exact ⟨[], b :: bs, rfl, Or.inr hstop⟩
      · have hshorter : rest.length < (b :: bs).length := by
          rw [hsplit, List.length_append]
          cases hs <;> simp
        obtain ⟨t, rest', hrest, hend⟩ := ih rest.length (hlength ▸ hshorter) rest rfl
        refine ⟨Char.ofNat n :: t, rest', ?_, hend⟩
        rw [hsplit, hrest, encode_cons, hs.encodeChar, List.append_assoc]

/-! ## Strict reading -/

theorem strictFrom_chars (index : Nat) (t : Text) (ps : List Piece) :
    strictFrom index (t.map .char ++ ps) =
      (strictFrom (index + Text.byteLength t) ps).map (t ++ ·) := by
  induction t generalizing index with
  | nil =>
    change strictFrom index ps = (strictFrom index ps).map fun u => u
    cases strictFrom index ps <;> rfl
  | cons c t ih =>
    rw [List.map_cons, List.cons_append, strictFrom, ih, Text.byteLength, ← Nat.add_assoc]
    cases strictFrom (index + c.utf8Size + Text.byteLength t) ps <;> rfl

theorem strictFrom_of_stops {ps : List Piece} (h : Stops ps) (index : Nat) :
    ∃ f, strictFrom index ps = .error f ∧ f.index = index := by
  obtain ⟨p, rest, rfl, hp⟩ := h
  cases p with
  | char c => exact absurd rfl (hp c)
  | broken n => exact ⟨_, rfl, rfl⟩
  | cut n => exact ⟨_, rfl, rfl⟩

theorem decode_encode (t : Text) : decode (encode t) = .ok t := by
  have h := scan_encode_append t []
  rw [List.append_nil] at h
  rw [decode, h, strictFrom_chars]
  simp [scan, strictFrom, Except.map]

section

variable {rest : List UInt8} (hstop : Stops (scan none rest))

include hstop

/-- Strict reading names the end of the text in front of the fault. -/
theorem decode_of_stops (t : Text) :
    ∃ f, decode (encode t ++ rest) = .error f ∧ f.index = (encode t).length := by
  obtain ⟨f, hf, hindex⟩ := strictFrom_of_stops hstop (0 + Text.byteLength t)
  refine ⟨f, ?_, ?_⟩
  · rw [decode, scan_encode_append, strictFrom_chars, hf]
    rfl
  · rw [hindex, Nat.zero_add, length_encode]

theorem not_isUtf8_of_stops (t : Text) : ¬ IsUtf8 (encode t ++ rest) := by
  rintro ⟨u, hu⟩
  obtain ⟨f, hf, -⟩ := decode_of_stops hstop t
  rw [← hu, decode_encode] at hf
  cases hf

/-- A text whose bytes come first comes first in the text in front of the
fault. -/
theorem prefix_of_stops {t u : Text} (h : encode u <+: encode t ++ rest) : u <+: t := by
  obtain ⟨more, hmore⟩ := h
  have hscan := congrArg (scan none) hmore
  rw [scan_encode_append, scan_encode_append] at hscan
  rcases List.append_eq_append_iff.mp hscan with ⟨ps, hps, -⟩ | ⟨ps, hps, hrest⟩
  · obtain ⟨a, b, rfl, ha, -⟩ := List.map_eq_append_iff.mp hps
    rw [List.map_inj_right fun _ _ h => Piece.char.inj h] at ha
    exact ⟨b, by rw [ha]⟩
  · cases ps with
    | nil =>
      rw [List.append_nil, List.map_inj_right fun _ _ h => Piece.char.inj h] at hps
      exact ⟨[], by rw [hps, List.append_nil]⟩
    | cons p ps =>
      obtain ⟨q, qs, hq, hnot⟩ := hstop
      rw [hq] at hrest
      obtain ⟨rfl, -⟩ := List.cons.inj hrest
      have hmem : q ∈ u.map Piece.char := by
        rw [hps]
        simp
      obtain ⟨c, -, rfl⟩ := List.mem_map.mp hmem
      exact absurd rfl (hnot c)

theorem isLongestText_of_stops (t : Text) : IsLongestText t (encode t ++ rest) where
  begins := List.prefix_append _ _
  longest lead hlead hutf := by
    obtain ⟨u, rfl⟩ := hutf
    obtain ⟨v, rfl⟩ := prefix_of_stops hstop hlead
    rw [encode_append, List.length_append]
    exact Nat.le_add_right _ _

end

theorem isLongestText_encode (t : Text) : IsLongestText t (encode t) where
  begins := List.prefix_rfl
  longest _ hlead _ := hlead.length_le

/-! ## Lenient reading -/

theorem decodeLenient_encode_append (t : Text) (bs : List UInt8) :
    decodeLenient (encode t ++ bs) = t ++ decodeLenient bs := by
  rw [decodeLenient, scan_encode_append, List.map_append, List.map_map, decodeLenient]
  congr
  exact List.map_id t

theorem decodeLenient_encode (t : Text) : decodeLenient (encode t) = t := by
  have h := decodeLenient_encode_append t []
  rwa [List.append_nil, show decodeLenient [] = [] from rfl, List.append_nil] at h

theorem decodeLenient_of_stops {rest : List UInt8} (hstop : Stops (scan none rest)) :
    ∃ u, decodeLenient rest = '\ufffd' :: u := by
  obtain ⟨p, ps, hps, hp⟩ := hstop
  rw [decodeLenient, hps, List.map_cons]
  cases p with
  | char c => exact absurd rfl (hp c)
  | broken n => exact ⟨_, rfl⟩
  | cut n => exact ⟨_, rfl⟩

/-! ## Both ways of reading -/

/-- Bytes that are those of a text are read as it in both ways. -/
structure ReadsAs (bytes : List UInt8) (t : Text) : Prop where
  encode : encode t = bytes
  strict : decode bytes = .ok t
  lenient : decodeLenient bytes = t

/-- Bytes that are those of no text have a fault behind the longest text that
they begin with. Strict reading names its place, lenient reading replaces it. -/
structure FailsAfter (bytes : List UInt8) (t : Text) : Prop where
  not_isUtf8 : ¬ IsUtf8 bytes
  strict : ∃ fault, decode bytes = .error fault ∧ fault.index = (Utf8.encode t).length
  lenient : ∃ rest, decodeLenient bytes = t ++ '\ufffd' :: rest

theorem readsAs_encode (t : Text) : ReadsAs (encode t) t :=
  ⟨rfl, decode_encode t, decodeLenient_encode t⟩

/-- The longest text that the bytes begin with is all that they hold, or all in
front of their first fault. -/
theorem readsAs_or_failsAfter (bytes : List UInt8) :
    ∃ t, IsLongestText t bytes ∧ (ReadsAs bytes t ∨ FailsAfter bytes t) := by
  obtain ⟨t, rest, rfl, rfl | hstop⟩ := exists_text bytes
  · rw [List.append_nil]
    exact ⟨t, isLongestText_encode t, Or.inl (readsAs_encode t)⟩
  · obtain ⟨u, hu⟩ := decodeLenient_of_stops hstop
    refine ⟨t, isLongestText_of_stops hstop t,
      Or.inr ⟨not_isUtf8_of_stops hstop t, decode_of_stops hstop t, u, ?_⟩⟩
    rw [decodeLenient_encode_append, hu]

/-- The bytes of a surrogate: the second one cannot go on with the first. -/
example : decode [0x61, 0xED, 0xA0, 0x80] = .error ⟨1, some 1⟩ ∧
    decodeLenient [0x61, 0xED, 0xA0, 0x80] = ['a', '\ufffd', '\ufffd', '\ufffd'] := ⟨rfl, rfl⟩

theorem exists_fault {bytes : List UInt8} (h : ¬ IsUtf8 bytes) :
    ∃ fault, decode bytes = .error fault := by
  obtain ⟨t, -, hread | hread⟩ := readsAs_or_failsAfter bytes
  · exact absurd ⟨t, hread.encode⟩ h
  · obtain ⟨fault, hfault, -⟩ := hread.strict
    exact ⟨fault, hfault⟩

end Utf8

end MarkupTree
