-- A reader of text in CommonMark. A backslash in front of punctuation takes its
-- meaning as markup away. A reference stands for the character of a number, or for
-- what the table of the names of the format says.
import MarkupTree.Text.Ascii
import MarkupTree.Text.Basic

namespace MarkupTree

namespace CommonMark

/-- What a reader finds in a text: a character, one after a backslash, or a reference
of a name with what it stands for. -/
inductive Sign
  | plain (c : Char)
  | escaped (c : Char)
  | reference (name value : Text)
  deriving DecidableEq, Repr

def Sign.value : Sign → Text
  | .plain c | .escaped c => [c]
  | .reference _ value => value

/-! ## References -/

/-- The character of a number. Numbers without a character, and zero, stand for the
replacement character. -/
def charOfNumber (n : Nat) : Char :=
  if n ≠ 0 ∧ n.isValidChar then Char.ofNat n else '\uFFFD'

def isHexDigit (c : Char) : Bool :=
  c.isDigit || ('a' ≤ c && c ≤ 'f') || ('A' ≤ c && c ≤ 'F')

/-- The number that digits of base sixteen stand for. -/
def ofHexDigits (digits : Text) : Nat :=
  digits.foldl (fun n c =>
    16 * n + (if c.isDigit then c.toNat - 0x30 else c.toLower.toNat - 0x61 + 10)) 0

/-- What stands in front of the first semicolon. -/
def name? : Text → Option Text
  | [] => none
  | c :: cs => if c = ';' then some [] else (name? cs).map (c :: ·)

/-- What a number of up to seven digits stands for, or one of up to six digits of base
sixteen. -/
def numberValue? : Text → Option Text
  | '#' :: c :: digits =>
    if c = 'x' ∨ c = 'X' then
      if !digits.isEmpty && digits.length ≤ 6 && digits.all isHexDigit then
        some [charOfNumber (ofHexDigits digits)]
      else none
    else if digits.length < 7 && (c :: digits).all Char.isDigit then
      some [charOfNumber (Nat.ofDigitChars 10 (c :: digits) 0)]
    else none
  | _ => none

section

variable (named : Text → Option Text)

/-- What the name of the table stands for. A name is a letter and any letters and digits
after it. -/
def nameValue? (name : Text) : Option Text :=
  if name.head?.any Char.isAlpha && name.all Char.isAlphanum then named name else none

/-- The reference that the text goes on with after an ampersand. -/
def reference? (t : Text) : Option (Text × Text) :=
  (name? t).bind fun name =>
    ((numberValue? name).or (nameValue? named name)).map fun value => (name, value)

/-- What is read of a text after so many characters that are already read. -/
def readFrom : Nat → Text → List Sign
  | _, [] => []
  | skip + 1, _ :: cs => readFrom skip cs
  | 0, c :: cs =>
    if c = '\\' ∧ cs.head?.any Text.isAsciiPunctuation then .escaped (cs.headD c) :: readFrom 1 cs
    else
      match if c = '&' then reference? named cs else none with
      | some (name, value) => .reference name value :: readFrom (name.length + 1) cs
      | none => .plain c :: readFrom 0 cs

def read (t : Text) : List Sign := readFrom named 0 t

/-- The text that a text stands for. -/
def meaning (t : Text) : Text := (read named t).flatMap Sign.value

end

example : meaning (fun name => if name = "amp".toList then some ['&'] else none)
    "\\*&amp;&#65;&x;\\a".toList = "*&A&x;\\a".toList := by decide

variable {named : Text → Option Text}

/-! ## Reading one part after the other -/

theorem readFrom_append (s t : Text) : readFrom named s.length (s ++ t) = read named t := by
  induction s with
  | nil => rfl
  | cons c s ih => exact ih

theorem read_escaped {d : Char} (hd : Text.isAsciiPunctuation d = true) (t : Text) :
    read named ('\\' :: d :: t) = .escaped d :: read named t := by
  rw [read, readFrom, if_pos ⟨rfl, hd⟩]
  rfl

theorem read_plain {c : Char} {t : Text} (hslash : c ≠ '\\')
    (hreference : c = '&' → reference? named t = none) :
    read named (c :: t) = .plain c :: read named t := by
  have hnone : (if c = '&' then reference? named t else none) = none := by
    split
    · exact hreference ‹_›
    · rfl
  rw [read, readFrom, if_neg (fun h => hslash h.1), hnone]
  rfl

theorem readFrom_of_reference? {name value t : Text} (h : reference? named t = some (name, value)) :
    read named ('&' :: t) = .reference name value :: readFrom named (name.length + 1) t := by
  have hslash : ¬('&' = '\\' ∧ t.head?.any Text.isAsciiPunctuation = true) := fun h =>
    absurd h.1 (by decide)
  rw [read, readFrom, if_neg hslash, if_pos rfl, h]

/-! ## Names -/

theorem name?_eq_some_iff {t name : Text} :
    name? t = some name ↔ ';' ∉ name ∧ name ++ [';'] <+: t := by
  induction t generalizing name with
  | nil => simp [name?]
  | cons c t ih =>
    unfold name?
    by_cases hc : c = ';'
    · subst hc
      cases name with
      | nil => simp
      | cons d name => simp +contextual [List.cons_prefix_cons, eq_comm]
    · cases name with
      | nil => simp [hc, Ne.symm hc]
      | cons d name =>
        simp only [if_neg hc, Option.map_eq_some_iff, List.cons.injEq, List.cons_append,
          List.cons_prefix_cons, List.mem_cons, not_or]
        constructor
        · rintro ⟨name', hname, rfl, rfl⟩
          exact ⟨⟨Ne.symm hc, (ih.mp hname).1⟩, rfl, (ih.mp hname).2⟩
        · rintro ⟨⟨-, hname⟩, rfl, hfront⟩
          exact ⟨name, ih.mpr ⟨hname, hfront⟩, rfl, rfl⟩

theorem nameValue?_eq_some_iff {name value : Text} :
    nameValue? named name = some value ↔
      name.head?.any Char.isAlpha = true ∧ name.all Char.isAlphanum = true ∧
        named name = some value := by
  unfold nameValue?
  split
  · have h := Bool.and_eq_true_iff.mp ‹_›
    exact ⟨fun hvalue => ⟨h.1, h.2, hvalue⟩, fun hvalue => hvalue.2.2⟩
  · rename_i h
    exact iff_of_false nofun fun hvalue => h (Bool.and_eq_true_iff.mpr ⟨hvalue.1, hvalue.2.1⟩)

theorem semicolon_notMem_of_nameValue? {name value : Text} (h : nameValue? named name = some value) :
    ';' ∉ name := fun hmem =>
  absurd (List.all_eq_true.mp (nameValue?_eq_some_iff.mp h).2.1 _ hmem) (by decide)

/-- A reference by number begins with the number sign. -/
theorem numberValue?_of_head {name : Text} (h : name.head? ≠ some '#') : numberValue? name = none := by
  unfold numberValue?
  split
  · exact absurd rfl h
  · rfl

/-- Where the text does not go on with the number sign, a reference is a name of the table
with a semicolon after it. -/
theorem reference?_eq_some_iff {t name value : Text} (ht : t.head? ≠ some '#') :
    reference? named t = some (name, value) ↔
      name ++ [';'] <+: t ∧ nameValue? named name = some value := by
  have hnumber : name ++ [';'] <+: t → numberValue? name = none := by
    rintro ⟨rest, rfl⟩
    refine numberValue?_of_head fun hname => ht ?_
    rw [List.append_assoc, List.head?_append, hname]
    rfl
  unfold reference?
  rw [Option.bind_eq_some_iff]
  constructor
  · rintro ⟨seen, hseen, hvalue⟩
    obtain ⟨v, hv, heq⟩ := Option.map_eq_some_iff.mp hvalue
    cases heq
    have hfront := (name?_eq_some_iff.mp hseen).2
    rw [hnumber hfront, Option.none_or] at hv
    exact ⟨hfront, hv⟩
  · rintro ⟨hfront, hvalue⟩
    refine ⟨name, name?_eq_some_iff.mpr ⟨semicolon_notMem_of_nameValue? hvalue, hfront⟩, ?_⟩
    rw [hnumber hfront, Option.none_or, hvalue]
    rfl

/-! ## Numbers -/

theorem numberValue?_ofNat {n : Nat} (hn : n < 10000000) :
    numberValue? ('#' :: Text.ofNat n) = some [charOfNumber n] := by
  have hdigit : ∀ c ∈ Text.ofNat n, c.isDigit = true := fun c hc =>
    Nat.isDigit_of_mem_toDigits (by decide) (by decide) hc
  have hlength : (Text.ofNat n).length ≤ 7 :=
    (Nat.length_toDigits_le_iff (by decide) (by decide)).mpr hn
  have hvalue : Nat.ofDigitChars 10 (Text.ofNat n) 0 = n :=
    Nat.ofDigitChars_toDigits (by decide) (by decide)
  rcases hdigits : Text.ofNat n with _ | ⟨c, cs⟩
  · exact absurd hdigits Nat.toDigits_ne_nil
  · rw [hdigits] at hdigit hlength hvalue
    have hc : ¬(c = 'x' ∨ c = 'X') := by
      rintro (rfl | rfl) <;> exact absurd (hdigit _ List.mem_cons_self) (by decide)
    have hall : (c :: cs).all Char.isDigit = true := List.all_eq_true.mpr hdigit
    have hshort : cs.length < 7 := hlength
    rw [numberValue?, if_neg hc, hall, hvalue]
    simp [hshort]

/-- A reference by number reads as the character of the number, whatever follows. -/
theorem read_number {n : Nat} (hn : n < 10000000) (t : Text) :
    read named ("&#".toList ++ Text.ofNat n ++ ';' :: t) =
      .reference ('#' :: Text.ofNat n) [charOfNumber n] :: read named t := by
  have hname : name? ('#' :: Text.ofNat n ++ ';' :: t) = some ('#' :: Text.ofNat n) := by
    refine name?_eq_some_iff.mpr ⟨fun hmem => ?_, ⟨t, by simp⟩⟩
    rcases List.mem_cons.mp hmem with h | h
    · exact absurd h (by decide)
    · exact absurd (Nat.isDigit_of_mem_toDigits (by decide) (by decide) h) (by decide)
  have hreference : reference? named ('#' :: Text.ofNat n ++ ';' :: t) =
      some ('#' :: Text.ofNat n, [charOfNumber n]) := by
    rw [reference?, hname, Option.bind_some, numberValue?_ofNat hn]
    rfl
  have hskip : readFrom named ('#' :: Text.ofNat n ++ [';']).length ('#' :: Text.ofNat n ++ [';'] ++ t) =
      read named t := readFrom_append _ t
  rw [List.append_assoc, List.length_append] at hskip
  show read named ('&' :: ('#' :: Text.ofNat n ++ ';' :: t)) = _
  rw [readFrom_of_reference? hreference]
  exact congrArg _ hskip

end CommonMark

end MarkupTree
