-- A strict reader of text with marks in angle brackets. It knows nothing of
-- the elements that a format has or of the way a format escapes text: it only
-- splits a text into the characters and the marks that stand in it, and each
-- mark into its name and its attributes.
import MarkupTree.Text.Basic

namespace MarkupTree

namespace Markup

/-- What stands from a `<` to the next `>`. An attribute is a name with what
stands between the quotes. -/
inductive Mark
  | opening (name : Text) (attributes : List (Text × Text))
  | closing (name : Text)
  /-- An element that closes itself. -/
  | void (name : Text) (attributes : List (Text × Text))
  /-- A comment or a declaration, with what follows the exclamation mark. -/
  | comment (text : Text)
  deriving DecidableEq, Repr

inductive Token
  | char (c : Char)
  | mark (m : Mark)
  deriving DecidableEq, Repr

/-! ## Tokens as text -/

def attributeText (a : Text × Text) : Text := ' ' :: a.1 ++ "=\"".toList ++ a.2 ++ ['\x22']

/-- The name of the element that the mark belongs to. -/
def Mark.name? : Mark → Option Text
  | .opening name _ | .closing name | .void name _ => some name
  | .comment _ => none

/-- The attributes of the element, with what stands between the quotes. -/
def Mark.attributes : Mark → List (Text × Text)
  | .opening _ attributes | .void _ attributes => attributes
  | .closing _ | .comment _ => []

/-- The text between the brackets. -/
def Mark.inner : Mark → Text
  | .opening name attributes => name ++ attributes.flatMap attributeText
  | .closing name => '/' :: name
  | .void name attributes => name ++ (attributes.flatMap attributeText ++ " /".toList)
  | .comment text => '!' :: text

def Token.text : Token → Text
  | .char c => [c]
  | .mark m => '<' :: (m.inner ++ ['>'])

theorem flatMap_text_chars (t : Text) : (t.map Token.char).flatMap Token.text = t := by
  rw [List.flatMap_map]
  exact List.flatMap_singleton' t

/-- The marks of the tokens, in their order. -/
def marks (ts : List Token) : List Mark :=
  ts.filterMap fun
    | .mark m => some m
    | .char _ => none

/-! ## What tokens may hold -/

def isNameChar (c : Char) : Bool := c.isAlphanum || c == '_' || c == '-' || c == ':'

def isName (t : Text) : Bool := !t.isEmpty && t.all isNameChar

/-- Whether a text that is no mark may hold the character. -/
def isTextChar (c : Char) : Bool := c != '<' && c != '>'

/-- Whether an attribute value may hold the character. -/
def isValueChar (c : Char) : Bool := isTextChar c && c != '\x22'

def isAttribute (a : Text × Text) : Bool := a.1.all isNameChar && a.2.all isValueChar

def Mark.isClean : Mark → Bool
  | .opening name attributes | .void name attributes => isName name && attributes.all isAttribute
  | .closing name => isName name
  | .comment text => text.all isTextChar

def Token.isClean : Token → Bool
  | .char c => isTextChar c
  | .mark m => m.isClean

/-! ## The reader -/

/-- Where the reader of attributes stands, with what it has seen there. -/
inductive Spot
  | between
  | inName (seen : Text)
  | beforeValue (name : Text)
  | inValue (name seen : Text)

/-- The attributes that a text holds, and whether a slash ends it. -/
def readAttributes : Spot → Text → Option (List (Text × Text) × Bool)
  | .between, [] => some ([], false)
  | .between, c :: cs =>
    if c != ' ' then none
    else if cs = ['/'] then some ([], true)
    else readAttributes (.inName []) cs
  | .inName seen, c :: cs =>
    if isNameChar c then readAttributes (.inName (seen ++ [c])) cs
    else if c = '=' then readAttributes (.beforeValue seen) cs
    else none
  | .beforeValue name, c :: cs =>
    if c = '\x22' then readAttributes (.inValue name []) cs else none
  | .inValue name seen, c :: cs =>
    if c = '\x22' then (readAttributes .between cs).map fun r => ((name, seen) :: r.1, r.2)
    else if isValueChar c then readAttributes (.inValue name (seen ++ [c])) cs
    else none
  | _, [] => none

/-- The mark with the given text between its brackets. -/
def readMark : Text → Option Mark
  | '/' :: name => if isName name then some (.closing name) else none
  | '!' :: text => some (.comment text)
  | inner =>
    let name := inner.takeWhile isNameChar
    if name.isEmpty then none
    else
      (readAttributes .between (inner.dropWhile isNameChar)).map fun (attributes, slash) =>
        if slash then .void name attributes else .opening name attributes

/-- Reads on in a text, or in a mark of which so much is seen. A bracket that
neither starts nor ends a mark is refused. -/
def readFrom : Option Text → Text → Option (List Token)
  | none, [] => some []
  | some _, [] => none
  | none, c :: cs =>
    if c = '<' then readFrom (some []) cs
    else if c = '>' then none
    else (readFrom none cs).map (.char c :: ·)
  | some seen, c :: cs =>
    if c = '<' then none
    else if c = '>' then
      (readMark seen).bind fun m => (readFrom none cs).map (.mark m :: ·)
    else readFrom (some (seen ++ [c])) cs

/-- The tokens of a text. -/
def read? (t : Text) : Option (List Token) := readFrom none t

/-- A tag with one attribute, a character and the closing tag. -/
example : read? "<a href=\"#\">b</a>".toList =
    some [.mark (.opening ['a'] [("href".toList, ['#'])]), .char 'b', .mark (.closing ['a'])] :=
  rfl

/-! ## Reading back -/

theorem isTextChar_iff {c : Char} : isTextChar c = true ↔ c ≠ '<' ∧ c ≠ '>' := by
  simp [isTextChar]

theorem isValueChar_iff {c : Char} : isValueChar c = true ↔ c ≠ '<' ∧ c ≠ '>' ∧ c ≠ '\x22' := by
  simp [isValueChar, isTextChar, and_assoc]

/-- Characters of names are none of the signs that the reader looks for. -/
theorem ne_of_isNameChar {c d : Char} (hc : isNameChar c = true) (hd : isNameChar d = false) :
    c ≠ d := fun h => by simp [h, hd] at hc

theorem isTextChar_of_isNameChar {c : Char} (h : isNameChar c = true) : isTextChar c = true :=
  isTextChar_iff.mpr ⟨ne_of_isNameChar h rfl, ne_of_isNameChar h rfl⟩

theorem isNameChar_ofNat (n : Nat) : ∀ c ∈ Text.ofNat n, isNameChar c = true := by
  intro c hc
  have hdigit := Nat.isDigit_of_mem_toDigits (by decide) (by decide) hc
  simp [isNameChar, Char.isAlphanum, hdigit]

theorem readAttributes_inName (seen name rest : Text) (hname : name.all isNameChar = true) :
    readAttributes (.inName seen) (name ++ '=' :: rest) =
      readAttributes (.beforeValue (seen ++ name)) rest := by
  induction name generalizing seen with
  | nil => simp [readAttributes, show isNameChar '=' = false from rfl]
  | cons c name ih =>
    obtain ⟨hc, hname⟩ : isNameChar c = true ∧ name.all isNameChar = true := by
      simpa using hname
    rw [List.cons_append, readAttributes, if_pos hc, ih _ hname, List.append_assoc]
    rfl

theorem readAttributes_inValue (name seen value rest : Text) (hvalue : value.all isValueChar = true) :
    readAttributes (.inValue name seen) (value ++ '\x22' :: rest) =
      (readAttributes .between rest).map fun r => ((name, seen ++ value) :: r.1, r.2) := by
  induction value generalizing seen with
  | nil => simp [readAttributes]
  | cons c value ih =>
    obtain ⟨hc, hvalue⟩ : isValueChar c = true ∧ value.all isValueChar = true := by
      simpa using hvalue
    rw [List.cons_append, readAttributes, if_neg (isValueChar_iff.mp hc).2.2, if_pos hc,
      ih _ hvalue, List.append_assoc]
    rfl

/-- One attribute is read, then the rest. -/
theorem readAttributes_attributeText {a : Text × Text} (ha : isAttribute a = true) (rest : Text) :
    readAttributes .between (attributeText a ++ rest) =
      (readAttributes .between rest).map fun r => (a :: r.1, r.2) := by
  obtain ⟨name, value⟩ := a
  obtain ⟨hname, hvalue⟩ : name.all isNameChar = true ∧ value.all isValueChar = true := by
    simpa [isAttribute] using ha
  have htext : attributeText (name, value) ++ rest =
      ' ' :: (name ++ '=' :: '\x22' :: (value ++ '\x22' :: rest)) := by
    simp [attributeText]
  have hmore : name ++ '=' :: '\x22' :: (value ++ '\x22' :: rest) ≠ ['/'] := by
    intro h
    have hlen := congrArg List.length h
    simp at hlen
    omega
  rw [htext, readAttributes, if_neg (by simp), if_neg hmore, readAttributes_inName _ _ _ hname,
    readAttributes, if_pos rfl, readAttributes_inValue _ _ _ _ hvalue]
  rfl

theorem readAttributes_flatMap {as : List (Text × Text)} (has : as.all isAttribute = true)
    (rest : Text) :
    readAttributes .between (as.flatMap attributeText ++ rest) =
      (readAttributes .between rest).map fun r => (as ++ r.1, r.2) := by
  induction as with
  | nil => simp
  | cons a as ih =>
    obtain ⟨ha, has⟩ : isAttribute a = true ∧ as.all isAttribute = true := by simpa using has
    rw [List.flatMap_cons, List.append_assoc, readAttributes_attributeText ha, ih has,
      Option.map_map]
    rfl

/-- A name followed by what cannot go on with it is cut off in full. -/
theorem span_name {name rest : Text} (hname : name.all isNameChar = true)
    (hrest : ∀ c ∈ rest.head?, isNameChar c = false) :
    (name ++ rest).takeWhile isNameChar = name ∧ (name ++ rest).dropWhile isNameChar = rest := by
  have hall : ∀ c ∈ name, isNameChar c = true := List.all_eq_true.mp hname
  rw [List.takeWhile_append_of_pos hall, List.dropWhile_append_of_pos hall]
  cases rest with
  | nil => simp
  | cons c rest => simp [hrest c rfl]

theorem head?_flatMap_attributeText (as : List (Text × Text)) {rest : Text}
    (hrest : ∀ c ∈ rest.head?, isNameChar c = false) :
    ∀ c ∈ (as.flatMap attributeText ++ rest).head?, isNameChar c = false := by
  cases as with
  | nil => exact hrest
  | cons a as => simp [attributeText, show isNameChar ' ' = false from rfl]

/-- A name and attributes, with or without a slash, are read as a tag. -/
theorem readMark_tag (slash : Bool) {name rest : Text} {as : List (Text × Text)}
    (hname : isName name = true) (has : as.all isAttribute = true)
    (hrest : rest = if slash then " /".toList else []) :
    readMark (name ++ (as.flatMap attributeText ++ rest)) =
      some (if slash then .void name as else .opening name as) := by
  obtain ⟨hne, hall⟩ : name ≠ [] ∧ name.all isNameChar = true := by simpa [isName] using hname
  have hstop : ∀ c ∈ rest.head?, isNameChar c = false := by
    cases slash <;> simp [hrest]
    rfl
  obtain ⟨htake, hdrop⟩ := span_name hall (head?_flatMap_attributeText as hstop)
  have hslash : readAttributes .between rest = some ([], slash) := by
    cases slash <;> simp [hrest, readAttributes]
  obtain ⟨c, cs, rfl⟩ := List.exists_cons_of_ne_nil hne
  have hc : isNameChar c = true := by simp_all
  rw [List.cons_append] at *
  unfold readMark
  split
  · exact absurd (List.cons.inj ‹_›).1 (ne_of_isNameChar hc rfl)
  · exact absurd (List.cons.inj ‹_›).1 (ne_of_isNameChar hc rfl)
  · rw [htake, hdrop, readAttributes_flatMap has, hslash]
    simp

theorem readMark_inner {m : Mark} (hm : m.isClean = true) : readMark m.inner = some m := by
  cases m with
  | opening name attributes =>
    obtain ⟨hname, has⟩ : isName name = true ∧ attributes.all isAttribute = true := by
      simpa [Mark.isClean] using hm
    simpa [Mark.inner] using readMark_tag false hname has rfl
  | closing name => exact if_pos hm
  | void name attributes =>
    obtain ⟨hname, has⟩ : isName name = true ∧ attributes.all isAttribute = true := by
      simpa [Mark.isClean] using hm
    exact readMark_tag true hname has rfl
  | comment text => rfl

/-- The text of a mark stays between its brackets. -/
theorem all_inner {m : Mark} (hm : m.isClean = true) : m.inner.all isTextChar = true := by
  have hnames : ∀ {t : Text}, t.all isNameChar = true → t.all isTextChar = true := fun h =>
    List.all_eq_true.mpr fun c hc => isTextChar_of_isNameChar (List.all_eq_true.mp h c hc)
  have hattributes : ∀ {as : List (Text × Text)}, as.all isAttribute = true →
      (as.flatMap attributeText).all isTextChar = true := by
    intro as has
    rw [List.all_flatMap]
    refine List.all_eq_true.mpr fun a ha => ?_
    obtain ⟨hname, hvalue⟩ : a.1.all isNameChar = true ∧ a.2.all isValueChar = true := by
      simpa [isAttribute] using List.all_eq_true.mp has a ha
    have hvalue' : a.2.all isTextChar = true := List.all_eq_true.mpr fun c hc =>
      (Bool.and_eq_true_iff.mp (List.all_eq_true.mp hvalue c hc)).1
    simp [attributeText, hnames hname, hvalue', isTextChar]
  cases m with
  | opening name attributes =>
    obtain ⟨⟨-, hname⟩, has⟩ : (name ≠ [] ∧ name.all isNameChar = true) ∧
        attributes.all isAttribute = true := by simpa [Mark.isClean, isName] using hm
    simp [Mark.inner, hnames hname, hattributes has]
  | closing name =>
    obtain ⟨-, hname⟩ : name ≠ [] ∧ name.all isNameChar = true := by
      simpa [Mark.isClean, isName] using hm
    simp [Mark.inner, hnames hname, isTextChar]
  | void name attributes =>
    obtain ⟨⟨-, hname⟩, has⟩ : (name ≠ [] ∧ name.all isNameChar = true) ∧
        attributes.all isAttribute = true := by simpa [Mark.isClean, isName] using hm
    simp [Mark.inner, hnames hname, hattributes has, isTextChar]
  | comment text =>
    simp only [Mark.inner, List.all_cons]
    exact Bool.and_eq_true_iff.mpr ⟨rfl, hm⟩

/-- Characters that are no brackets are taken up into the mark. -/
theorem readFrom_some (seen inner rest : Text) (hinner : inner.all isTextChar = true) :
    readFrom (some seen) (inner ++ '>' :: rest) =
      (readMark (seen ++ inner)).bind fun m => (readFrom none rest).map (.mark m :: ·) := by
  induction inner generalizing seen with
  | nil => simp [readFrom]
  | cons c inner ih =>
    obtain ⟨hc, hinner⟩ : isTextChar c = true ∧ inner.all isTextChar = true := by
      simpa using hinner
    obtain ⟨hlt, hgt⟩ := isTextChar_iff.mp hc
    rw [List.cons_append, readFrom, if_neg hlt, if_neg hgt, ih _ hinner, List.append_assoc]
    rfl

/-- Clean tokens are read back from their text. -/
theorem read?_flatMap_text {ts : List Token} (h : ∀ t ∈ ts, t.isClean = true) :
    read? (ts.flatMap Token.text) = some ts := by
  unfold read?
  induction ts with
  | nil => rfl
  | cons t ts ih =>
    have ih := ih fun t ht => h t (List.mem_cons_of_mem _ ht)
    have ht := h t List.mem_cons_self
    rw [List.flatMap_cons]
    cases t with
    | char c =>
      obtain ⟨hlt, hgt⟩ := isTextChar_iff.mp ht
      rw [Token.text, List.singleton_append, readFrom, if_neg hlt, if_neg hgt, ih]
      rfl
    | mark m =>
      rw [Token.text, List.cons_append, List.append_assoc, readFrom, if_pos rfl,
        List.singleton_append, readFrom_some _ _ _ (all_inner ht), List.nil_append,
        readMark_inner ht, ih]
      rfl

end Markup

end MarkupTree
