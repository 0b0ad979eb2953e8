-- The end of a link, with its address and its title. Both have a backslash in front of some
-- marks, so that they end where a reader stops first. The ampersand is none of these marks, and
-- so an address or a title with a reference in it reads as what the reference stands for.
import MarkupTree.Output
import MarkupTree.Proofs.CommonMark.Escapes
import MarkupTree.Proofs.CommonMark.Margins
import MarkupTree.Proofs.CommonMark.Reading
import MarkupTree.Proofs.Document.Sessions
import MarkupTree.Proofs.Layout.Ends

namespace MarkupTree

namespace CommonMark

open Layout

variable {o : Options} {width : Nat} {s : Site} {t url title : Text} {marks : List Char}
  {named : Text → Option Text}

/-! ## Reading the end of a link -/

/-- The text up to where it stops first, and the rest. Punctuation behind an escaping backslash does not
stop it. -/
def cut (stops : Char → Bool) (escaped : Bool) : Text → Text × Text
  | [] => ([], [])
  | c :: cs =>
    if stops c && !(escaped && Text.isAsciiPunctuation c) then ([], c :: cs)
    else
      let (t, rest) := cut stops (c == '\\' && !escaped) cs
      (c :: t, rest)

/-- Where an address ends that is not in angle brackets. -/
def endsAddress (c : Char) : Bool := c == ' ' || Text.isAsciiControl c || c == '(' || c == ')'

/-- The address that the text begins with, and what follows it. -/
def address? : Text → Option (Text × Text)
  | '<' :: cs =>
    match cut (fun c => c == '<' || c == '>' || c == '\n') false cs with
    | (t, '>' :: rest) => some (t, rest)
    | _ => none
  | cs => some (cut endsAddress false cs)

/-- The address and the title that stand in what follows the text of a link, as they are written. -/
def linkEnd? (t : Text) : Option (Text × Text) :=
  (address? t).bind fun (address, rest) =>
    match rest with
    | [')'] => some (address, [])
    | ' ' :: '\x22' :: cs =>
      match cut (· == '\x22') false cs with
      | (title, ['\x22', ')']) => some (address, title)
      | _ => none
    | _ => none

example : linkEnd? "/a\\)b \x22c\\\x22d\x22)".toList = some ("/a\\)b".toList, "c\\\x22d".toList) := by decide

/-! ## Marks -/

/-- The text with a backslash in front of each of the marks. -/
def marked (marks : List Char) (t : Text) : Text :=
  t.flatMap fun c => if marks.contains c then ['\\', c] else [c]

def addressMarks : List Char := ['\x60', '<', '>', '\\', '(', ')']

def titleMarks : List Char := ['\x60', '<', '>', '\x22', '\\']

/-- Marks are punctuation that no reference has. A backslash is one of them. -/
structure AreMarks (marks : List Char) : Prop where
  punctuation : ∀ c ∈ marks, Text.isAsciiPunctuation c = true
  slash : '\\' ∈ marks
  ampersand : '&' ∉ marks
  number : '#' ∉ marks
  semicolon : ';' ∉ marks

theorem areMarks_address : AreMarks addressMarks where
  punctuation := List.all_eq_true.mp rfl
  slash := by decide
  ampersand := by decide
  number := by decide
  semicolon := by decide

theorem areMarks_title : AreMarks titleMarks where
  punctuation := List.all_eq_true.mp rfl
  slash := by decide
  ampersand := by decide
  number := by decide
  semicolon := by decide

theorem marked_cons_of_mem {c : Char} (hc : c ∈ marks) (t : Text) :
    marked marks (c :: t) = '\\' :: c :: marked marks t := by
  simp [marked, hc]

theorem marked_cons_of_notMem {c : Char} (hc : c ∉ marks) (t : Text) :
    marked marks (c :: t) = c :: marked marks t := by
  simp [marked, hc]

theorem marked_of_notMem (h : ∀ c ∈ t, c ∉ marks) : marked marks t = t := by
  induction t with
  | nil => rfl
  | cons c t ih =>
    obtain ⟨hc, ht⟩ := List.forall_mem_cons.mp h
    rw [marked_cons_of_notMem hc, ih ht]

/-- Where all that could stop the reader is marked, it goes through to what does stop it. -/
theorem cut_marked (hmarks : AreMarks marks) {stops : Char → Bool} (hslash : stops '\\' = false)
    (ht : ∀ c ∈ t, stops c = true → c ∈ marks) {d : Char} (hd : stops d = true) (rest : Text) :
    cut stops false (marked marks t ++ d :: rest) = (marked marks t, d :: rest) := by
  induction t with
  | nil => simp [marked, cut, hd]
  | cons c t ih =>
    obtain ⟨hc, ht⟩ := List.forall_mem_cons.mp ht
    by_cases hmark : c ∈ marks
    · have hpunct := hmarks.punctuation c hmark
      rw [marked_cons_of_mem hmark]
      simp [cut, hslash, hpunct, ih ht]
    · have hstops : stops c = false := by simpa using mt hc hmark
      have hne : (c == '\\') = false := beq_false_of_ne fun heq => hmark (heq ▸ hmarks.slash)
      rw [marked_cons_of_notMem hmark]
      simp [cut, hstops, hne, ih ht]

/-! ## References -/

/-- A reference stands somewhere in the text. -/
def HoldsReference (named : Text → Option Text) (t : Text) : Prop :=
  ∃ front rest, t = front ++ '&' :: rest ∧ (reference? named rest).isSome

theorem not_holdsReference_nil : ¬HoldsReference named [] := by
  rintro ⟨front, rest, heq, -⟩
  simp at heq

theorem holdsReference_cons {c : Char} :
    HoldsReference named (c :: t) ↔ c = '&' ∧ (reference? named t).isSome ∨ HoldsReference named t := by
  constructor
  · rintro ⟨front, rest, heq, hrest⟩
    cases front with
    | nil =>
      obtain ⟨rfl, rfl⟩ := List.cons.inj heq
      exact Or.inl ⟨rfl, hrest⟩
    | cons d front =>
      obtain ⟨-, rfl⟩ := List.cons.inj heq
      exact Or.inr ⟨front, rest, rfl, hrest⟩
  · rintro (⟨rfl, h⟩ | ⟨front, rest, rfl, hrest⟩)
    · exact ⟨[], t, rfl, h⟩
    · exact ⟨c :: front, rest, rfl, hrest⟩

/-- What the name of a reference stands for, a number or one of the table. -/
def value? (named : Text → Option Text) (name : Text) : Option Text :=
  (numberValue? name).or (nameValue? named name)

theorem alphanum_of_hexDigit {c : Char} (h : isHexDigit c = true) : c.isAlphanum = true := by
  have hupper : 'A' ≤ c ∧ c ≤ 'F' → c.isUpper = true := fun ⟨hlow, hhigh⟩ =>
    decide_eq_true ⟨hlow, Char.le_trans hhigh (by decide)⟩
  have hlower : 'a' ≤ c ∧ c ≤ 'f' → c.isLower = true := fun ⟨hlow, hhigh⟩ =>
    Bool.and_eq_true_iff.mpr ⟨decide_eq_true hlow, decide_eq_true (Char.le_trans hhigh (by decide))⟩
  simp only [isHexDigit, Bool.or_eq_true, Bool.and_eq_true, decide_eq_true_eq] at h
  show ((c.isUpper || c.isLower) || c.isDigit) = true
  rcases h with (hdigit | h) | h
  · rw [hdigit, Bool.or_true]
  · rw [hlower h, Bool.or_true, Bool.true_or]
  · rw [hupper h, Bool.true_or, Bool.true_or]

theorem of_numberValue? {name value : Text} (h : numberValue? name = some value) :
    value.length = 1 ∧ ∃ cs, name = '#' :: cs ∧ ∀ c ∈ cs, c.isAlphanum = true := by
  unfold numberValue? at h
  split at h
  · rename_i c digits
    refine ⟨?_, c :: digits, rfl, List.forall_mem_cons.mpr ?_⟩
    · split at h <;> split at h <;> cases h <;> rfl
    · split at h
      · rename_i hx
        split at h
        · rename_i hdigits
          simp only [Bool.and_eq_true, List.all_eq_true] at hdigits
          refine ⟨?_, fun d hd => alphanum_of_hexDigit (hdigits.2 d hd)⟩
          rcases hx with rfl | rfl <;> rfl
        · cases h
      · split at h
        · rename_i hdigits
          have hall := List.all_eq_true.mp (Bool.and_eq_true_iff.mp hdigits).2
          have halphanum : ∀ d ∈ c :: digits, d.isAlphanum = true := fun d hd => by
            simp [Char.isAlphanum, hall d hd]
          exact List.forall_mem_cons.mp halphanum
        · cases h
  · cases h

/-- A name is made of letters and digits, with the number sign in front of a number. -/
theorem of_value? {name value : Text} (h : value? named name = some value) :
    name ≠ [] ∧ ∀ c ∈ name, c = '#' ∨ c.isAlphanum = true := by
  rcases hnumber : numberValue? name with _ | v
  · rw [value?, hnumber, Option.none_or] at h
    obtain ⟨hletter, hall, -⟩ := nameValue?_eq_some_iff.mp h
    refine ⟨?_, fun c hc => Or.inr (List.all_eq_true.mp hall c hc)⟩
    rintro rfl
    cases hletter
  · obtain ⟨-, cs, rfl, hcs⟩ := of_numberValue? hnumber
    exact ⟨List.cons_ne_nil _ _, List.forall_mem_cons.mpr ⟨Or.inl rfl, fun c hc => Or.inr (hcs c hc)⟩⟩

theorem AreMarks.notMem_of_value? (hmarks : AreMarks marks) {name value : Text}
    (h : value? named name = some value) : ∀ c ∈ name, c ∉ marks := by
  intro c hc hmark
  rcases (of_value? h).2 c hc with rfl | halphanum
  · exact hmarks.number hmark
  · exact Bool.noConfusion ((hmarks.punctuation c hmark).symm.trans (punctuation_of_alphanum halphanum))

theorem name?_marked (hmarks : AreMarks marks) (t : Text) : name? (marked marks t) = (name? t).map (marked marks) := by
  induction t with
  | nil => rfl
  | cons c t ih =>
    by_cases hc : c = ';'
    · rw [hc, marked_cons_of_notMem hmarks.semicolon]
      simp [name?, marked]
    · by_cases hmark : c ∈ marks
      · rw [marked_cons_of_mem hmark, name?, name?, name?, if_neg hc, if_neg hc, ih]
        simp [Function.comp_def, marked_cons_of_mem hmark]
      · rw [marked_cons_of_notMem hmark, name?, name?, if_neg hc, if_neg hc, ih]
        simp [Function.comp_def, marked_cons_of_notMem hmark]

/-- A reference has no marks in it, so a marked text goes on with the same one. -/
theorem reference?_marked (hmarks : AreMarks marks) (t : Text) :
    reference? named (marked marks t) = reference? named t := by
  rw [reference?, reference?, name?_marked hmarks, Option.bind_map]
  congr 1
  funext name
  show (value? named (marked marks name)).map (marked marks name, ·) = (value? named name).map (name, ·)
  by_cases hmark : ∀ c ∈ name, c ∉ marks
  · rw [marked_of_notMem hmark]
  · have hname : value? named name = none := by
      by_contra hvalue
      obtain ⟨value, hvalue⟩ := Option.ne_none_iff_exists'.mp hvalue
      exact hmark (hmarks.notMem_of_value? hvalue)
    have hmarked : value? named (marked marks name) = none := by
      by_contra hvalue
      obtain ⟨value, hvalue⟩ := Option.ne_none_iff_exists'.mp hvalue
      simp only [not_forall, not_not] at hmark
      obtain ⟨c, hc, hmark⟩ := hmark
      have hslash : '\\' ∈ marked marks name := List.mem_flatMap.mpr ⟨c, hc, by simp [hmark]⟩
      exact hmarks.notMem_of_value? hvalue _ hslash hmarks.slash
    rw [hname, hmarked]
    rfl

/-! ## Reading a marked text -/

theorem of_reference? {name value : Text} (h : reference? named t = some (name, value)) :
    value? named name = some value ∧ ∃ rest, t = name ++ ';' :: rest := by
  obtain ⟨seen, hseen, hvalue⟩ := Option.bind_eq_some_iff.mp h
  obtain ⟨v, hv, heq⟩ := Option.map_eq_some_iff.mp hvalue
  cases heq
  obtain ⟨rest, rfl⟩ := (name?_eq_some_iff.mp hseen).2
  exact ⟨hv, rest, by simp⟩

/-- A character that begins no reference is read as it is. -/
theorem meaning_marked_cons (hmarks : AreMarks marks) {c : Char}
    (hc : c = '&' → reference? named t = none) :
    meaning named (marked marks (c :: t)) = c :: meaning named (marked marks t) := by
  by_cases hmark : c ∈ marks
  · rw [marked_cons_of_mem hmark, meaning, read_escaped (hmarks.punctuation c hmark)]
    rfl
  · have hslash : c ≠ '\\' := fun heq => hmark (heq ▸ hmarks.slash)
    rw [marked_cons_of_notMem hmark, meaning,
      read_plain hslash fun h => (reference?_marked hmarks t).trans (hc h)]
    rfl

/-- A reference is read for what it stands for. -/
theorem meaning_marked_reference (hmarks : AreMarks marks) {name value rest : Text}
    (h : reference? named (name ++ ';' :: rest) = some (name, value)) :
    meaning named (marked marks ('&' :: (name ++ ';' :: rest))) = value ++ meaning named (marked marks rest) := by
  have hname : marked marks (name ++ [';']) = name ++ [';'] := by
    apply marked_of_notMem
    rw [List.forall_mem_append]
    exact ⟨hmarks.notMem_of_value? (of_reference? h).1, by simpa using hmarks.semicolon⟩
  have hmarked : marked marks (name ++ ';' :: rest) = name ++ [';'] ++ marked marks rest := by
    rw [← hname, marked, marked, marked, ← List.flatMap_append, List.append_assoc]
    rfl
  have hskip : readFrom named (name ++ [';']).length (name ++ [';'] ++ marked marks rest) =
      read named (marked marks rest) := readFrom_append _ _
  rw [List.length_append, ← hmarked] at hskip
  rw [marked_cons_of_notMem hmarks.ampersand, meaning,
    readFrom_of_reference? ((reference?_marked hmarks _).trans h)]
  exact congrArg (fun signs => value ++ signs.flatMap Sign.value) hskip

/-- Without a reference in it a marked text reads as the text, and with one it reads as a shorter one. -/
theorem meaning_marked (hmarks : AreMarks marks)
    (hnamed : ∀ name value, named name = some value → value.length ≤ 2) (t : Text) :
    HoldsReference named t ∧ (meaning named (marked marks t)).length < t.length ∨
      ¬HoldsReference named t ∧ meaning named (marked marks t) = t := by
  induction hlength : t.length using Nat.strongRecOn generalizing t with
  | ind n ih =>
    subst hlength
    cases t with
    | nil => exact Or.inr ⟨not_holdsReference_nil, rfl⟩
    | cons c cs =>
      by_cases hhere : c = '&' ∧ (reference? named cs).isSome
      · obtain ⟨rfl, hsome⟩ := hhere
        obtain ⟨⟨name, value⟩, hreference⟩ := Option.isSome_iff_exists.mp hsome
        obtain ⟨hvalue, rest, rfl⟩ := of_reference? hreference
        have hpos := List.length_pos_iff.mpr (of_value? hvalue).1
        have hshort : value.length ≤ 2 := by
          rcases Option.or_eq_some_iff.mp hvalue with hnumber | ⟨-, hname⟩
          · have hone := (of_numberValue? hnumber).1
            omega
          · exact hnamed name value (nameValue?_eq_some_iff.mp hname).2.2
        have hrest : (meaning named (marked marks rest)).length ≤ rest.length := by
          have hsmaller : rest.length < ('&' :: (name ++ ';' :: rest)).length := by
            simp
            omega
          rcases ih _ hsmaller rest rfl with ⟨-, hlt⟩ | ⟨-, heq⟩
          · exact Nat.le_of_lt hlt
          · rw [heq]
        refine Or.inl ⟨holdsReference_cons.mpr (Or.inl ⟨rfl, hsome⟩), ?_⟩
        rw [meaning_marked_reference hmarks hreference]
        simp only [List.length_append, List.length_cons]
        omega
      · have hnone : c = '&' → reference? named cs = none := by
          intro hc
          simpa [hc] using hhere
        rw [holdsReference_cons, or_iff_right hhere, meaning_marked_cons hmarks hnone]
        refine (ih cs.length (Nat.lt_succ_self _) cs rfl).imp ?_ ?_
        · rintro ⟨hholds, hlt⟩
          exact ⟨hholds, Nat.succ_lt_succ hlt⟩
        · rintro ⟨hholds, heq⟩
          exact ⟨hholds, congrArg (c :: ·) heq⟩

/-- A marked text reads as the text if and only if no reference stands in it. -/
theorem meaning_marked_eq_iff (hmarks : AreMarks marks)
    (hnamed : ∀ name value, named name = some value → value.length ≤ 2) (t : Text) :
    meaning named (marked marks t) = t ↔ ¬HoldsReference named t := by
  rcases meaning_marked hmarks hnamed t with ⟨hholds, hlt⟩ | ⟨hholds, heq⟩
  · refine iff_of_false (fun heq => ?_) (not_not.mpr hholds)
    rw [heq] at hlt
    exact Nat.lt_irrefl _ hlt
  · exact iff_of_true heq hholds

/-! ## The page of a link -/

/-- What a link has behind its text, with its address and its title as they are written. -/
def linkEnd (url title : Text) : Text :=
  (if url.isEmpty then "<>".toList else marked addressMarks url) ++
    (if title.isEmpty then [] else [' ', '\x22'] ++ marked titleMarks title ++ ['\x22']) ++ [')']

/-- The address is one that may stand without angle brackets. -/
def IsBare (url : Text) : Prop := ∀ c ∈ url, Text.isAsciiBlank c = false ∧ Text.isAsciiControl c = false

instance : DecidablePred IsBare := fun _ => List.decidableBAll _ _

/-- The reader stops behind an address, whatever it is. -/
theorem address?_append (hurl : IsBare url) {d : Char} (hd : endsAddress d = true) (rest : Text) :
    address? ((if url.isEmpty then "<>".toList else marked addressMarks url) ++ d :: rest) =
      some (marked addressMarks url, d :: rest) := by
  have hstops : ∀ c ∈ url, endsAddress c = true → c ∈ addressMarks := by
    intro c hc hends
    obtain ⟨hblank, hcontrol⟩ := hurl c hc
    have hspace : c ≠ ' ' := by
      rintro rfl
      cases hblank
    simp only [endsAddress, hcontrol, Bool.or_false, Bool.or_eq_true, beq_iff_eq] at hends
    rcases hends with (hc | rfl) | rfl
    · exact absurd hc hspace
    · decide
    · decide
  have hcut := cut_marked areMarks_address (by decide) hstops hd rest
  cases url with
  | nil => rfl
  | cons c cs =>
    have hbare : (marked addressMarks (c :: cs) ++ d :: rest).head? ≠ some '<' := by
      by_cases hmark : c ∈ addressMarks
      · simp [marked_cons_of_mem hmark]
      · have hne : c ≠ '<' := by
          rintro rfl
          exact hmark (by decide)
        simp [marked_cons_of_notMem hmark, hne]
    rw [List.isEmpty_cons, if_neg Bool.false_ne_true, ← hcut]
    unfold address?
    split
    · rename_i heq
      rw [heq] at hbare
      exact absurd rfl hbare
    · rfl

theorem linkEnd?_linkEnd (hurl : IsBare url) (title : Text) :
    linkEnd? (linkEnd url title) = some (marked addressMarks url, marked titleMarks title) := by
  cases title with
  | nil =>
    have haddress := address?_append hurl (d := ')') (by decide) []
    rw [linkEnd, List.isEmpty_nil, if_pos rfl, List.append_nil, linkEnd?, haddress]
    rfl
  | cons c cs =>
    have hcut : cut (· == '\x22') false (marked titleMarks (c :: cs) ++ ['\x22', ')']) =
        (marked titleMarks (c :: cs), ['\x22', ')']) := by
      refine cut_marked areMarks_title (by decide) ?_ (by decide) [')']
      intro d _ hd
      rw [eq_of_beq hd]
      decide
    have haddress := address?_append hurl (d := ' ') (by decide)
      ('\x22' :: (marked titleMarks (c :: cs) ++ ['\x22', ')']))
    have htail : [' ', '\x22'] ++ marked titleMarks (c :: cs) ++ ['\x22'] ++ [')'] =
        ' ' :: '\x22' :: (marked titleMarks (c :: cs) ++ ['\x22', ')']) := by simp
    rw [linkEnd, List.isEmpty_cons, if_neg Bool.false_ne_true, List.append_assoc, htail, linkEnd?, haddress,
      Option.bind_some]
    simp only [hcut]

/-- The node is a link that is no automatic one, or an image. -/
def HasEnd (s : Site) : Prop := s.kind = .link ∧ autolink? s = none ∨ s.kind = .image

/-- What such a node begins with. -/
def linkMark (s : Site) : Text := if s.kind = .image then "![".toList else ['[']

theorem HasEnd.visit_eq (h : HasEnd s) (o : Options) (width : Nat) :
    s.visit (visitor o width) =
      tightness s :: lit (linkMark s) :: (s.below.flatMap (Site.visit (visitor o width)) ++ [tightness s] ++
        destination s.content.url s.content.title) := by
  have hkind : s.kind = s.content.kind := rfl
  rw [HasEnd, hkind] at h
  rw [Site.visit_eq]
  cases hcontent : s.content with
  | link url title =>
    have hauto : autolink? s = none := by simpa [hcontent, Content.kind] using h
    simp [visitor, enter, exit, enterContent, exitContent, linkMark, hkind, hcontent, Content.kind, hauto]
    rfl
  | image url title =>
    simp [visitor, enter, exit, enterContent, exitContent, linkMark, hkind, hcontent, Content.kind]
    rfl
  | _ => simp [hcontent, Content.kind] at h

/-- An address has a character as it is or with a backslash, if it is no blank. -/
theorem escapeChar_address {c : Char} (hc : Text.isAsciiBlank c = false) (last next : Option Char) (begin : Bool) :
    escapeChar .address last c next begin = if addressMarks.contains c then ['\\', c] else [c] := by
  unfold escapeChar needsEscape
  dsimp only
  rw [hc, Bool.or_false]
  show (if (!addressMarks.contains c) = true then _ else _) = _
  rcases hneeds : addressMarks.contains c with _ | _
  · rfl
  · rw [areMarks_address.punctuation c (List.contains_iff_mem.mp hneeds)]
    simp

section

variable {f : Format} {p : Page} {base : List Char} {u : Text} (hescape : f.escape = escapeChar)
  (h : Page.Closes base u p)

include hescape h

theorem closes_address (hurl : IsBare url) :
    Page.Closes base (u ++ if url.isEmpty then "<>".toList else marked addressMarks url)
      (p.follow f (if url.isEmpty then lit "<>".toList else .put url false .address)) := by
  split
  · exact h.lit (by decide)
  · refine h.put ?_ .address _ ?_
    · intro hmem
      cases (hurl _ hmem).1
    · intro c hc q next
      rw [Page.ink, if_neg (by decide), hescape]
      exact escapeChar_address (hurl c hc).1 _ _ _

theorem closes_title (htitle : '\n' ∉ title) :
    Page.Closes base (u ++ if title.isEmpty then [] else [' ', '\x22'] ++ marked titleMarks title ++ ['\x22'])
      (p.run f (if title.isEmpty then [] else [lit [' ', '\x22'], .put title false .title, lit ['\x22']])) := by
  split
  · rw [List.append_nil]
    exact h
  · have hfront : Page.Closes base (u ++ [' ', '\x22']) (p.follow f (lit [' ', '\x22'])) := h.lit (by decide)
    have htext := hfront.put (f := f) htitle .title
      (fun c => if titleMarks.contains c then ['\\', c] else [c]) fun c _ q next => by
        rw [Page.ink, if_neg (by decide), hescape]
        exact escapeChar_title _ c next _
    have hback := htext.lit (f := f) (t := ['\x22']) (by decide)
    rw [List.append_assoc, List.append_assoc] at hback
    exact hback

end

/-- A link ends the page as it is written. -/
theorem closes_destination {f : Format} (hescape : f.escape = escapeChar) {p : Page} (hmargin : p.margin = [])
    {base : List Char} (hbase : base <:+ p.past) (hurl : IsBare url) (htitle : '\n' ∉ title) :
    Page.Closes base ("](".toList ++ linkEnd url title) (p.run f (destination url title)) := by
  have hopen : Page.Closes base "](".toList (p.follow f (lit "](".toList)) := Page.closes_lit hmargin hbase (by decide)
  have hclose := (closes_title hescape (closes_address hescape hopen hurl) htitle).lit (f := f) (t := [')']) (by decide)
  rw [List.append_assoc, List.append_assoc, ← List.append_assoc (ite _ _ _)] at hclose
  rw [destination, Page.run_append, Page.run_append]
  exact hclose

/-- The page of a link, from the mark that it begins with to its end. -/
theorem render_hasEnd (h : HasEnd s) (hurl : IsBare s.content.url) (htitle : '\n' ∉ s.content.title) (o : Options)
    (width : Nat) :
    ∃ inside, render o width s =
      linkMark s ++ inside ++ ("](".toList ++ linkEnd s.content.url s.content.title) ++ ['\n'] := by
  let w := effectiveWidth o width
  let start : Page := { tightItem := inTightItem (s.node :: s.ancestors) }
  let inner := s.below.flatMap (Site.visit (visitor o w)) ++ [tightness s]
  have hstart : Page.Holds (linkMark s) (start.follow (format o width) (lit (linkMark s))) :=
    Page.Flat.holds ⟨rfl, rfl⟩ rfl (linkMark s)
  have hinner : Framed inner := (framed_sites s.below).append (.of_keepsMargin rfl)
  obtain ⟨hmargin, hbase⟩ := hstart.run (f := format o width) hinner
  have hcloses := closes_destination (f := format o width) rfl hmargin hbase hurl htitle
  have hlast : ("](".toList ++ linkEnd s.content.url s.content.title).getLast? = some ')' := by
    rw [linkEnd, ← List.append_assoc]
    exact List.getLast?_concat
  obtain ⟨inside, hfinish⟩ := hcloses.finish hlast (by decide)
  rw [List.reverse_reverse, ← Page.run_append] at hfinish
  refine ⟨inside, ?_⟩
  rw [← hfinish]
  unfold render Layout.render
  dsimp only
  rw [h.visit_eq]
  rfl

end CommonMark

namespace Document

open CommonMark

/-- In every session, a link or an image that is not written as an automatic link ends its page with an
address and a title. Each of them reads back if and only if no reference stands in it. -/
theorem Session.link_ends_read_back (x : Session) {id : NodeId} {s : Site} (hs : x.document.site? id = some s)
    (hend : HasEnd s) (hurl : IsBare s.content.url) (htitle : '\n' ∉ s.content.title)
    {named : Text → Option Text} (hnamed : ∀ name value, named name = some value → value.length ≤ 2)
    (o : Options) (width : Nat) :
    ∃ page inside back address title, x.document.render? id .commonMark o width = some page ∧
      page = linkMark s ++ inside ++ ("](".toList ++ back) ++ ['\n'] ∧ linkEnd? back = some (address, title) ∧
        (meaning named address = s.content.url ↔ ¬HoldsReference named s.content.url) ∧
          (meaning named title = s.content.title ↔ ¬HoldsReference named s.content.title) := by
  obtain ⟨inside, hpage⟩ := render_hasEnd hend hurl htitle o width
  exact ⟨render o width s, inside, _, _, _, by rw [render?, hs]; rfl, hpage, linkEnd?_linkEnd hurl s.content.title,
    meaning_marked_eq_iff areMarks_address hnamed s.content.url,
    meaning_marked_eq_iff areMarks_title hnamed s.content.title⟩

/-- An image with marks in its address and its title. -/
theorem link_ends_read_back_marks :
    let x : Session := ⟨.new, [.create .paragraph, .appendChild 0 1, .create .image, .appendChild 1 2,
      .set 2 (.url (some "/a\\(b)".toList)), .set 2 (.title (some "c \x22d\x22".toList))]⟩
    let named : Text → Option Text := fun _ => none
    ∃ s, (x.document.site? 2 = some s ∧ HasEnd s ∧ IsBare s.content.url ∧
        '\n' ∉ s.content.title ∧ ∀ name value, named name = some value → value.length ≤ 2) ∧
      ∃ page inside back address title, x.document.render? 2 .commonMark {} 80 = some page ∧
        page = linkMark s ++ inside ++ ("](".toList ++ back) ++ ['\n'] ∧ linkEnd? back = some (address, title) ∧
          (meaning named address = s.content.url ↔ ¬HoldsReference named s.content.url) ∧
            (meaning named title = s.content.title ↔ ¬HoldsReference named s.content.title) := by
  intro x named
  have hcontent : (x.document.site? 2).map Site.content =
      some (.image "/a\\(b)".toList "c \x22d\x22".toList) := by decide +kernel
  obtain ⟨s, hs, heq⟩ := Option.map_eq_some_iff.mp hcontent
  have hend : HasEnd s := Or.inr (congrArg Content.kind heq)
  have hurl : IsBare s.content.url := by
    rw [heq]
    decide
  have htitle : '\n' ∉ s.content.title := by
    rw [heq]
    decide
  have hnamed : ∀ name value, named name = some value → value.length ≤ 2 := fun _ _ h => nomatch h
  exact ⟨s, ⟨hs, hend, hurl, htitle, hnamed⟩, x.link_ends_read_back hs hend hurl htitle hnamed {} 80⟩

/-- An address that is the name of a reference: it is written as it is, and reads as a sign. -/
theorem reference_in_address_is_read :
    let x : Session := ⟨.new, [.create .paragraph, .appendChild 0 1, .create .link, .appendChild 1 2,
      .set 2 (.url (some "&copy;".toList)), .create .text, .appendChild 2 3, .set 3 (.literal (some ['x']))]⟩
    let named : Text → Option Text := fun name => if name = "copy".toList then some ['\u00A9'] else none
    (x.document.site? 2).map Site.content = some (.link "&copy;".toList []) ∧
      ∃ page address, x.document.render? 2 .commonMark {} 80 = some page ∧ page = "[x](&copy;)\n".toList ∧
        linkEnd? "&copy;)".toList = some (address, []) ∧ meaning named address = ['\u00A9'] ∧
          meaning named address ≠ "&copy;".toList := by
  intro x named
  have hpage : x.document.render? 2 .commonMark {} 80 = some "[x](&copy;)\n".toList := by decide +kernel
  have hend : linkEnd? "&copy;)".toList = some ("&copy;".toList, []) := by decide
  exact ⟨by decide +kernel, _, _, hpage, rfl, hend, by decide, by decide⟩

end Document

end MarkupTree
