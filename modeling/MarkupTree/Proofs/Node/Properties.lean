-- What a change does to the properties of a content. It is refused for one of
-- three reasons, and otherwise the property reads as the value that it was
-- given. The other properties keep their values, but a list that becomes
-- ordered, or a bullet list, has its delimiter, its bullet and its start
-- follow suit.
import MarkupTree.Proofs.Node.Changes

namespace MarkupTree

/-! ## Readings -/

/-- What can be read of a node: its properties, and the bullet of a list,
which no change sets. -/
inductive Getter
  | of (property : Property)
  | listBullet
  deriving DecidableEq, Repr

/-- What a property reads as. -/
inductive Reading
  | text (t : Text)
  | number (n : Nat)
  | listKind (kind : ListKind)
  | delimiter (delimiter : Delimiter)
  | sign (c : Char)
  | flag (b : Bool)
  deriving DecidableEq, Repr

def Content.read? (c : Content) : Getter → Option Reading
  | .of .literal => c.literal?.map .text
  | .of .headingLevel => c.headingLevel?.map .number
  | .of .listType => c.listKind?.map .listKind
  | .of .listStart => c.listStart?.map .number
  | .of .listDelim => c.listDelimiter?.map .delimiter
  | .of .listTight => c.listTight?.map .flag
  | .of .fenceInfo => c.fenceInfo?.map .text
  | .of .url => c.url?.map .text
  | .of .title => c.title?.map .text
  | .of .onEnter => c.onEnter?.map .text
  | .of .onExit => c.onExit?.map .text
  | .listBullet => c.listBullet?.map .sign

/-- Whether nodes of the kind have the property. -/
def Kind.carries (k : Kind) : Property → Bool
  | .literal => k.hasLiteral
  | .headingLevel => k == .heading
  | .listType | .listStart | .listDelim | .listTight => k == .list
  | .fenceInfo => k == .codeBlock
  | .url | .title => k == .link || k == .image
  | .onEnter | .onExit => k == .customBlock || k == .customInline

namespace Change

/-- What the property reads as after the change. A cleared text is empty, but
a cleared info string is not there. -/
def reading? : Change → Option Reading
  | .literal v | .url v | .title v | .onEnter v | .onExit v => some (.text (v.getD []))
  | .fenceInfo v => v.map .text
  | .headingLevel level => some (.number level)
  | .listType kind => some (.listKind kind)
  | .listStart start => some (.number start)
  | .listDelim delimiter => some (.delimiter delimiter)
  | .listTight tight => some (.flag tight)

/-- What else a change of the type of a list sets. -/
def alsoSets : Change → List Getter
  | .listType .bullet => [.of .listDelim, .listBullet]
  | .listType .ordered => [.of .listDelim, .listBullet, .of .listStart]
  | _ => []

end Change

/-- How a content reads after a change, beside how it read before. -/
structure Content.Shows (c c' : Content) (change : Change) : Prop where
  kind : c'.kind = c.kind
  value : c'.read? (.of change.property) = change.reading?
  others : ∀ g, g ≠ .of change.property → g ∉ change.alsoSets → c'.read? g = c.read? g
  /-- A bullet list has no delimiter and shows its bullet. -/
  bullets : ∀ style, c = .list style → change = .listType .bullet →
    c'.listDelimiter? = none ∧ c'.listBullet? = some style.bullet
  /-- An ordered list keeps its delimiter if it has one, and its start unless
  that is zero. -/
  numbers : ∀ style, c = .list style → change = .listType .ordered →
    c'.listBullet? = none ∧ c'.listDelimiter? = some (style.delimiter.getD .period) ∧
      c'.listStart? = some (if style.start = 0 then 1 else style.start)

namespace Content

variable {c c' : Content}

/-- A property that reads as something is one that the kind carries. -/
theorem carries_of_read? {p : Property} (h : (c.read? (.of p)).isSome = true) :
    c.kind.carries p = true := by
  cases p <;> cases c <;> first | rfl | cases h

/-! ## Refusals -/

theorem setLiteral_eq_none_iff {t : Text} :
    c.setLiteral t = none ↔ c.kind.carries .literal = false := by
  cases c <;> simp [setLiteral, kind, Kind.carries, Kind.hasLiteral]

theorem setStyle_eq_none_iff {f : ListStyle → ListStyle} :
    c.setStyle f = none ↔ (c.kind == .list) = false := by
  cases c <;> simp [setStyle, kind]

theorem setFenceInfo_eq_none_iff {info : Option Text} :
    c.setFenceInfo info = none ↔ c.kind.carries .fenceInfo = false := by
  cases c <;> simp [setFenceInfo, kind, Kind.carries]

theorem setUrl_eq_none_iff {t : Text} : c.setUrl t = none ↔ c.kind.carries .url = false := by
  cases c <;> simp [setUrl, kind, Kind.carries]

theorem setTitle_eq_none_iff {t : Text} :
    c.setTitle t = none ↔ c.kind.carries .title = false := by
  cases c <;> simp [setTitle, kind, Kind.carries]

theorem setOnEnter_eq_none_iff {t : Text} :
    c.setOnEnter t = none ↔ c.kind.carries .onEnter = false := by
  cases c <;> simp [setOnEnter, kind, Kind.carries]

theorem setOnExit_eq_none_iff {t : Text} :
    c.setOnExit t = none ↔ c.kind.carries .onExit = false := by
  cases c <;> simp [setOnExit, kind, Kind.carries]

/-- Why a kind that carries the property refuses the value, if it does. -/
def rejects? (c : Content) : Change → Option EditError
  | .headingLevel level => if 1 ≤ level ∧ level ≤ 6 then none else some (.levelOutOfRange level)
  | .listDelim _ => if c.listKind? = some .bullet then some .delimiterOfBullets else none
  | _ => none

/-- Why a change is refused, if it is. The kind is looked at first. -/
def refusal? (c : Content) (change : Change) : Option EditError :=
  if c.kind.carries change.property then c.rejects? change
  else some (.notApplicable c.kind change.property)

/-- An optional content as an outcome is an error if it is not there. -/
theorem orRefused_eq_error_iff {r : Option Content} {e e' : EditError} :
    (match r with
      | some c' => Except.ok c'
      | none => Except.error e) = Except.error e' ↔ r = none ∧ e = e' := by
  cases r <;> simp

/-- A change with no condition but that the kind carries the property. -/
theorem refused_iff {r : Option Content} {change : Change} {e : EditError}
    (hr : r = none ↔ c.kind.carries change.property = false) (hv : c.rejects? change = none) :
    (match r with
      | some c' => Except.ok c'
      | none => Except.error (.notApplicable c.kind change.property)) = Except.error e ↔
      c.refusal? change = some e := by
  rw [orRefused_eq_error_iff, hr, refusal?, hv]
  cases c.kind.carries change.property <;> simp

/-- A change is refused for the reason given, and only for that. -/
theorem apply_eq_error_iff {change : Change} {e : EditError} :
    c.apply change = .error e ↔ c.refusal? change = some e := by
  unfold apply
  cases change with
  | literal v => exact refused_iff setLiteral_eq_none_iff rfl
  | headingLevel level =>
    cases c with
    | heading old =>
      by_cases hl : 1 ≤ level ∧ level ≤ 6 <;>
        simp [refusal?, rejects?, Kind.carries, kind, Change.property, hl]
    | _ => simp [refusal?, Kind.carries, kind, Change.property]
  | listType kind => exact refused_iff setStyle_eq_none_iff rfl
  | listStart start => exact refused_iff setStyle_eq_none_iff rfl
  | listDelim delimiter =>
    cases c with
    | list style =>
      by_cases hb : style.kind = .bullet <;>
        simp [refusal?, rejects?, Kind.carries, kind, Change.property, listKind?, style?, hb]
    | _ => simp [refusal?, Kind.carries, kind, Change.property]
  | listTight tight => exact refused_iff setStyle_eq_none_iff rfl
  | fenceInfo v => exact refused_iff setFenceInfo_eq_none_iff rfl
  | url v => exact refused_iff setUrl_eq_none_iff rfl
  | title v => exact refused_iff setTitle_eq_none_iff rfl
  | onEnter v => exact refused_iff setOnEnter_eq_none_iff rfl
  | onExit v => exact refused_iff setOnExit_eq_none_iff rfl

/-! ## The three reasons -/

theorem rejects?_eq_some_iff {change : Change} {e : EditError} :
    c.rejects? change = some e ↔
      (∃ level, change = .headingLevel level ∧ ¬ (1 ≤ level ∧ level ≤ 6) ∧
        e = .levelOutOfRange level) ∨
      ∃ delimiter, change = .listDelim delimiter ∧ c.listKind? = some .bullet ∧
        e = .delimiterOfBullets := by
  cases change with
  | headingLevel level =>
    by_cases hl : 1 ≤ level ∧ level ≤ 6
    · simp only [rejects?, hl, and_self, if_true, reduceCtorEq, false_iff]
      rintro (⟨l, h, hnot, -⟩ | ⟨_, h, -⟩) <;> cases h
      exact hnot hl
    · simp only [rejects?, hl, if_false, Option.some.injEq]
      constructor
      · rintro rfl
        exact Or.inl ⟨level, rfl, hl, rfl⟩
      · rintro (⟨l, h, -, rfl⟩ | ⟨_, h, -⟩) <;> cases h
        rfl
  | listDelim delimiter =>
    by_cases hb : c.listKind? = some .bullet <;> simp [rejects?, hb, eq_comm]
  | literal | listType | listStart | listTight | fenceInfo | url | title | onEnter | onExit =>
    simp [rejects?]

theorem refused_for_kind_iff {change : Change} {k : Kind} {p : Property} :
    c.refusal? change = some (.notApplicable k p) ↔
      k = c.kind ∧ p = change.property ∧ c.kind.carries change.property = false := by
  unfold refusal?
  split
  · simp [rejects?_eq_some_iff, *]
  · simp [eq_comm, *]

/-- Only headings carry a level, so a level out of range is refused as such
for headings alone. -/
theorem refused_for_level_iff {change : Change} {level : Nat} :
    c.refusal? change = some (.levelOutOfRange level) ↔
      c.kind = .heading ∧ change = .headingLevel level ∧ ¬ (1 ≤ level ∧ level ≤ 6) := by
  unfold refusal?
  split
  · rename_i hk
    rw [rejects?_eq_some_iff]
    constructor
    · rintro (⟨l, rfl, hl, he⟩ | ⟨_, _, _, he⟩) <;> cases he
      exact ⟨eq_of_beq hk, rfl, hl⟩
    · rintro ⟨-, rfl, hl⟩
      exact Or.inl ⟨level, rfl, hl, rfl⟩
  · rename_i hk
    simp only [Option.some.injEq, reduceCtorEq, false_iff]
    rintro ⟨hkind, rfl, -⟩
    exact hk (by rw [hkind]; rfl)

/-- Only lists have a type, so a delimiter is refused as such for bullet lists
alone. -/
theorem refused_for_bullets_iff {change : Change} :
    c.refusal? change = some .delimiterOfBullets ↔
      c.listKind? = some .bullet ∧ ∃ delimiter, change = .listDelim delimiter := by
  unfold refusal?
  split
  · rename_i hk
    rw [rejects?_eq_some_iff]
    constructor
    · rintro (⟨l, rfl, hl, he⟩ | ⟨delimiter, rfl, hb, -⟩)
      · cases he
      · exact ⟨hb, delimiter, rfl⟩
    · rintro ⟨hb, delimiter, rfl⟩
      exact Or.inr ⟨delimiter, rfl, hb, rfl⟩
  · rename_i hk
    simp only [Option.some.injEq, reduceCtorEq, false_iff]
    rintro ⟨hb, delimiter, rfl⟩
    exact hk (carries_of_read? (p := .listType) (by rw [read?, hb]; rfl))

/-! ## Readings after a change -/

/-- The second content reads as the first does, but for one property. -/
structure ReadsBut (c c' : Content) (p : Property) (r : Option Reading) : Prop where
  value : c'.read? (.of p) = r
  others : ∀ q, q ≠ p → c'.read? (.of q) = c.read? (.of q)
  bullet : c'.read? .listBullet = c.read? .listBullet

/-- The bullet reads the same as long as type and bullet of the list do. -/
theorem read?_listBullet {s s' : ListStyle} (hk : s'.kind = s.kind) (hb : s'.bullet = s.bullet) :
    (list s').read? .listBullet = (list s).read? .listBullet := by
  cases h : s.kind <;> simp [read?, listBullet?, style?, Option.filter, hk, hb, h]

theorem reads_setLiteral {t : Text} (h : c.setLiteral t = some c') :
    c.ReadsBut c' .literal (some (.text t)) := by
  cases c <;> cases h <;>
    exact ⟨rfl, fun q hq => by cases q <;> first | rfl | exact absurd rfl hq, rfl⟩

theorem reads_setStart {start : Nat} (h : c.setStyle (fun s => { s with start }) = some c') :
    c.ReadsBut c' .listStart (some (.number start)) := by
  cases c <;> cases h
  exact ⟨rfl, fun q hq => by cases q <;> first | rfl | exact absurd rfl hq,
    read?_listBullet rfl rfl⟩

theorem reads_setTight {tight : Bool} (h : c.setStyle (fun s => { s with tight }) = some c') :
    c.ReadsBut c' .listTight (some (.flag tight)) := by
  cases c <;> cases h
  exact ⟨rfl, fun q hq => by cases q <;> first | rfl | exact absurd rfl hq,
    read?_listBullet rfl rfl⟩

theorem reads_setFenceInfo {info : Option Text} (h : c.setFenceInfo info = some c') :
    c.ReadsBut c' .fenceInfo (info.map .text) := by
  cases c <;> cases h
  exact ⟨rfl, fun q hq => by cases q <;> first | rfl | exact absurd rfl hq, rfl⟩

theorem reads_setUrl {t : Text} (h : c.setUrl t = some c') :
    c.ReadsBut c' .url (some (.text t)) := by
  cases c <;> cases h <;>
    exact ⟨rfl, fun q hq => by cases q <;> first | rfl | exact absurd rfl hq, rfl⟩

theorem reads_setTitle {t : Text} (h : c.setTitle t = some c') :
    c.ReadsBut c' .title (some (.text t)) := by
  cases c <;> cases h <;>
    exact ⟨rfl, fun q hq => by cases q <;> first | rfl | exact absurd rfl hq, rfl⟩

theorem reads_setOnEnter {t : Text} (h : c.setOnEnter t = some c') :
    c.ReadsBut c' .onEnter (some (.text t)) := by
  cases c <;> cases h <;>
    exact ⟨rfl, fun q hq => by cases q <;> first | rfl | exact absurd rfl hq, rfl⟩

theorem reads_setOnExit {t : Text} (h : c.setOnExit t = some c') :
    c.ReadsBut c' .onExit (some (.text t)) := by
  cases c <;> cases h <;>
    exact ⟨rfl, fun q hq => by cases q <;> first | rfl | exact absurd rfl hq, rfl⟩

/-- A change of any property but the type of a list leaves all others alone. -/
theorem reads_apply {change : Change} (hne : ∀ kind, change ≠ .listType kind)
    (h : c.apply change = .ok c') : c.ReadsBut c' change.property change.reading? := by
  unfold apply at h
  cases change with
  | literal v => exact reads_setLiteral (eq_some_of_orRefused h)
  | headingLevel level =>
    cases c <;> simp only [reduceCtorEq] at h
    split at h <;> cases h
    exact ⟨rfl, fun q hq => by cases q <;> first | rfl | exact absurd rfl hq, rfl⟩
  | listType kind => exact absurd rfl (hne kind)
  | listStart start => exact reads_setStart (eq_some_of_orRefused h)
  | listDelim delimiter =>
    cases c <;> simp only [reduceCtorEq] at h
    split at h <;> cases h
    exact ⟨rfl, fun q hq => by cases q <;> first | rfl | exact absurd rfl hq,
      read?_listBullet rfl rfl⟩
  | listTight tight => exact reads_setTight (eq_some_of_orRefused h)
  | fenceInfo v => exact reads_setFenceInfo (eq_some_of_orRefused h)
  | url v => exact reads_setUrl (eq_some_of_orRefused h)
  | title v => exact reads_setTitle (eq_some_of_orRefused h)
  | onEnter v => exact reads_setOnEnter (eq_some_of_orRefused h)
  | onExit v => exact reads_setOnExit (eq_some_of_orRefused h)

theorem shows_bullets (style : ListStyle) :
    (list style).Shows (.list (style.ofKind .bullet)) (.listType .bullet) where
  kind := rfl
  value := rfl
  others g hne hnot := by
    simp only [Change.alsoSets, List.mem_cons, List.not_mem_nil, or_false, not_or] at hnot
    cases g with
    | of p => cases p <;> first | rfl | exact absurd rfl hne | exact absurd rfl hnot.1
    | listBullet => exact absurd rfl hnot.2
  bullets old h _ := by
    cases h
    exact ⟨rfl, rfl⟩
  numbers _ _ h := by cases h

theorem shows_numbers (style : ListStyle) :
    (list style).Shows (.list (style.ofKind .ordered)) (.listType .ordered) where
  kind := rfl
  value := rfl
  others g hne hnot := by
    simp only [Change.alsoSets, List.mem_cons, List.not_mem_nil, or_false, not_or] at hnot
    cases g with
    | of p =>
      cases p <;>
        first | rfl | exact absurd rfl hne | exact absurd rfl hnot.1 | exact absurd rfl hnot.2.2
    | listBullet => exact absurd rfl hnot.2.1
  bullets _ _ h := by cases h
  numbers old h _ := by
    cases h
    exact ⟨rfl, rfl, rfl⟩

/-- After a change that is accepted, a content reads as it should. -/
theorem shows_apply {change : Change} (h : c.apply change = .ok c') : c.Shows c' change := by
  by_cases hlist : ∃ kind, change = .listType kind
  · obtain ⟨kind, rfl⟩ := hlist
    have hset := eq_some_of_orRefused h
    cases c <;> cases hset
    cases kind with
    | bullet => exact shows_bullets _
    | ordered => exact shows_numbers _
  · rw [not_exists] at hlist
    have hreads := reads_apply hlist h
    refine ⟨kind_apply h, hreads.value, fun g hne _ => ?_, fun _ _ hk => absurd hk (hlist _),
      fun _ _ hk => absurd hk (hlist _)⟩
    cases g with
    | of q => exact hreads.others q fun hq => hne (congrArg _ hq)
    | listBullet => exact hreads.bullet

end Content

end MarkupTree
