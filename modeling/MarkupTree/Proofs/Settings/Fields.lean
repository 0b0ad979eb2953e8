-- What a settings file gives. The flags and the width are the fields that are
-- known, each by a name and a place in its record. A value that has one of them
-- with the wrong kind or range is refused as a whole. From any other, each field
-- is read as it is given, and as usual where it is not.
import MarkupTree.Settings.Load

namespace MarkupTree

namespace Settings

/-! ## Keys -/

/-- A field that is known. -/
inductive Key
  | flag (f : Flag)
  | width
  deriving DecidableEq, Repr

namespace Key

/-- The name of the record that has the field. -/
def group : Key → Text
  | flag _ => "options".toList
  | width => "render".toList

def name : Key → Text
  | flag .sourcePos => "source_pos".toList
  | flag .hardBreaks => "hard_breaks".toList
  | flag .safe => "safe".toList
  | flag .allowUnsafe => "unsafe".toList
  | flag .noBreaks => "no_breaks".toList
  | flag .normalize => "normalize".toList
  | flag .validateUtf8 => "validate_utf8".toList
  | flag .smart => "smart".toList
  | width => "width".toList

/-- The place of the field in its record. -/
def index : Key → Nat
  | flag .sourcePos => 0
  | flag .hardBreaks => 1
  | flag .safe => 2
  | flag .allowUnsafe => 3
  | flag .noBreaks => 4
  | flag .normalize => 5
  | flag .validateUtf8 => 6
  | flag .smart => 7
  | width => 0

/-- The kind and the range of the values of the field. -/
def Fits : Key → Value → Prop
  | flag _, x => ∃ b, x = .bool b
  | width, x => ∃ n : Nat, x = .int n ∧ n < 0x10000000000000000

/-- A flag is read by the name of its field. -/
theorem name_flag (f : Flag) : (flag f).name = f.name := by cases f <;> rfl

end Key

namespace Value

/-- The value stands for a record, if only for an empty one. -/
def isRecord : Value → Bool
  | table _ | array _ | date _ => true
  | _ => false

/-- A record has the value under the name, or at the place if it has no names. -/
inductive Holds (name : Text) (index : Nat) : Value → Value → Prop
  | named {fields : List (Text × Value)} {x : Value} (h : field? name fields = some x) :
      Holds name index (table fields) x
  | listed {values : List Value} {x : Value} (h : values[index]? = some x) :
      Holds name index (array values) x

/-- What a settings file gives for a key. -/
def Gives (v : Value) (k : Key) (x : Value) : Prop :=
  ∃ fields r, v = table fields ∧ field? k.group fields = some r ∧ Holds k.name k.index r x

/-- No settings can be read from the value. -/
inductive IsUnfit (v : Value) : Prop
  | noTable (h : ∀ fields, v ≠ table fields)
  | noRecord {fields : List (Text × Value)} {k : Key} {r : Value} (hv : v = table fields)
      (hr : field? k.group fields = some r) (h : r.isRecord = false)
  | misfit {k : Key} {x : Value} (hx : v.Gives k x) (h : ¬ k.Fits x)

end Value

/-- What the settings have for a key. -/
def value (s : Settings) : Key → Value
  | .flag f => .bool (s.options.get f)
  | .width => .int s.width

/-- The settings have what the value gives, and are as usual in all else. -/
structure Reads (s : Settings) (v : Value) : Prop where
  given : ∀ k x, v.Gives k x → s.value k = x
  absent : ∀ k, (∀ x, ¬ v.Gives k x) → s.value k = value {} k

end Settings

/-! ## Flags -/

namespace Options

theorem get_set_self (o : Options) (b : Bool) (f : Flag) : (o.set b f).get f = b := by
  cases f <;> rfl

theorem get_set_of_ne {f g : Flag} (h : g ≠ f) (o : Options) (b : Bool) :
    (o.set b f).get g = o.get g := by
  cases f <;> cases g <;> first | rfl | exact absurd rfl h

theorem set_get (o : Options) (f : Flag) : o.set (o.get f) f = o := by
  cases f <;> rfl

theorem ext_get {o o' : Options} (h : ∀ f, o.get f = o'.get f) : o = o' := by
  cases o
  cases o'
  simp only [mk.injEq]
  exact ⟨h .sourcePos, h .hardBreaks, h .safe, h .allowUnsafe, h .noBreaks, h .normalize,
    h .validateUtf8, h .smart⟩

end Options

namespace Settings

theorem readFlag_eq_some {o o' : Options} {f : Flag} {x : Option Value}
    (h : readFlag o f x = some o') :
    ∃ b, o' = o.set b f ∧ (x = some (.bool b) ∨ (x = none ∧ b = o.get f)) := by
  rcases x with _ | x
  · cases h
    exact ⟨o.get f, (o.set_get f).symm, Or.inr ⟨rfl, rfl⟩⟩
  · cases x with
    | bool b =>
      cases h
      exact ⟨b, rfl, Or.inl rfl⟩
    | _ => cases h

theorem readFlag_eq_none_iff {o : Options} {f : Flag} {x : Option Value} :
    readFlag o f x = none ↔ ∃ y, x = some y ∧ ¬ Key.Fits (.flag f) y := by
  rcases x with _ | x
  · simp [readFlag]
  · cases x <;> simp [readFlag, Key.Fits]

/-- Each flag that is read has its value, or stays as it was if it has none. -/
theorem get_of_readFlags {r : Record} {index : Nat} {o o' : Options} {fs : List Flag}
    (hnodup : fs.Nodup) (h : readFlags r index o fs = some o') :
    (∀ f ∉ fs, o'.get f = o.get f) ∧
      ∀ e ∈ fs.zipIdx index, r.get? e.1.name e.2 = some (.bool (o'.get e.1)) ∨
        (r.get? e.1.name e.2 = none ∧ o'.get e.1 = o.get e.1) := by
  induction fs generalizing index o with
  | nil =>
    cases h
    exact ⟨fun _ _ => rfl, by simp⟩
  | cons f fs ih =>
    obtain ⟨o₁, hfirst, hrest⟩ := Option.bind_eq_some_iff.mp h
    obtain ⟨b, rfl, hb⟩ := readFlag_eq_some hfirst
    obtain ⟨hf, hnodup⟩ := List.nodup_cons.mp hnodup
    obtain ⟨hothers, hown⟩ := ih hnodup hrest
    have hself : o'.get f = b := (hothers f hf).trans (o.get_set_self b f)
    refine ⟨fun g hg => ?_, fun e he => ?_⟩
    · rw [List.mem_cons, not_or] at hg
      rw [hothers g hg.2, o.get_set_of_ne hg.1]
    · rw [List.zipIdx_cons, List.mem_cons] at he
      rcases he with rfl | he
      · rwa [hself]
      · have hne : e.1 ≠ f := by
          rintro rfl
          exact hf (List.fst_mem_of_mem_zipIdx he)
        rw [← o.get_set_of_ne hne b]
        exact hown e he

theorem readFlags_eq_none_iff {r : Record} {index : Nat} {o : Options} {fs : List Flag} :
    readFlags r index o fs = none ↔
      ∃ e ∈ fs.zipIdx index, ∃ x, r.get? e.1.name e.2 = some x ∧ ¬ Key.Fits (.flag e.1) x := by
  induction fs generalizing index o with
  | nil => simp [readFlags]
  | cons f fs ih =>
    simp only [readFlags, List.zipIdx_cons, List.mem_cons, exists_eq_or_imp]
    rw [← readFlag_eq_none_iff (o := o)]
    rcases readFlag o f (r.get? f.name index) with _ | o₁
    · simp
    · simp [ih]

/-! ## Records -/

namespace Value

variable {name : Text} {index : Nat} {r x y : Value}

theorem Holds.unique (hx : Holds name index r x) (hy : Holds name index r y) : x = y := by
  cases hx with
  | named hx =>
    cases hy with
    | named hy => exact Option.some.inj (hx.symm.trans hy)
  | listed hx =>
    cases hy with
    | listed hy => exact Option.some.inj (hx.symm.trans hy)

theorem record?_eq_none_iff : r.record? = none ↔ r.isRecord = false := by
  cases r <;> simp [record?, isRecord]

theorem get?_eq_some_iff {record : Record} (hr : r.record? = some record) :
    record.get? name index = some x ↔ Holds name index r x := by
  constructor
  · intro h
    cases r with
    | table fields =>
      cases hr
      exact .named h
    | array values =>
      cases hr
      exact .listed h
    | date t =>
      cases hr
      cases h
    | _ => cases hr
  · intro h
    cases h with
    | named h =>
      cases hr
      exact h
    | listed h =>
      cases hr
      exact h

theorem get?_eq_none_iff {record : Record} (hr : r.record? = some record) :
    record.get? name index = none ↔ ∀ x, ¬ Holds name index r x := by
  rw [Option.eq_none_iff_forall_ne_some]
  exact forall_congr' fun x => not_congr (get?_eq_some_iff hr)

end Value

/-- The field cannot be read from the record, if it is there. -/
def Spoils (v : Option Value) (k : Key) : Prop :=
  ∃ r, v = some r ∧ (r.isRecord = false ∨ ∃ x, r.Holds k.name k.index x ∧ ¬ k.Fits x)

/-- What is read for a field: the value that the record has, or the usual one. -/
def ReadsAs (v : Option Value) (k : Key) (x : Value) : Prop :=
  (∃ r, v = some r ∧ r.Holds k.name k.index x) ∨
    ((∀ r y, v = some r → ¬ r.Holds k.name k.index y) ∧ x = value {} k)

theorem not_spoils_none (k : Key) : ¬ Spoils none k := fun ⟨_, h, _⟩ => nomatch h

theorem readsAs_none (k : Key) : ReadsAs none k (value {} k) := Or.inr ⟨fun _ _ => nofun, rfl⟩

section

variable {r : Value} (k : Key)

theorem spoils_of_noRecord (hr : r.record? = none) : Spoils (some r) k :=
  ⟨r, rfl, Or.inl (Value.record?_eq_none_iff.mp hr)⟩

variable {k} {record : Record} (hr : r.record? = some record)

include hr

theorem spoils_record_iff :
    Spoils (some r) k ↔ ∃ x, record.get? k.name k.index = some x ∧ ¬ k.Fits x := by
  constructor
  · rintro ⟨_, ⟨⟩, hkind | ⟨x, hx, hfit⟩⟩
    · cases hr.symm.trans (Value.record?_eq_none_iff.mpr hkind)
    · exact ⟨x, (Value.get?_eq_some_iff hr).mpr hx, hfit⟩
  · rintro ⟨x, hx, hfit⟩
    exact ⟨r, rfl, Or.inr ⟨x, (Value.get?_eq_some_iff hr).mp hx, hfit⟩⟩

theorem readsAs_record {x : Value} (h : record.get? k.name k.index = some x ∨
    (record.get? k.name k.index = none ∧ x = value {} k)) : ReadsAs (some r) k x := by
  rcases h with hx | ⟨hx, husual⟩
  · exact Or.inl ⟨r, rfl, (Value.get?_eq_some_iff hr).mp hx⟩
  · refine Or.inr ⟨?_, husual⟩
    rintro _ y ⟨⟩
    exact (Value.get?_eq_none_iff hr).mp hx y

end

/-! ## The record of the flags -/

theorem mem_zipIdx_all_iff {f : Flag} {i : Nat} :
    (f, i) ∈ Flag.all.zipIdx 0 ↔ i = (Key.flag f).index := by
  have hindex : ∀ e ∈ Flag.all.zipIdx 0, e.2 = (Key.flag e.1).index := by decide
  constructor
  · exact hindex (f, i)
  · rintro rfl
    cases f <;> decide

theorem readOptions_of_record {r : Value} {record : Record} (hr : r.record? = some record) :
    readOptions (some r) = readFlags record 0 {} Flag.all := by
  rw [readOptions, hr]
  rfl

theorem readOptions_eq_none_iff {v : Option Value} :
    readOptions v = none ↔ ∃ f, Spoils v (.flag f) := by
  rcases v with _ | r
  · simp [readOptions, not_spoils_none]
  · rcases hr : r.record? with _ | record
    · rw [readOptions, hr]
      exact ⟨fun _ => ⟨.smart, spoils_of_noRecord _ hr⟩, fun _ => rfl⟩
    · rw [readOptions_of_record hr, readFlags_eq_none_iff]
      constructor
      · rintro ⟨⟨f, i⟩, he, hmisfit⟩
        obtain rfl := mem_zipIdx_all_iff.mp he
        rw [← Key.name_flag] at hmisfit
        exact ⟨f, (spoils_record_iff hr).mpr hmisfit⟩
      · rintro ⟨f, hspoils⟩
        have hmisfit := (spoils_record_iff hr).mp hspoils
        rw [Key.name_flag] at hmisfit
        exact ⟨(f, _), mem_zipIdx_all_iff.mpr rfl, hmisfit⟩

theorem readsAs_of_readOptions {v : Option Value} {o : Options} (h : readOptions v = some o)
    (f : Flag) : ReadsAs v (.flag f) (.bool (o.get f)) := by
  rcases v with _ | r
  · cases h
    exact readsAs_none (.flag f)
  · obtain ⟨record, hr, -⟩ := Option.bind_eq_some_iff.mp h
    rw [readOptions_of_record hr] at h
    have hflag := (get_of_readFlags (by decide) h).2 (f, _) (mem_zipIdx_all_iff.mpr rfl)
    rw [← Key.name_flag] at hflag
    exact readsAs_record hr (hflag.imp_right fun hx => ⟨hx.1, congrArg Value.bool hx.2⟩)

/-! ## The width -/

theorem readWidth_eq_none_iff {x : Option Value} :
    readWidth x = none ↔ ∃ y, x = some y ∧ ¬ Key.width.Fits y := by
  rcases x with _ | x
  · simp [readWidth]
  · cases x with
    | int n =>
      by_cases hn : 0 ≤ n ∧ n < 0x10000000000000000
      · simp only [readWidth, if_pos hn, reduceCtorEq, Option.some.injEq, exists_eq_left', false_iff]
        exact fun hnot => hnot ⟨n.toNat, by rw [Int.toNat_of_nonneg hn.1], by omega⟩
      · simp only [readWidth, if_neg hn, Option.some.injEq, exists_eq_left', true_iff]
        rintro ⟨m, hm, hlt⟩
        cases hm
        omega
    | _ => simp [readWidth, Key.Fits]

theorem eq_of_readWidth {x : Option Value} {w : Nat} (h : readWidth x = some w) :
    x = some (.int w) ∨ (x = none ∧ w = Output.defaultWidth) := by
  rcases x with _ | x
  · cases h
    exact Or.inr ⟨rfl, rfl⟩
  · cases x with
    | int n =>
      by_cases hn : 0 ≤ n ∧ n < 0x10000000000000000
      · rw [readWidth, if_pos hn] at h
        cases h
        exact Or.inl (by rw [Int.toNat_of_nonneg hn.1])
      · rw [readWidth, if_neg hn] at h
        cases h
    | _ => cases h

theorem readRender_eq_none_iff {v : Option Value} : readRender v = none ↔ Spoils v .width := by
  rcases v with _ | r
  · simp [readRender, not_spoils_none]
  · rcases hr : r.record? with _ | record
    · rw [readRender, hr]
      exact ⟨fun _ => spoils_of_noRecord _ hr, fun _ => rfl⟩
    · rw [readRender, hr, Option.bind_some, readWidth_eq_none_iff, spoils_record_iff hr]
      rfl

theorem readsAs_of_readRender {v : Option Value} {w : Nat} (h : readRender v = some w) :
    ReadsAs v .width (.int w) := by
  rcases v with _ | r
  · cases h
    exact readsAs_none .width
  · obtain ⟨record, hr, hw⟩ := Option.bind_eq_some_iff.mp h
    refine readsAs_record hr ((eq_of_readWidth hw).imp_right ?_)
    rintro ⟨hx, rfl⟩
    exact ⟨hx, rfl⟩

/-! ## All fields -/

theorem isUnfit_table_iff {fields : List (Text × Value)} :
    (Value.table fields).IsUnfit ↔ ∃ k, Spoils (field? k.group fields) k := by
  constructor
  · intro h
    cases h with
    | noTable h => exact absurd rfl (h fields)
    | noRecord hv hr hkind =>
      cases hv
      exact ⟨_, _, hr, Or.inl hkind⟩
    | misfit hx hfit =>
      obtain ⟨_, r, ⟨⟩, hr, hholds⟩ := hx
      exact ⟨_, r, hr, Or.inr ⟨_, hholds, hfit⟩⟩
  · rintro ⟨k, r, hr, hkind | ⟨x, hx, hfit⟩⟩
    · exact .noRecord rfl hr hkind
    · exact .misfit ⟨fields, r, rfl, hr, hx⟩ hfit

/-- No settings are read from a value that is unfit, and from no other. -/
theorem ofValue?_eq_none_iff {v : Value} : ofValue? v = none ↔ v.IsUnfit := by
  cases v with
  | table fields =>
    rw [isUnfit_table_iff, ofValue?]
    rcases ho : readOptions (field? "options".toList fields) with _ | o
    · obtain ⟨f, hspoils⟩ := readOptions_eq_none_iff.mp ho
      exact ⟨fun _ => ⟨.flag f, hspoils⟩, fun _ => rfl⟩
    · rcases hw : readRender (field? "render".toList fields) with _ | w
      · exact ⟨fun _ => ⟨.width, readRender_eq_none_iff.mp hw⟩, fun _ => rfl⟩
      · refine ⟨nofun, ?_⟩
        rintro ⟨f | _, hspoils⟩
        · cases ho.symm.trans (readOptions_eq_none_iff.mpr ⟨f, hspoils⟩)
        · cases hw.symm.trans (readRender_eq_none_iff.mpr hspoils)
  | _ => exact ⟨fun _ => .noTable nofun, fun _ => rfl⟩

section

variable {fields : List (Text × Value)} {s : Settings}

/-- The settings of a table are those of its two records. -/
theorem records_of_ofValue? (h : ofValue? (.table fields) = some s) :
    readOptions (field? "options".toList fields) = some s.options ∧
      readRender (field? "render".toList fields) = some s.width := by
  rw [ofValue?] at h
  rcases ho : readOptions (field? "options".toList fields) with _ | o
  · rw [ho] at h
    cases h
  · rcases hw : readRender (field? "render".toList fields) with _ | w
    · rw [ho, hw] at h
      cases h
    · rw [ho, hw] at h
      cases h
      exact ⟨rfl, rfl⟩

theorem readsAs_of_ofValue? (h : ofValue? (.table fields) = some s) (k : Key) :
    ReadsAs (field? k.group fields) k (s.value k) := by
  obtain ⟨ho, hw⟩ := records_of_ofValue? h
  cases k with
  | flag f => exact readsAs_of_readOptions ho f
  | width => exact readsAs_of_readRender hw

end

/-- The settings that are read have what the value gives. -/
theorem reads_of_ofValue? {v : Value} {s : Settings} (h : ofValue? v = some s) : s.Reads v := by
  cases v with
  | table fields =>
    constructor
    · rintro k x ⟨_, r, ⟨⟩, hr, hx⟩
      rcases readsAs_of_ofValue? h k with ⟨r', hr', hx'⟩ | ⟨hnone, -⟩
      · rw [hr] at hr'
        cases hr'
        exact hx'.unique hx
      · exact absurd hx (hnone r x hr)
    · intro k hnone
      rcases readsAs_of_ofValue? h k with ⟨r, hr, hx⟩ | ⟨-, husual⟩
      · exact absurd ⟨fields, r, rfl, hr, hx⟩ (hnone _)
      · exact husual
  | _ => cases h

/-- The value says all of the settings but where they were read. -/
theorem Reads.unique {s s' : Settings} {v : Value} (h : s.Reads v) (h' : s'.Reads v) :
    s.options = s'.options ∧ s.width = s'.width := by
  have hvalue : ∀ k, s.value k = s'.value k := by
    intro k
    by_cases hk : ∃ x, v.Gives k x
    · obtain ⟨x, hx⟩ := hk
      rw [h.given k x hx, h'.given k x hx]
    · rw [h.absent k (not_exists.mp hk), h'.absent k (not_exists.mp hk)]
  constructor
  · exact Options.ext_get fun f => Value.bool.inj (hvalue (.flag f))
  · exact Int.ofNat.inj (Value.int.inj (hvalue .width))

end Settings

end MarkupTree
