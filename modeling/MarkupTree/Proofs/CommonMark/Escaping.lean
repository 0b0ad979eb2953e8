-- The text of a paragraph is undone by reading. Each character of its texts is
-- escaped by itself, in sight of the next one of the same text only, so there is one
-- way for more to be read than was written: a text that ends in an ampersand, and
-- the rest of a reference by name in the texts after it.
import MarkupTree.Output
import MarkupTree.Proofs.CommonMark.Escapes
import MarkupTree.Proofs.CommonMark.Paragraphs
import MarkupTree.Proofs.CommonMark.Reading
import MarkupTree.Proofs.Document.Views

namespace MarkupTree

namespace CommonMark

open Layout

variable {last next : Option Char} {c : Char} {begin : Bool} {named : Text → Option Text}

/-! ## Texts and their escapes -/

/-- The text is what becomes of the texts, one after the other: each character is escaped
as some place of a line asks for. -/
inductive Escaped : List Text → Text → Prop
  | nil : Escaped [] []
  | next {ts : List Text} {u : Text} (h : Escaped ts u) : Escaped ([] :: ts) u
  | char {c : Char} {cs : Text} {ts : List Text} {u : Text} (last : Option Char) (begin : Bool)
      (h : Escaped (cs :: ts) u) :
      Escaped ((c :: cs) :: ts) (escapeChar .normal last c cs.head? begin ++ u)

/-- A name with a semicolon after it stands in the escaped texts where it stands in the texts. -/
theorem Escaped.prefix_iff {ts : List Text} {u : Text} (h : Escaped ts u) {name : Text}
    (hname : name.all Char.isAlphanum = true) :
    name ++ [';'] <+: u ↔ name ++ [';'] <+: ts.flatten := by
  induction h generalizing name with
  | nil => exact Iff.rfl
  | next _ ih => exact ih hname
  | @char c cs ts u last begin _ ih =>
    show _ ↔ name ++ [';'] <+: c :: (cs :: ts).flatten
    rcases escapeChar_nameChar last c cs.head? begin with hplain | ⟨⟨hc, hsemi⟩, d, ds, hunit, hd, hdsemi⟩
    · rw [hplain]
      cases name with
      | nil => simp
      | cons e name =>
        obtain ⟨-, hname⟩ : e.isAlphanum = true ∧ name.all Char.isAlphanum = true := by
          simpa using hname
        rw [List.cons_append, List.singleton_append, List.cons_prefix_cons, List.cons_prefix_cons,
          ih hname]
    · rw [hunit]
      cases name with
      | nil => simp [Ne.symm hdsemi, Ne.symm hsemi]
      | cons e name =>
        obtain ⟨he, -⟩ : e.isAlphanum = true ∧ name.all Char.isAlphanum = true := by
          simpa using hname
        have hne : e ≠ c ∧ e ≠ d := by
          constructor
          · rintro rfl
            cases hc.symm.trans he
          · rintro rfl
            cases hd.symm.trans he
        rw [List.cons_append, List.cons_append, List.cons_prefix_cons, List.cons_prefix_cons]
        exact iff_of_false (fun h => hne.2 h.1) fun h => hne.1 h.1

/-- The number sign is never written as it is. -/
theorem Escaped.head_ne {ts : List Text} {u : Text} (h : Escaped ts u) : u.head? ≠ some '#' := by
  induction h with
  | nil => simp
  | next _ ih => exact ih
  | @char c cs ts u last begin _ _ =>
    rcases escapeChar_normal last c cs.head? begin with ⟨hmarks, h⟩ | ⟨-, h⟩ | ⟨-, h⟩
    · rw [h]
      intro heq
      have hc : c = '#' := by simpa using heq
      subst hc
      cases (show marksText last '#' cs.head? begin = true by rfl).symm.trans hmarks
    · rw [h]
      simp
    · rw [h, numbered]
      simp

/-! ## References that are split -/

variable (named) in
/-- The text begins with a name of the table and a semicolon after it. -/
def BeginsName (t : Text) : Prop :=
  ∃ name value, nameValue? named name = some value ∧ name ++ [';'] <+: t

variable (named) in
/-- One of the texts ends in an ampersand, and those after it begin with the rest of a
reference by name. -/
def SplitsReference (ts : List Text) : Prop :=
  ∃ as bs, ts = as ++ bs ∧ as.flatten.getLast? = some '&' ∧ BeginsName named bs.flatten

theorem splitsReference_next {ts : List Text} :
    SplitsReference named ([] :: ts) ↔ SplitsReference named ts := by
  constructor
  · rintro ⟨as, bs, hsplit, hlast, hbegins⟩
    rcases List.cons_eq_append_iff.mp hsplit with ⟨rfl, -⟩ | ⟨as, rfl, rfl⟩
    · cases hlast
    · exact ⟨as, bs, rfl, hlast, hbegins⟩
  · rintro ⟨as, bs, rfl, hlast, hbegins⟩
    exact ⟨[] :: as, bs, rfl, hlast, hbegins⟩

theorem splitsReference_char {c : Char} {cs : Text} {ts : List Text} :
    SplitsReference named ((c :: cs) :: ts) ↔
      (c = '&' ∧ cs = [] ∧ BeginsName named ts.flatten) ∨ SplitsReference named (cs :: ts) := by
  constructor
  · rintro ⟨as, bs, hsplit, hlast, hbegins⟩
    rcases List.cons_eq_append_iff.mp hsplit with ⟨rfl, -⟩ | ⟨as, rfl, rfl⟩
    · cases hlast
    · rcases hrest : cs ++ as.flatten with _ | ⟨d, ds⟩
      · left
        obtain ⟨rfl, has⟩ := List.append_eq_nil_iff.mp hrest
        rw [List.flatten_cons, has] at hlast
        refine ⟨by simpa using hlast, rfl, ?_⟩
        rwa [List.flatten_append, has]
      · right
        refine ⟨cs :: as, bs, rfl, ?_, hbegins⟩
        rw [List.flatten_cons, List.cons_append, hrest, List.getLast?_cons_cons] at hlast
        rw [List.flatten_cons, hrest]
        exact hlast
  · rintro (⟨rfl, rfl, hbegins⟩ | ⟨as, bs, hsplit, hlast, hbegins⟩)
    · exact ⟨[['&']], ts, rfl, rfl, hbegins⟩
    · rcases List.cons_eq_append_iff.mp hsplit with ⟨rfl, -⟩ | ⟨as, rfl, rfl⟩
      · cases hlast
      · refine ⟨(c :: cs) :: as, bs, rfl, ?_, hbegins⟩
        rw [List.flatten_cons] at hlast ⊢
        rw [List.cons_append, List.getLast?_cons, hlast]
        rfl

/-! ## Reading one character -/

/-- An ampersand that is written as it is begins a reference in two texts only. -/
theorem reference?_eq_none {cs : Text} {ts : List Text} {u : Text} (h : Escaped (cs :: ts) u)
    (hnext : (cs.head?.any fun n => n.isAlpha || n == '#') = false)
    (hsplit : ¬(cs = [] ∧ BeginsName named ts.flatten)) : reference? named u = none := by
  refine Option.eq_none_iff_forall_ne_some.mpr ?_
  rintro ⟨name, value⟩ hreference
  obtain ⟨hfront, hvalue⟩ := (reference?_eq_some_iff h.head_ne).mp hreference
  obtain ⟨hletter, hname, -⟩ := nameValue?_eq_some_iff.mp hvalue
  have hflatten := (h.prefix_iff hname).mp hfront
  cases cs with
  | nil => exact hsplit ⟨rfl, name, value, hvalue, hflatten⟩
  | cons n cs =>
    cases name with
    | nil => cases hletter
    | cons d name =>
      obtain ⟨rfl, -⟩ := List.cons_prefix_cons.mp hflatten
      simp only [List.head?_cons, Option.any_some, Bool.or_eq_false_iff] at hnext hletter
      cases hletter.symm.trans hnext.1

/-- Where no reference is split, a character reads as itself. -/
theorem read_char {cs : Text} {ts : List Text} {u : Text} (last : Option Char) (begin : Bool)
    (h : Escaped (cs :: ts) u) (hsplit : ¬(c = '&' ∧ cs = [] ∧ BeginsName named ts.flatten)) :
    ∃ sign, read named (escapeChar .normal last c cs.head? begin ++ u) = sign :: read named u ∧
      (c ≠ '\x00' → sign.value = [c]) ∧ sign.value.length = 1 ∧
      ∀ d, sign = .plain d → d ∉ inlineMarks := by
  rcases escapeChar_normal last c cs.head? begin with ⟨hmarks, hunit⟩ | ⟨⟨-, hpunct⟩, hunit⟩ | ⟨⟨-, hcontrol⟩, hunit⟩
  · obtain ⟨hinline, hampersand⟩ := of_marksText_eq_false hmarks
    rw [hunit]
    refine ⟨.plain c, read_plain ?_ ?_, fun _ => rfl, rfl, ?_⟩
    · rintro rfl
      exact hinline (by decide)
    · rintro rfl
      exact reference?_eq_none h (hampersand rfl) fun hrest => hsplit ⟨rfl, hrest⟩
    · rintro d heq
      cases heq
      exact hinline
  · rw [hunit]
    exact ⟨.escaped c, read_escaped hpunct u, fun _ => rfl, rfl, by simp⟩
  · rw [hunit, numbered]
    refine ⟨.reference ('#' :: Text.ofNat c.toNat) [charOfNumber c.toNat], ?_, ?_, rfl, by simp⟩
    · rw [List.append_assoc]
      exact read_number (by omega) u
    · intro hc
      have hzero : c.toNat ≠ 0 := fun hzero => hc (Char.toNat_inj.mp hzero)
      show [charOfNumber c.toNat] = [c]
      rw [charOfNumber, if_pos ⟨hzero, c.valid⟩, Char.ofNat_toNat]

/-- Where a reference is split, it is read, with all the characters of its name. -/
theorem read_split {ts : List Text} {u : Text} (last : Option Char) (begin : Bool)
    (h : Escaped ([] :: ts) u) (hbegins : BeginsName named ts.flatten) :
    ∃ name value, nameValue? named name = some value ∧ name ++ [';'] <+: ts.flatten ∧
      (∀ d ∈ u.take (name.length + 1), d.isAlphanum = true ∨ d = ';') ∧
      read named (escapeChar .normal last '&' none begin ++ u) =
        .reference name value :: readFrom named (name.length + 1) u := by
  obtain ⟨name, value, hvalue, hfront⟩ := hbegins
  have hname := (nameValue?_eq_some_iff.mp hvalue).2.1
  have hwritten : name ++ [';'] <+: u := (h.prefix_iff hname).mpr hfront
  have hplain : escapeChar .normal last '&' none begin = ['&'] := by
    cases begin <;> simp [escapeChar, needsEscape, marksText, inlineMarks]
  refine ⟨name, value, hvalue, hfront, ?_, ?_⟩
  · intro d hd
    have htake : name ++ [';'] = u.take (name.length + 1) := by
      simpa using List.prefix_iff_eq_take.mp hwritten
    rw [← htake] at hd
    rcases List.mem_append.mp hd with hd | hd
    · exact Or.inl (List.all_eq_true.mp hname d hd)
    · exact Or.inr (List.mem_singleton.mp hd)
  · rw [hplain]
    exact readFrom_of_reference? ((reference?_eq_some_iff h.head_ne).mpr ⟨hwritten, hvalue⟩)

/-! ## Reading all of it -/

/-- Where no reference is split, the escaped texts read as the texts. -/
theorem Escaped.meaning_eq {ts : List Text} {u : Text} (h : Escaped ts u)
    (hsplit : ¬SplitsReference named ts) (hnul : ∀ t ∈ ts, '\x00' ∉ t) :
    meaning named u = ts.flatten := by
  induction h with
  | nil => rfl
  | next _ ih => exact ih (mt splitsReference_next.mpr hsplit) (List.forall_mem_cons.mp hnul).2
  | @char c cs ts u last begin h ih =>
    obtain ⟨hnul, hnuls⟩ := List.forall_mem_cons.mp hnul
    obtain ⟨hc, hcs⟩ : '\x00' ≠ c ∧ '\x00' ∉ cs := by simpa using hnul
    rw [splitsReference_char, not_or] at hsplit
    obtain ⟨sign, hread, hvalue, -⟩ := read_char last begin h hsplit.1
    rw [meaning, hread, List.flatMap_cons, hvalue (Ne.symm hc)]
    exact congrArg (c :: ·) (ih hsplit.2 (List.forall_mem_cons.mpr ⟨hcs, hnuls⟩))

section

variable (hnamed : ∀ name value, named name = some value → value.length ≤ 2)

include hnamed

/-- A reference that is read where it is split has more characters than it stands for. -/
theorem length_of_split {name value t : Text} (hvalue : nameValue? named name = some value)
    (hfront : name ++ [';'] <+: t) {rest : Text} (hrest : rest.length ≤ t.length - (name.length + 1)) :
    (value ++ rest).length < t.length + 1 := by
  obtain ⟨hletter, -, hlookup⟩ := nameValue?_eq_some_iff.mp hvalue
  have hshort := hnamed name value hlookup
  have hfits := hfront.length_le
  have hname : name ≠ [] := by
    rintro rfl
    cases hletter
  have hpos := List.length_pos_iff.mpr hname
  rw [List.length_append, List.length_singleton] at hfits
  rw [List.length_append]
  omega

/-- What is read of the escaped texts, from a place inside a name on: no more than is
written, and none of the marks as a character. -/
theorem Escaped.readFrom_bounds {ts : List Text} {u : Text} (h : Escaped ts u) (skip : Nat)
    (hskip : ∀ d ∈ u.take skip, d.isAlphanum = true ∨ d = ';') :
    ((readFrom named skip u).flatMap Sign.value).length ≤ ts.flatten.length - skip ∧
      ∀ d, .plain d ∈ readFrom named skip u → d ∉ inlineMarks := by
  induction h generalizing skip with
  | nil => exact ⟨by simp [readFrom], by simp [readFrom]⟩
  | next _ ih => exact ih skip hskip
  | @char c cs ts u last begin h ih =>
    have hflatten : ((c :: cs) :: ts).flatten.length = (cs :: ts).flatten.length + 1 := rfl
    cases skip with
    | succ skip =>
      rcases escapeChar_nameChar last c cs.head? begin with hunit | ⟨-, d, ds, hunit, hd, hsemi⟩
      · rw [hunit] at hskip ⊢
        obtain ⟨hlength, hplain⟩ := ih skip fun d hd => hskip d (List.mem_cons_of_mem _ hd)
        refine ⟨?_, hplain⟩
        rw [hflatten, Nat.add_sub_add_right]
        exact hlength
      · rw [hunit] at hskip
        rcases hskip d List.mem_cons_self with hname | hname
        · cases hd.symm.trans hname
        · exact absurd hname hsemi
    | zero =>
      rw [hflatten]
      by_cases hsplit : c = '&' ∧ cs = [] ∧ BeginsName named ts.flatten
      · obtain ⟨rfl, rfl, hbegins⟩ := hsplit
        obtain ⟨name, value, hvalue, hfront, hskip, hread⟩ :=
          read_split last begin h hbegins
        obtain ⟨hlength, hplain⟩ := ih (name.length + 1) hskip
        rw [← read, List.head?_nil, hread]
        refine ⟨Nat.le_of_lt (length_of_split hnamed hvalue hfront hlength), ?_⟩
        simpa using hplain
      · obtain ⟨sign, hread, -, hvalue, hsign⟩ := read_char last begin h hsplit
        obtain ⟨hlength, hplain⟩ := ih 0 (by simp)
        rw [← read, hread, List.flatMap_cons, List.length_append, hvalue]
        constructor
        · rw [read]
          omega
        · intro d hd
          rcases List.mem_cons.mp hd with hd | hd
          · exact hsign d hd.symm
          · exact hplain d hd

/-- Where a reference is split, less is read than the texts hold. -/
theorem Escaped.length_meaning_lt {ts : List Text} {u : Text} (h : Escaped ts u)
    (hsplit : SplitsReference named ts) : (meaning named u).length < ts.flatten.length := by
  induction h with
  | nil =>
    obtain ⟨as, bs, hnil, hlast, -⟩ := hsplit
    obtain ⟨rfl, -⟩ := List.append_eq_nil_iff.mp hnil.symm
    cases hlast
  | next _ ih => exact ih (splitsReference_next.mp hsplit)
  | @char c cs ts u last begin h ih =>
    by_cases hhere : c = '&' ∧ cs = [] ∧ BeginsName named ts.flatten
    · obtain ⟨rfl, rfl, hbegins⟩ := hhere
      obtain ⟨name, value, hvalue, hfront, hskip, hread⟩ :=
        read_split last begin h hbegins
      have hlength := (h.readFrom_bounds hnamed (name.length + 1) hskip).1
      rw [List.head?_nil, meaning, hread]
      exact length_of_split hnamed hvalue hfront hlength
    · obtain ⟨sign, hread, -, hvalue, -⟩ := read_char last begin h hhere
      have hlt := ih ((splitsReference_char.mp hsplit).resolve_left hhere)
      rw [meaning, hread, List.flatMap_cons, List.length_append, hvalue, Nat.add_comm]
      exact Nat.succ_lt_succ hlt

end

/-! ## The page of a paragraph -/

theorem Escaped.append {ts ts' : List Text} {u u' : Text} (h : Escaped ts u) (h' : Escaped ts' u') :
    Escaped (ts ++ ts') (u ++ u') := by
  induction h with
  | nil => exact h'
  | next _ ih => exact .next ih
  | char last begin _ ih =>
    rw [List.append_assoc]
    exact .char last begin ih

/-- The escaped texts end no line. -/
theorem Escaped.newline_notMem {ts : List Text} {u : Text} (h : Escaped ts u) : '\n' ∉ u := by
  induction h with
  | nil => exact List.not_mem_nil
  | next _ ih => exact ih
  | @char c cs ts u last begin _ ih =>
    rw [List.mem_append, not_or]
    exact ⟨newline_notMem_normal last c cs.head? begin, ih⟩

/-- A chunk that no margin and no wrap interrupts is written as its escape says. -/
theorem text_put {p : Page} {f : Format} (hwidth : f.width = 0) (hescape : f.escape = escapeChar)
    (hmargin : p.margin = []) (howed : p.owed = 0) (t : Text) :
    ∃ u, Escaped [t] u ∧ (p.put f t false .normal).text = p.text ++ u := by
  unfold Page.put
  rw [Page.settle_of_due (Page.due_of_owed howed)]
  clear howed
  induction t generalizing p with
  | nil => exact ⟨[], .next .nil, (List.append_nil _).symm⟩
  | cons c cs ih =>
    have hline : (p.startLine c).reversed = p.reversed := by
      rw [Page.startLine_of_margin hmargin]
      split <;> rfl
    obtain ⟨v, hv, rfl⟩ := Page.reversed_putChar (f := f) (p := p) .normal c cs.head?
    rw [if_neg (by decide), hescape, hline] at hv
    obtain ⟨u, hu, htext⟩ := ih (p := p.putChar f .normal c cs.head?)
      ((Page.margin_eq_of_setting (Page.setting_putChar _ _ _)).trans hmargin)
    refine ⟨_, .char p.reversed.head? (p.startLine c).beginContent hu, ?_⟩
    show ((glyphs false cs).foldl (Page.putGlyph f .normal)
      ((p.putChar f .normal c cs.head?).wrap f)).text = _
    rw [Page.wrap_of_width hwidth]
    refine htext.trans ?_
    rw [Page.text, hv, List.reverse_append, List.reverse_reverse, Page.text, List.append_assoc]

/-- The texts set so far are written as their escapes say. -/
structure Running (ts : List Text) (p : Page) (row : List Content) : Prop where
  margin : p.margin = []
  owed : p.owed = 0
  written : ∃ done rest, ts = done ++ rest ∧ row = rest.map .text ∧ Escaped done p.text

theorem running_step {ts : List Text} {p : Page} {c : Content} {row : List Content} {o : Options}
    (h : Running ts p (c :: row)) :
    Running ts (p.run (format o 0) (chunk o (effectiveWidth o 0) c)) row := by
  obtain ⟨done, rest, rfl, hrow, hwritten⟩ := h.written
  have hzero : effectiveWidth o 0 = 0 := ite_self 0
  cases rest with
  | nil => cases hrow
  | cons t rest =>
    obtain ⟨rfl, rfl⟩ := List.cons.inj hrow
    have hchunk : p.run (format o 0) (chunk o (effectiveWidth o 0) (.text t)) =
        p.put (format o 0) t false .normal := by
      rw [hzero]
      rfl
    obtain ⟨u, hu, htext⟩ := text_put (f := format o 0) hzero rfl h.margin h.owed t
    rw [hchunk]
    refine ⟨(Page.margin_put _ _ _).trans h.margin, Page.owed_put _ _ _, done ++ [t], rest, ?_, rfl, ?_⟩
    · rw [List.append_assoc]
      rfl
    · rw [htext]
      exact hwritten.append hu

end CommonMark

namespace Document

open CommonMark

/-- In every session, the text of a paragraph of texts reads back, if and only if none of
the texts ends in an ampersand with the rest of a reference by name after it. No mark
is read as a character that is not escaped. -/
theorem Session.text_reads_back (x : Session) {id : NodeId} {s : Site}
    (hs : x.document.site? id = some s) (hparagraph : s.content = .paragraph) {ts : List Text}
    (hts : s.children.roots.map Node.content = ts.map .text) (hnul : ∀ t ∈ ts, '\x00' ∉ t)
    {named : Text → Option Text} (hnamed : ∀ name value, named name = some value → value.length ≤ 2)
    (o : Options) :
    ∃ page, x.document.render? id .commonMark o 0 = some page ∧
      (page = [] ∨ page.getLast? = some '\n') ∧
      (meaning named page.dropLast = ts.flatten ↔ ¬SplitsReference named ts) ∧
      ∀ c ∈ "*_[]#<>\x60~".toList, .plain c ∉ read named page.dropLast := by
  have hrunning : ∀ n ∈ s.children.roots, isRunning n.content = true := by
    intro n hn
    have hmem := List.mem_map_of_mem (f := Node.content) hn
    rw [hts] at hmem
    obtain ⟨t, -, ht⟩ := List.mem_map.mp hmem
    rw [← ht]
    rfl
  have hstart : Running ts {} (s.children.roots.map Node.content) :=
    ⟨rfl, rfl, [], ts, rfl, hts, .nil⟩
  obtain ⟨p, h, hrender⟩ := render_running o 0 hparagraph
    (fun p row on h => ⟨h.margin, h.owed, h.written⟩) (fun p c row _ h => running_step h)
    hrunning (running_leaves_below x.sound hs) hstart
  obtain ⟨done, rest, rfl, hrest, hwritten⟩ := h.written
  have hdone : done ++ rest = done := by
    rw [List.map_eq_nil_iff.mp hrest.symm, List.append_nil]
  rw [hdone] at hnul ⊢
  have hpage := Layout.Page.finish_of_notMem hwritten.newline_notMem
  refine ⟨render o 0 s, by rw [render?, hs]; rfl, hrender ▸ hpage.2, ?_⟩
  rw [hrender, hpage.1]
  refine ⟨⟨fun hread hsplit => ?_, fun hsplit => hwritten.meaning_eq hsplit hnul⟩, ?_⟩
  · have hlt := hwritten.length_meaning_lt hnamed hsplit
    rw [hread] at hlt
    exact Nat.lt_irrefl _ hlt
  · have hmarks : "*_[]#<>\x60~".toList.all inlineMarks.contains = true := rfl
    exact fun c hc hplain => (hwritten.readFrom_bounds hnamed 0 (by simp)).2 c hplain
      (List.contains_iff_mem.mp (List.all_eq_true.mp hmarks c hc))

/-- Punctuation, a control character and a reference by name, all of it in one text. -/
theorem text_reads_back_markup :
    let x : Session := ⟨.new, [.create .paragraph, .appendChild 0 1, .create .text,
      .appendChild 1 2, .set 2 (.literal (some "1. *a&amp;\t".toList)), .create .text,
      .appendChild 1 3, .set 3 (.literal (some "&#35; é!".toList))]⟩
    let ts : List Text := ["1. *a&amp;\t".toList, "&#35; é!".toList]
    let named : Text → Option Text := fun name => if name = "amp".toList then some ['&'] else none
    ∃ s, (x.document.site? 1 = some s ∧ s.content = .paragraph ∧
        s.children.roots.map Node.content = ts.map .text ∧ (∀ t ∈ ts, '\x00' ∉ t) ∧
        ∀ name value, named name = some value → value.length ≤ 2) ∧
      ∃ page, x.document.render? 1 .commonMark {} 0 = some page ∧
        (page = [] ∨ page.getLast? = some '\n') ∧
        (meaning named page.dropLast = ts.flatten ↔ ¬SplitsReference named ts) ∧
        ∀ c ∈ "*_[]#<>\x60~".toList, .plain c ∉ read named page.dropLast := by
  intro x ts named
  have hsite : (x.document.site? 1).map (fun s => (s.content, s.children.roots.map Node.content)) =
      some (.paragraph, ts.map .text) := by decide +kernel
  obtain ⟨s, hs, heq⟩ := Option.map_eq_some_iff.mp hsite
  obtain ⟨hparagraph, hts⟩ := Prod.mk.inj heq
  have hnul : ∀ t ∈ ts, '\x00' ∉ t := by decide +kernel
  have hnamed : ∀ name value, named name = some value → value.length ≤ 2 := by
    intro name value h
    by_cases hname : name = "amp".toList
    · rw [show named name = some ['&'] from if_pos hname] at h
      cases h
      decide
    · rw [show named name = none from if_neg hname] at h
      cases h
  exact ⟨s, ⟨hs, hparagraph, hts, hnul, hnamed⟩, x.text_reads_back hs hparagraph hts hnul hnamed {}⟩

/-- An ampersand and the rest of a reference, in two texts: the reference is written as it
stands and reads as the ampersand alone. -/
theorem split_reference_reads_short :
    let x : Session := ⟨.new, [.create .paragraph, .appendChild 0 1, .create .text,
      .appendChild 1 2, .set 2 (.literal (some "&".toList)), .create .text, .appendChild 1 3,
      .set 3 (.literal (some "amp;".toList))]⟩
    let named : Text → Option Text := fun name => if name = "amp".toList then some ['&'] else none
    ∃ page, x.document.render? 1 .commonMark {} 0 = some page ∧
      meaning named page.dropLast ≠ "&".toList ++ "amp;".toList := by
  intro x named
  have hpage : x.document.render? 1 .commonMark {} 0 = some "&amp;\n".toList := by decide +kernel
  exact ⟨_, hpage, by decide +kernel⟩

end Document

end MarkupTree
