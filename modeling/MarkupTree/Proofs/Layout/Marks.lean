-- Pages whose margin begins with a mark, as that of a block quote does. Every
-- line of such a page begins with the mark, except where an empty line falls
-- due on an output that already ends its line, and where an escape writes a
-- line break of its own.
import MarkupTree.Proofs.Layout.Lines
import MarkupTree.Proofs.Layout.Margins

namespace MarkupTree

namespace Layout

/-! ## Formats -/

namespace Format

/-- The escape of the format writes no line break for the character. -/
def Keeps (f : Format) (mode : Mode) (c : Char) : Prop :=
  mode = .literal ∨ ∀ last next begin, '\n' ∉ f.escape mode last c next begin

/-- The escape of the format writes a line break as it is, and begins nothing
with the mark. -/
structure Tears (f : Format) (m : Char) (mode : Mode) : Prop where
  escaped : mode ≠ .literal
  newline : ∀ last next begin, f.escape mode last '\n' next begin = ['\n']
  unmarked : ∀ last c next begin, ∃ d ds, f.escape mode last c next begin = d :: ds ∧ d ≠ m

end Format

/-! ## Good pages -/

namespace Page

variable {f : Format} {m : Char} {p : Page}

/-- Every line begins with the mark, and a line that is begun holds something. -/
structure Good (m : Char) (p : Page) : Prop where
  marked : Text.Marked m p.reversed
  begun : p.beginLine = false → Text.atStart p.reversed = false

/-- The margin begins with the mark, which is not blank, and is one line. -/
structure MarksLines (m : Char) (margin : Text) : Prop where
  head : ∃ rest, margin = m :: rest
  blank : Text.isBlank m = false
  oneLine : '\n' ∉ margin

theorem MarksLines.ne_newline {margin : Text} (h : MarksLines m margin) : m ≠ '\n' := by
  rintro rfl
  cases h.blank

theorem MarksLines.of_eq {a b : Text} (h : MarksLines m a) (heq : b = a) : MarksLines m b := heq ▸ h

/-- What is left of the margin of an empty line begins with the mark too. -/
theorem MarksLines.trimEnd {margin : Text} (h : MarksLines m margin) :
    MarksLines m (Text.trimEnd margin) where
  head := by
    obtain ⟨rest, rfl⟩ := h.head
    unfold Text.trimEnd Text.dropEndWhile
    rw [List.reverse_cons, List.dropWhile_append]
    split
    · exact ⟨[], by simp [h.blank]⟩
    · exact ⟨_, by rw [List.reverse_append, List.reverse_singleton, List.singleton_append]⟩
  blank := h.blank
  oneLine hmem := by
    have hsuffix := List.dropWhile_suffix Text.isBlank (l := margin.reverse)
    exact h.oneLine (List.mem_reverse.mp (hsuffix.subset (List.mem_reverse.mp hmem)))

theorem atStart_margin {margin : Text} (h : MarksLines m margin) (output : List Char) :
    Text.atStart (margin.reverse ++ output) = false := by
  obtain ⟨rest, hhead⟩ := h.head
  rcases hrev : margin.reverse with _ | ⟨c, cs⟩
  · rw [List.reverse_eq_nil_iff, hhead] at hrev
    cases hrev
  · have hc : c ∈ margin := List.mem_reverse.mp (by rw [hrev]; exact List.mem_cons_self)
    exact beq_eq_false_iff_ne.mpr fun heq => h.oneLine (heq ▸ hc)

theorem marked_margin {margin output : List Char} (h : MarksLines m margin)
    (houtput : Text.Marked m output) :
    Text.Marked m (margin.reverse ++ output) ∧ Text.atStart (margin.reverse ++ output) = false := by
  obtain ⟨rest, rfl⟩ := h.head
  rw [List.reverse_cons, List.append_assoc, List.singleton_append]
  refine Text.marked_append_line ?_ (fun _ => rfl) houtput
  rw [← List.reverse_cons]
  exact mt List.mem_reverse.mp h.oneLine

/-! ## Line breaks that are owed -/

/-- The breaks that follow a line go on well after any character. -/
theorem marked_breaks {margin : Text} (h : MarksLines m margin) (n : Nat) {c d : Char}
    {cs output : List Char} (hc : c ≠ '\n') (hd : d ≠ '\n') (houtput : Text.Marked m (d :: output)) :
    Text.Marked m ((breaks margin n (c :: cs)).reverse ++ d :: output) := by
  have hbreak : ∀ {e : Char} {out : List Char}, e ≠ '\n' → Text.Marked m (e :: out) →
      Text.Marked m ('\n' :: e :: out) := fun he hout =>
    ⟨fun hstart => absurd (eq_of_beq hstart) he, hout⟩
  induction n generalizing d output with
  | zero => exact houtput
  | succ n ih =>
    rw [breaks, if_neg hc]
    by_cases hn : n = 0
    · subst hn
      simpa [breaks] using hbreak hd houtput
    · rw [if_neg hn, List.reverse_append, List.reverse_cons, List.append_assoc, List.append_assoc,
        List.singleton_append]
      obtain ⟨hmarked, hstart⟩ := marked_margin h (hbreak hd houtput)
      rcases hrev : margin.reverse ++ '\n' :: d :: output with _ | ⟨e, out⟩
      · simp at hrev
      · rw [hrev] at hmarked hstart
        exact ih (by simpa using hstart) hmarked

/-- An empty line is due on an output that already ends its line. -/
def Stumbles (p : Page) : Prop := 2 ≤ p.due ∧ p.reversed.head? = some '\n'

instance (p : Page) : Decidable p.Stumbles := inferInstanceAs (Decidable (_ ∧ _))

theorem good_settle (hmargin : MarksLines m p.margin) (h : p.Good m) (hs : ¬p.Stumbles) :
    p.settle.Good m := by
  by_cases hdue : p.due = 0
  · rwa [settle_of_due hdue]
  · refine ⟨?_, fun hbegin => by rw [settle_eq hdue] at hbegin; cases hbegin⟩
    rw [reversed_settle hdue]
    have hmarked := h.marked
    rcases hrev : p.reversed with _ | ⟨c, cs⟩
    · have hnone : ∀ n, breaks p.emptyMargin n [] = [] := fun n => by
        induction n with
        | zero => rfl
        | succ n ih => exact ih
      rw [hnone]
      trivial
    · rw [hrev] at hmarked
      by_cases hc : c = '\n'
      · have hone : p.due = 1 := by
          have hlt : ¬2 ≤ p.due := fun hle => hs ⟨hle, by rw [hrev, hc]; rfl⟩
          omega
        rw [hone, hc, breaks, if_pos rfl]
        exact hc ▸ hmarked
      · exact marked_breaks hmargin.trimEnd _ hc hc hmarked

/-- Where an empty line stumbles, it has no mark. -/
theorem not_marked_of_stumbles (hm : m ≠ '\n') (hs : p.Stumbles) :
    ¬Text.Marked m p.settle.reversed := by
  obtain ⟨hdue, hhead⟩ := hs
  rw [reversed_settle (by omega)]
  obtain ⟨n, hn⟩ : ∃ n, p.due = n + 2 := ⟨p.due - 2, by omega⟩
  rcases hrev : p.reversed with _ | ⟨c, cs⟩
  · rw [hrev] at hhead
    cases hhead
  · rw [hrev, List.head?_cons, Option.some.injEq] at hhead
    subst hhead
    intro hmarked
    have hbefore := Text.marked_of_append hmarked
    have hstart : Text.atStart cs = false := by
      rcases hcs : Text.atStart cs with _ | _
      · rfl
      · exact absurd (hbefore.1 hcs).symm hm
    rcases cs with _ | ⟨d, ds⟩
    · cases hstart
    · have hd : d ≠ '\n' := by simpa using hstart
      rw [hn, breaks, if_pos rfl, breaks, if_neg hd, List.reverse_append, List.reverse_cons,
        List.append_assoc, List.append_assoc, List.singleton_append] at hmarked
      have hempty := Text.marked_of_append (Text.marked_of_append hmarked)
      exact hm (hempty.1 rfl).symm

/-! ## Characters -/

theorem good_write {t : Text} (ht : '\n' ∉ t) (hmarked : Text.Marked m p.reversed)
    (hstart : Text.atStart p.reversed = false) :
    Text.Marked m (p.write t).reversed ∧ Text.atStart (p.write t).reversed = false := by
  rw [reversed_write]
  exact Text.marked_append (mt List.mem_reverse.mp ht) hstart hmarked

theorem good_startLine (hmargin : MarksLines m p.margin) (h : p.Good m) (c : Char) :
    Text.Marked m (p.startLine c).reversed ∧ Text.atStart (p.startLine c).reversed = false := by
  rw [reversed_startLine]
  split
  · split
    · exact marked_margin hmargin.trimEnd h.marked
    · exact marked_margin hmargin h.marked
  · exact ⟨h.marked, h.begun (by simpa using ‹¬p.beginLine = true›)⟩

theorem good_putChar {mode : Mode} {c : Char} (hmargin : MarksLines m p.margin) (h : p.Good m)
    (hc : f.Keeps mode c) (next : Option Char) : (p.putChar f mode c next).Good m := by
  obtain ⟨hmarked, hstart⟩ := good_startLine hmargin h c
  unfold putChar
  dsimp only
  split
  · refine ⟨⟨fun htrue => ?_, hmarked⟩, fun hbegin => by cases hbegin⟩
    cases hstart.symm.trans htrue
  · rename_i hbreak
    have ht : '\n' ∉ (if mode = .literal then [c]
        else f.escape mode (p.startLine c).reversed.head? c next (p.startLine c).beginContent) := by
      split
      · intro hmem
        exact hbreak ⟨‹_›, (List.mem_singleton.mp hmem).symm⟩
      · exact hc.resolve_left ‹_› _ _ _
    obtain ⟨hm, hs⟩ := good_write ht hmarked hstart
    exact ⟨hm, fun _ => hs⟩

theorem good_putSpace (h : p.Good m) (breaks : Bool) : (p.putSpace breaks).Good m := by
  constructor
  · rw [reversed_putSpace]
    split
    · exact h.marked
    · refine ⟨fun htrue => ?_, h.marked⟩
      cases (h.begun (by simpa using ‹¬p.beginLine = true›)).symm.trans htrue
  · rw [beginLine_putSpace, reversed_putSpace]
    intro hbegin
    rw [if_neg (by simp [hbegin])]
    rfl

/-! ## Wrapping -/

/-- Wrapping changes nothing about the marks. -/
theorem marked_wrap_iff (hmargin : MarksLines m p.margin) :
    Text.Marked m (p.wrap f).reversed ↔ Text.Marked m p.reversed := by
  rcases wrap_cases f p with hwrap | ⟨t, ht, -, hwrap, -⟩
  · rw [hwrap]
  · have hbefore := reversed_of_some ht
    obtain ⟨rest, hhead⟩ := hmargin.head
    have hspace : ' ' ≠ m := by
      rintro rfl
      cases hmargin.blank
    rw [hwrap, hbefore, List.append_assoc]
    by_cases hstart : Text.atStart p.past = true
    · constructor
      · intro h
        have hbreak := Text.marked_of_append (Text.marked_of_append h)
        exact absurd (hbreak.1 hstart).symm hmargin.ne_newline
      · intro h
        exact absurd ((Text.marked_of_append h).1 hstart) hspace
    · have hbreak : Text.Marked m ('\n' :: p.past) ↔ Text.Marked m (' ' :: p.past) := by
        simp [Text.Marked, hstart]
      have hline : Text.Marked m (p.margin.reverse ++ '\n' :: p.past) ↔
          Text.Marked m ('\n' :: p.past) :=
        ⟨Text.marked_of_append, fun h => (marked_margin hmargin h).1⟩
      exact Text.marked_congr (atStart_margin hmargin _) rfl (hline.trans hbreak) t

theorem good_wrap (hmargin : MarksLines m p.margin) (h : p.Good m) : (p.wrap f).Good m := by
  refine ⟨(marked_wrap_iff hmargin).mpr h.marked, ?_⟩
  rcases wrap_cases f p with hwrap | ⟨t, ht, hbegin, hwrap, -⟩
  · rw [hwrap]
    exact h.begun
  · intro _
    have hstart := h.begun hbegin
    have hbefore := reversed_of_some ht
    rw [hwrap, List.append_assoc]
    cases t with
    | nil => exact atStart_margin hmargin _
    | cons c t =>
      rw [hbefore] at hstart
      exact hstart

/-! ## Chunks -/

theorem good_putGlyph {mode : Mode} {g : Glyph} (hmargin : MarksLines m p.margin) (h : p.Good m)
    (hg : ∀ c next, g = .char c next → f.Keeps mode c) : (p.putGlyph f mode g).Good m := by
  cases g with
  | space breaks =>
    exact good_wrap (hmargin.of_eq (margin_eq_of_setting (setting_putSpace breaks))) (good_putSpace h breaks)
  | char c next =>
    exact good_wrap (hmargin.of_eq (margin_eq_of_setting (setting_putChar mode c next)))
      (good_putChar hmargin h (hg c next rfl) next)

theorem marked_of_putGlyph {mode : Mode} {g : Glyph} (hmargin : MarksLines m p.margin)
    (h : Text.Marked m (p.putGlyph f mode g).reversed) : Text.Marked m p.reversed := by
  cases g with
  | space breaks =>
    rw [putGlyph, marked_wrap_iff (hmargin.of_eq (margin_eq_of_setting (setting_putSpace breaks))), reversed_putSpace] at h
    split at h
    · exact h
    · exact h.2
  | char c next =>
    rw [putGlyph, marked_wrap_iff (hmargin.of_eq (margin_eq_of_setting (setting_putChar mode c next)))] at h
    obtain ⟨t, ht, -⟩ := reversed_putChar (f := f) (p := p) mode c next
    rw [ht, reversed_startLine] at h
    have hline := Text.marked_of_append h
    split at hline
    · exact Text.marked_of_append hline
    · exact hline

theorem good_foldl {mode : Mode} {gs : List Glyph} (hmargin : MarksLines m p.margin) (h : p.Good m)
    (hgs : ∀ c next, .char c next ∈ gs → f.Keeps mode c) :
    (gs.foldl (putGlyph f mode) p).Good m := by
  induction gs generalizing p with
  | nil => exact h
  | cons g gs ih =>
    refine ih (hmargin.of_eq (margin_eq_of_setting (setting_putGlyph mode g))) (good_putGlyph hmargin h fun c next hg => ?_)
      fun c next hc => hgs c next (List.mem_cons_of_mem _ hc)
    exact hgs c next (hg ▸ List.mem_cons_self)

theorem marked_of_foldl {mode : Mode} {gs : List Glyph} (hmargin : MarksLines m p.margin)
    (h : Text.Marked m (gs.foldl (putGlyph f mode) p).reversed) : Text.Marked m p.reversed := by
  induction gs generalizing p with
  | nil => exact h
  | cons g gs ih => exact marked_of_putGlyph hmargin (ih (hmargin.of_eq (margin_eq_of_setting (setting_putGlyph mode g))) h)

theorem good_put {t : Text} {mode : Mode} (hmargin : MarksLines m p.margin) (h : p.Good m)
    (hs : ¬p.Stumbles) (ht : ∀ c ∈ t, f.Keeps mode c) (wrap : Bool) :
    (p.put f t wrap mode).Good m :=
  good_foldl (hmargin.of_eq margin_settle) (good_settle hmargin h hs) fun c _ hc =>
    ht c (char_mem_of_glyph hc)

theorem marked_of_put {t : Text} {wrap : Bool} {mode : Mode} (hmargin : MarksLines m p.margin)
    (h : Text.Marked m (p.put f t wrap mode).reversed) :
    Text.Marked m p.reversed ∧ ¬p.Stumbles := by
  have hsettled := marked_of_foldl (hmargin.of_eq margin_settle) h
  refine ⟨?_, fun hs => not_marked_of_stumbles hmargin.ne_newline hs hsettled⟩
  by_cases hdue : p.due = 0
  · rwa [settle_of_due hdue] at hsettled
  · rw [reversed_settle hdue] at hsettled
    exact Text.marked_of_append hsettled

/-! ## A line break of the escape -/

/-- The output ends its line although the line is begun. -/
def Torn (p : Page) : Prop := p.beginLine = false ∧ Text.atStart p.reversed = true

theorem torn_wrap (h : p.Torn) (ht : p.tail ≠ some []) : (p.wrap f).Torn := by
  rcases wrap_cases f p with hwrap | ⟨t, htail, -, hwrap, hbegin⟩
  · rwa [hwrap]
  · have hbefore := reversed_of_some htail
    refine ⟨hbegin, ?_⟩
    rw [hwrap, List.append_assoc]
    cases t with
    | nil => exact absurd htail ht
    | cons c t =>
      have hstart := h.2
      rwa [hbefore] at hstart

theorem tail_write_ne {t : Text} (ht : t ≠ []) : (p.write t).tail ≠ some [] := by
  unfold write
  split
  · simp [ht]
  · rename_i h
    simp [h]

/-- A line break that the escape writes tears the page. -/
theorem torn_newline {mode : Mode} (hf : f.Tears m mode) (next : Option Char) :
    (p.putGlyph f mode (.char '\n' next)).Torn := by
  have hput : p.putChar f mode '\n' next =
      { (p.startLine '\n').write ['\n'] with
        beginLine := false
        beginContent := (p.startLine '\n').beginContent && '\n'.isDigit } := by
    unfold putChar
    dsimp only
    rw [if_neg (fun h => hf.escaped h.1), if_neg hf.escaped, hf.newline]
  rw [putGlyph]
  apply torn_wrap
  · rw [hput]
    refine ⟨rfl, ?_⟩
    show Text.atStart ((p.startLine '\n').write ['\n']).reversed = true
    rw [reversed_write]
    rfl
  · rw [hput]
    exact tail_write_ne (by simp)

/-- What follows on a torn page stands at the start of a line without the mark. -/
theorem not_marked_of_torn {mode : Mode} {c d : Char} {ds : Text} {next : Option Char}
    (h : p.Torn) (hmargin : MarksLines m p.margin) (hd : d ≠ m)
    (hwritten : (if mode = .literal then [c]
      else f.escape mode p.reversed.head? c next p.beginContent) = d :: ds) :
    ¬Text.Marked m (p.putGlyph f mode (.char c next)).reversed := by
  have hline : p.startLine c = p := by
    unfold startLine
    rw [if_neg (by simp [h.1])]
  obtain ⟨t, ht, hwrite⟩ := reversed_putChar (f := f) (p := p) mode c next
  rw [hline, hwritten] at hwrite
  rw [putGlyph, marked_wrap_iff (hmargin.of_eq (margin_eq_of_setting (setting_putChar mode c next))), ht,
    hline, hwrite, List.reverse_cons, List.append_assoc]
  intro hmarked
  exact hd ((Text.marked_of_append hmarked).1 h.2)

/-- A page that has a line without the mark, or is torn and so will have one. -/
def Spoilt (m : Char) (p : Page) : Prop := ¬Text.Marked m p.reversed ∨ p.Torn

theorem spoilt_foldl {mode : Mode} (hmargin : MarksLines m p.margin) (hf : f.Tears m mode) {t : Text}
    (h : p.Spoilt m ∨ '\n' ∈ t) : ((glyphs false t).foldl (putGlyph f mode) p).Spoilt m := by
  induction t generalizing p with
  | nil => exact h.resolve_right List.not_mem_nil
  | cons c cs ih =>
    have hglyphs : glyphs false (c :: cs) = .char c cs.head? :: glyphs false cs := rfl
    rw [hglyphs, List.foldl_cons]
    apply ih (hmargin.of_eq (margin_eq_of_setting (setting_putGlyph mode _)))
    rcases h with (hmarked | htorn) | hmem
    · exact Or.inl (Or.inl (mt (marked_of_putGlyph hmargin) hmarked))
    · obtain ⟨d, ds, hwritten, hd⟩ := hf.unmarked p.reversed.head? c cs.head? p.beginContent
      exact Or.inl (Or.inl (not_marked_of_torn htorn hmargin hd (by rwa [if_neg hf.escaped])))
    · rcases List.mem_cons.mp hmem with rfl | hmem
      · exact Or.inl (Or.inr (torn_newline hf _))
      · exact Or.inr hmem

/-- A chunk with a line break of the escape in it and a character after it leave a
line without the mark. -/
theorem not_marked_of_tears {mode : Mode} {t : Text} {c : Char} (hmargin : MarksLines m p.margin)
    (hf : f.Tears m mode) (ht : '\n' ∈ t) (hc : c ≠ m) :
    ¬Text.Marked m ((p.put f t false mode).put f [c] false .literal).reversed := by
  have hspoilt : (p.put f t false mode).Spoilt m :=
    spoilt_foldl (hmargin.of_eq margin_settle) hf (Or.inr ht)
  have hmargin' : MarksLines m (p.put f t false mode).margin :=
    hmargin.of_eq (margin_put t false mode)
  have hsettle : (p.put f t false mode).settle = p.put f t false mode :=
    settle_of_due (due_of_owed (owed_put t false mode))
  rcases hspoilt with hmarked | htorn
  · exact fun h => hmarked (marked_of_put hmargin' h).1
  · rw [put, hsettle]
    exact not_marked_of_torn htorn hmargin' hc rfl

/-! ## The text of the page -/

theorem forall_lines_finish (hm : m ≠ '\n') :
    (∀ l ∈ Text.lines p.finish, l.head? = some m) ↔ Text.Marked m p.reversed := by
  unfold finish
  split
  · rename_i h
    simp [h, Text.lines, Text.Marked]
  · exact Text.forall_lines_iff_marked hm p.reversed
  · rename_i hne hbreak
    have htext : p.text ++ ['\n'] = ('\n' :: p.reversed).reverse := by
      rw [List.reverse_cons]
      rfl
    rw [htext, Text.forall_lines_iff_marked hm]
    refine ⟨And.right, fun h => ⟨fun hstart => ?_, h⟩⟩
    rcases hrev : p.reversed with _ | ⟨c, cs⟩
    · exact absurd hrev hne
    · rw [hrev] at hstart
      have hc : c = '\n' := eq_of_beq hstart
      exact absurd (hc ▸ hrev) (hbreak cs)

end Page

/-! ## Instructions -/

namespace Instruction

/-- Whether the instruction writes on the page. -/
def writes (p : Page) : Instruction → Bool
  | .put _ _ _ => true
  | .softLine => p.oneLine
  | _ => false

/-- The escape writes no line break for the instruction. -/
def Kept (f : Format) : Instruction → Prop
  | .put t _ mode => ∀ c ∈ t, f.Keeps mode c
  | _ => True

end Instruction

namespace Page

variable {f : Format} {m : Char} {p : Page} {is js : List Instruction}

theorem good_follow {i : Instruction} (hmargin : i.writes p = true → MarksLines m p.margin)
    (h : p.Good m) (hs : i.writes p = true → ¬p.Stumbles) (hk : i.Kept f) :
    (p.follow f i).Good m := by
  cases i with
  | put t wrap mode => exact good_put (hmargin rfl) h (hs rfl) hk wrap
  | softLine =>
    unfold follow
    dsimp only
    split
    · exact good_put (hmargin ‹_›) h (hs ‹_›) (fun _ _ => Or.inl rfl) false
    · exact ⟨h.marked, h.begun⟩
  | _ => exact ⟨h.marked, h.begun⟩

theorem marked_of_follow {i : Instruction} (hmargin : i.writes p = true → MarksLines m p.margin)
    (h : Text.Marked m (p.follow f i).reversed) :
    Text.Marked m p.reversed ∧ (i.writes p = true → ¬p.Stumbles) := by
  cases i with
  | put t wrap mode => exact (marked_of_put (hmargin rfl) h).imp id fun hs _ => hs
  | softLine =>
    unfold follow at h
    dsimp only at h
    split at h
    · exact (marked_of_put (hmargin ‹_›) h).imp id fun hs _ => hs
    · exact ⟨h, fun hwrites => absurd hwrites ‹_›⟩
  | _ => exact ⟨h, fun hwrites => by cases hwrites⟩

/-- Wherever the instructions write, the margin begins with the mark. -/
def MarksAll (m : Char) (f : Format) (p : Page) (is : List Instruction) : Prop :=
  ∀ js i ks, is = js ++ i :: ks → i.writes (p.run f js) = true → MarksLines m (p.run f js).margin

/-- Wherever the instructions write, no empty line is due on an output that already
ends its line. -/
def NeverStumbles (f : Format) (p : Page) (is : List Instruction) : Prop :=
  ∀ js i ks, is = js ++ i :: ks → i.writes (p.run f js) = true → ¬(p.run f js).Stumbles

theorem neverStumbles_nil : NeverStumbles f p [] := by
  intro js i ks hsplit
  simp at hsplit

theorem neverStumbles_cons {i : Instruction} :
    NeverStumbles f p (i :: is) ↔
      (i.writes p = true → ¬p.Stumbles) ∧ NeverStumbles f (p.follow f i) is := by
  constructor
  · intro h
    exact ⟨h [] i is rfl, fun js j ks hsplit => h (i :: js) j ks (by rw [hsplit]; rfl)⟩
  · rintro ⟨hi, h⟩ js j ks hsplit
    rcases List.cons_eq_append_iff.mp hsplit with ⟨rfl, hjs⟩ | ⟨ls, rfl, hjs⟩
    · cases hjs
      exact hi
    · exact h ls j ks hjs

theorem neverStumbles_append :
    NeverStumbles f p (is ++ js) ↔ NeverStumbles f p is ∧ NeverStumbles f (p.run f is) js := by
  induction is generalizing p with
  | nil => exact ⟨fun h => ⟨neverStumbles_nil, h⟩, And.right⟩
  | cons i is ih =>
    rw [List.cons_append, neverStumbles_cons, neverStumbles_cons, ih, and_assoc]
    rfl

theorem MarksAll.of_append (h : MarksAll m f p (is ++ js)) : MarksAll m f (p.run f is) js := by
  intro ks i ls hsplit
  rw [← run_append]
  exact h (is ++ ks) i ls (by rw [hsplit, List.append_assoc])

theorem good_run (hmargin : MarksAll m f p is) (h : p.Good m) (hs : NeverStumbles f p is)
    (hk : ∀ i ∈ is, i.Kept f) : (p.run f is).Good m := by
  induction is generalizing p with
  | nil => exact h
  | cons i is ih =>
    obtain ⟨hi, his⟩ := List.forall_mem_cons.mp hk
    obtain ⟨hnow, hlater⟩ := neverStumbles_cons.mp hs
    have hfirst : (p.follow f i).Good m := good_follow (hmargin [] i is rfl) h hnow hi
    have hrest : MarksAll m f (p.run f [i]) is := hmargin.of_append
    exact ih hrest hfirst hlater his

theorem marked_of_run (hmargin : MarksAll m f p is) (h : Text.Marked m (p.run f is).reversed) :
    Text.Marked m p.reversed := by
  induction is generalizing p with
  | nil => exact h
  | cons i is ih =>
    have hrest : MarksAll m f (p.run f [i]) is := hmargin.of_append
    exact (marked_of_follow (hmargin [] i is rfl) (ih hrest h)).1

/-- A page of which every line has the mark never stumbled. -/
theorem neverStumbles_of_marked (hmargin : MarksAll m f p is)
    (h : Text.Marked m (p.run f is).reversed) : NeverStumbles f p is := by
  rintro js i ks rfl hwrites
  rw [List.append_cons, run_append] at h
  rw [List.append_cons] at hmargin
  have hfollow := marked_of_run hmargin.of_append h
  rw [run_append] at hfollow
  have hi : i.writes (p.run f js) = true → MarksLines m (p.run f js).margin :=
    hmargin js i ks (by simp)
  exact (marked_of_follow hi hfollow).2 hwrites

/-- A page of which every line has the mark holds no chunk that tears it. -/
theorem newline_notMem_of_marked {mode : Mode} {t : Text} {c : Char} {ks : List Instruction}
    (hsplit : is = js ++ .put t false mode :: .put [c] false .literal :: ks)
    (hmargin : MarksAll m f p is) (hf : f.Tears m mode) (hc : c ≠ m)
    (h : Text.Marked m (p.run f is).reversed) : '\n' ∉ t := by
  subst hsplit
  intro ht
  have hi := hmargin js (.put t false mode) (.put [c] false .literal :: ks) rfl rfl
  rw [List.append_cons, List.append_cons, run_append] at h
  rw [List.append_cons, List.append_cons] at hmargin
  have htwo := marked_of_run hmargin.of_append h
  rw [List.append_assoc, run_append] at htwo
  exact not_marked_of_tears hi hf ht hc htwo

end Page

end Layout

end MarkupTree
