-- What writing does to a single line. Each stroke is ink, a line feed or a line break that
-- is due. A line goes on until a line feed or a due break ends it, and what is written after
-- that breaks the text in two lines.
import MarkupTree.Proofs.CommonMark.Unwrapping
import MarkupTree.Proofs.Layout.Chunks

namespace MarkupTree

namespace CommonMark

open Layout

variable {f : Format} {p : Page} {t u : Text} {mode : Mode}

inductive Stroke
  /-- Characters that stay on the line. -/
  | ink
  | feed
  /-- A line break before whatever comes next. -/
  | due
  deriving DecidableEq, Repr

namespace Stroke

/-- The stroke of a character that is written as it is. -/
def ofChar (c : Char) : Stroke := if c = '\n' then feed else ink

def ofText (t : Text) : List Stroke := t.map ofChar

/-- Nothing but due breaks comes after a line feed or a due break. -/
def OnOneLine (ks : List Stroke) : Prop := ks.Pairwise fun a b => a = ink ∨ b = due

instance (ks : List Stroke) : Decidable (OnOneLine ks) := by
  unfold OnOneLine
  infer_instance

end Stroke

/-! ## A line under strokes -/

inductive LineState
  | goesOn
  /-- It is ended, and nothing is written after it. -/
  | ended
  | broken
  deriving DecidableEq, Repr

namespace LineState

variable {l : LineState} {ks : List Stroke}

def next : LineState → Stroke → LineState
  | goesOn, .ink => goesOn
  | goesOn, _ => ended
  | ended, .due => ended
  | ended, _ => broken
  | broken, _ => broken

def after (l : LineState) (ks : List Stroke) : LineState := ks.foldl next l

@[simp] theorem after_nil : l.after [] = l := rfl

@[simp] theorem after_cons (k : Stroke) : l.after (k :: ks) = (l.next k).after ks := rfl

@[simp] theorem after_append (js : List Stroke) : l.after (ks ++ js) = (l.after ks).after js :=
  List.foldl_append

/-- More ink on the line makes no difference. -/
@[simp] theorem next_ink_ink : (l.next .ink).next .ink = l.next .ink := by
  cases l <;> rfl

theorem after_ink (hne : ks ≠ []) (h : ∀ k ∈ ks, k = .ink) : l.after ks = l.next .ink := by
  induction ks generalizing l with
  | nil => exact absurd rfl hne
  | cons k ks ih =>
    obtain ⟨rfl, hks⟩ := List.forall_mem_cons.mp h
    by_cases hnil : ks = []
    · subst hnil
      rfl
    · rw [after_cons, ih hnil hks, next_ink_ink]

theorem after_broken : broken.after ks = broken := by
  induction ks with
  | nil => rfl
  | cons k ks ih => exact ih

theorem after_ended : ended.after ks ≠ broken ↔ ∀ k ∈ ks, k = .due := by
  induction ks with
  | nil => simp
  | cons k ks ih =>
    cases k with
    | due => simpa [next] using ih
    | _ => simp [next, after_broken]

/-- A line stays in one piece under the strokes of one line, and no others. -/
theorem after_goesOn : goesOn.after ks ≠ broken ↔ Stroke.OnOneLine ks := by
  unfold Stroke.OnOneLine
  induction ks with
  | nil => simp
  | cons k ks ih =>
    have hdue : (∀ j ∈ ks, j = .due) → ks.Pairwise fun a b => a = .ink ∨ b = .due := by
      intro h
      apply List.pairwise_of_forall_mem_list
      intro a _ b hb
      exact Or.inr (h b hb)
    rw [List.pairwise_cons]
    cases k with
    | ink => simpa [next] using ih
    | _ => simpa [next, after_ended] using hdue

/-! ### What the text has of the line -/

/-- The text is a line in this state. -/
def Of : LineState → Text → Prop
  | goesOn, t => '\n' ∉ t
  | ended, t => ∃ line, '\n' ∉ line ∧ t = line ++ ['\n']
  | broken, t => ∃ front c back, t = front ++ '\n' :: c :: back

theorem Of.ink (h : l.Of t) (hne : u ≠ []) (hline : '\n' ∉ u) : (l.next .ink).Of (t ++ u) := by
  cases l with
  | goesOn =>
    show '\n' ∉ t ++ u
    rw [List.mem_append, not_or]
    exact ⟨h, hline⟩
  | ended =>
    obtain ⟨line, -, rfl⟩ := h
    obtain ⟨c, cs, rfl⟩ := List.exists_cons_of_ne_nil hne
    exact ⟨line, c, cs, by simp⟩
  | broken =>
    obtain ⟨front, c, back, rfl⟩ := h
    exact ⟨front, c, back ++ u, by simp⟩

theorem Of.feed (h : l.Of t) : (l.next .feed).Of (t ++ ['\n']) := by
  cases l with
  | goesOn => exact ⟨t, h, rfl⟩
  | ended =>
    obtain ⟨line, -, rfl⟩ := h
    exact ⟨line, '\n', [], by simp⟩
  | broken =>
    obtain ⟨front, c, back, rfl⟩ := h
    exact ⟨front, c, back ++ ['\n'], by simp⟩

/-- A due break ends the line, if it is not ended. -/
theorem Of.due (h : l.Of t) (hne : t ≠ []) : (l.next .due).Of (Text.ended (Text.lines t)) := by
  cases l with
  | goesOn =>
    have hline : '\n' ∉ t := h
    rw [Text.lines_of_notMem hline hne]
    exact ⟨t, hline, List.flatMap_singleton _ _⟩
  | ended =>
    obtain ⟨line, hline, rfl⟩ := h
    rw [Text.lines_line_append hline]
    exact ⟨line, hline, List.flatMap_singleton _ _⟩
  | broken =>
    obtain ⟨front, c, back, rfl⟩ := h
    have hended := Text.ended_lines_reverse (front ++ '\n' :: c :: back).reverse
    rw [List.reverse_reverse] at hended
    exact ⟨front, c, back ++ _, by rw [hended, List.append_assoc]; rfl⟩

/-- The text, once its last line is ended, is one line. -/
theorem Of.isLine_iff (h : l.Of t) (hne : t ≠ []) :
    (∃ line, '\n' ∉ line ∧ Text.ended (Text.lines t) = line ++ ['\n']) ↔ l ≠ broken := by
  have hdue := h.due hne
  cases l with
  | goesOn => exact iff_of_true hdue (by decide)
  | ended => exact iff_of_true hdue (by decide)
  | broken =>
    refine iff_of_false ?_ fun hnot => hnot rfl
    obtain ⟨front, c, back, heq⟩ := hdue
    rintro ⟨line, hline, hended⟩
    have hlast := congrArg List.dropLast (hended.symm.trans heq)
    rw [List.dropLast_concat, List.dropLast_append_of_ne_nil (by simp), List.dropLast_cons_cons] at hlast
    exact hline (by simp [hlast])

end LineState

/-! ## A page under strokes -/

/-- The output of the page, once what is owed is written. -/
def settledText (p : Page) : Text := if p.owed = 0 then p.text else Text.ended (Text.lines p.text)

theorem ended_settledText (p : Page) :
    Text.ended (Text.lines (settledText p)) = Text.ended (Text.lines p.text) := by
  unfold settledText
  split
  · rfl
  · rw [Text.lines_ended_lines]

/-- The page is to stay on one line, which is in this state. -/
structure OnLine (l : LineState) (p : Page) : Prop where
  flat : p.Flat
  oneLine : p.oneLine = true
  owed : p.owed ≤ 1
  nonempty : p.text ≠ []
  line : l.Of (settledText p)

namespace OnLine

variable {l : LineState}

theorem settled_ne_nil (h : OnLine l p) : settledText p ≠ [] := by
  unfold settledText
  split
  · exact h.nonempty
  · exact Text.ended_lines_ne_nil h.nonempty

theorem text_settle (h : OnLine l p) : p.settle.text = settledText p := by
  unfold settledText
  split
  · rename_i howed
    rw [Page.settle_of_due (Page.due_of_owed howed)]
  · rename_i howed
    have hle := h.owed
    apply Page.text_settle
    unfold Page.due
    split <;> omega

theorem of_same {q : Page} (h : OnLine l p) (hflat : q.Flat) (hline : q.oneLine = p.oneLine)
    (howed : q.owed = p.owed) (htext : q.text = p.text) : OnLine l q where
  flat := hflat
  oneLine := hline.trans h.oneLine
  owed := howed ▸ h.owed
  nonempty := htext ▸ h.nonempty
  line := by
    have hsettled : settledText q = settledText p := by rw [settledText, settledText, howed, htext]
    exact hsettled ▸ h.line

theorem owe (h : OnLine l p) : OnLine (l.next .due) (p.owe 1) := by
  have howed : (p.owe 1).owed = 1 := by
    show max p.owed 1 = 1
    have hle := h.owed
    omega
  refine ⟨⟨h.flat.margin, h.flat.tail⟩, h.oneLine, by omega, h.nonempty, ?_⟩
  have hsettled : settledText (p.owe 1) = Text.ended (Text.lines (settledText p)) := by
    rw [ended_settledText, settledText, if_neg (by omega)]
    rfl
  rw [hsettled]
  exact h.line.due h.settled_ne_nil

/-! ### Chunks -/

end OnLine

/-- The stroke of a character in its mode: text of a paragraph and addresses have no line feeds. -/
def Stroke.ofMode : Mode → Char → Stroke
  | .literal, c | .title, c => ofChar c
  | .normal, _ | .address, _ => ink

/-- A character is written as a line feed, or as something without line feeds. -/
theorem ink_cases (hescape : f.escape = escapeChar) (mode : Mode) (c : Char) (next : Option Char) (p : Page) :
    Stroke.ofMode mode c = .ink ∧ Page.ink f mode c next p ≠ [] ∧ '\n' ∉ Page.ink f mode c next p ∨
      Stroke.ofMode mode c = .feed ∧ Page.ink f mode c next p = ['\n'] := by
  unfold Page.ink
  rw [hescape]
  have hne : escapeChar mode p.reversed.head? c next p.beginContent ≠ [] := by
    rcases escapeChar_cases mode p.reversed.head? c next p.beginContent with
      ⟨-, h⟩ | ⟨-, ⟨-, -, h⟩ | ⟨-, h⟩ | ⟨-, h⟩⟩ <;> rw [h] <;> nofun
  cases mode with
  | literal =>
    by_cases hc : c = '\n'
    · exact Or.inr ⟨if_pos hc, by rw [hc]; rfl⟩
    · exact Or.inl ⟨if_neg hc, nofun, by simpa using Ne.symm hc⟩
  | normal => exact Or.inl ⟨rfl, hne, newline_notMem_normal _ c next _⟩
  | title =>
    by_cases hc : c = '\n'
    · exact Or.inr ⟨if_pos hc, by rw [hc]; rfl⟩
    · exact Or.inl ⟨if_neg hc, hne, unbroken_escapeChar _ _ c next _ (by decide) hc⟩
  | address => exact Or.inl ⟨rfl, hne, newline_notMem_address _ c next _⟩

/-- The glyphs of a chunk draw the strokes of its characters. -/
theorem of_foldl {l : LineState} (hescape : f.escape = escapeChar) (hflat : p.Flat) (h : l.Of p.text)
    (mode : Mode) (t : Text) :
    ((glyphs false t).foldl (Page.putGlyph f mode) p).Flat ∧
      (l.after (t.map (Stroke.ofMode mode))).Of ((glyphs false t).foldl (Page.putGlyph f mode) p).text ∧
        (p.text ≠ [] → ((glyphs false t).foldl (Page.putGlyph f mode) p).text ≠ []) := by
  induction t generalizing l p with
  | nil => exact ⟨hflat, h, id⟩
  | cons c cs ih =>
    have hglyphs : glyphs false (c :: cs) = .char c cs.head? :: glyphs false cs := by simp [glyphs]
    obtain ⟨hflat', hreversed⟩ := hflat.putGlyph (f := f) mode c cs.head?
    have htext : (p.putGlyph f mode (.char c cs.head?)).text = p.text ++ Page.ink f mode c cs.head? p := by
      rw [Page.text, hreversed]
      simp [Page.text]
    have hnext : (l.next (Stroke.ofMode mode c)).Of (p.putGlyph f mode (.char c cs.head?)).text := by
      rw [htext]
      rcases ink_cases hescape mode c cs.head? p with ⟨hstroke, hne, hline⟩ | ⟨hstroke, hink⟩
      · rw [hstroke]
        exact h.ink hne hline
      · rw [hstroke, hink]
        exact h.feed
    obtain ⟨hflat'', hof, hne⟩ := ih hflat' hnext
    rw [hglyphs, List.foldl_cons]
    refine ⟨hflat'', hof, fun hp => hne ?_⟩
    rw [htext]
    simp [hp]

theorem OnLine.put {l : LineState} (hescape : f.escape = escapeChar) (h : OnLine l p) (t : Text) (wrap : Bool)
    (mode : Mode) : OnLine (l.after (t.map (Stroke.ofMode mode))) (p.put f t wrap mode) := by
  have hput : p.put f t wrap mode = (glyphs false t).foldl (Page.putGlyph f mode) p.settle := by
    unfold Page.put
    rw [h.oneLine, Bool.not_true, Bool.and_false]
  have hline := h.line
  rw [← h.text_settle] at hline
  obtain ⟨hflat, hof, hne⟩ := of_foldl hescape h.flat.settle hline mode t
  rw [← hput] at hflat hof hne
  have howed : (p.put f t wrap mode).owed = 0 := Page.owed_put t wrap mode
  refine ⟨hflat, ?_, by omega, hne (h.text_settle ▸ h.settled_ne_nil), ?_⟩
  · exact (congrArg (·.2.2.1) (Page.setting_put t wrap mode)).trans h.oneLine
  · rw [settledText, if_pos howed]
    exact hof

/-! ## Instructions -/

/-- The instructions draw the strokes on any page that is to stay on one line. -/
def Draws (f : Format) (is : List Instruction) (ks : List Stroke) : Prop :=
  ∀ (l : LineState) (p : Page), OnLine l p → OnLine (l.after ks) (p.run f is)

namespace Draws

variable {is js : List Instruction} {ks ms : List Stroke}

theorem nil : Draws f [] [] := fun _ _ h => h

theorem append (hi : Draws f is ks) (hj : Draws f js ms) : Draws f (is ++ js) (ks ++ ms) := by
  intro l p h
  rw [Page.run_append, LineState.after_append]
  exact hj _ _ (hi l p h)

/-- Strokes may be counted in another way, if a line comes to the same under them. -/
theorem congr (h : Draws f is ks) (heq : ∀ l : LineState, l.after ms = l.after ks) : Draws f is ms := by
  intro l p hp
  rw [heq l]
  exact h l p hp

theorem tightItem (on : Bool) : Draws f [.tightItem on] [] := by
  intro l p h
  exact h.of_same ⟨h.flat.margin, h.flat.tail⟩ rfl rfl rfl

theorem lineBreak : Draws f [.lineBreak] [.due] := fun _ _ h => h.owe

theorem put (hescape : f.escape = escapeChar) (t : Text) (wrap : Bool) (mode : Mode) :
    Draws f [.put t wrap mode] (t.map (Stroke.ofMode mode)) := fun _ _ h => h.put hescape t wrap mode

theorem literal (hescape : f.escape = escapeChar) (t : Text) : Draws f [lit t] (Stroke.ofText t) :=
  put hescape t false .literal

/-- Characters without line feeds count as one stroke. -/
theorem inked (hescape : f.escape = escapeChar) {wrap : Bool} (hne : t ≠ [])
    (ht : mode = .normal ∨ mode = .address ∨ '\n' ∉ t) : Draws f [.put t wrap mode] [.ink] := by
  apply (put hescape t wrap mode).congr
  intro l
  refine (LineState.after_ink (by simpa using hne) ?_).symm
  intro k hk
  obtain ⟨c, hc, rfl⟩ := List.mem_map.mp hk
  rcases ht with rfl | rfl | hline
  · rfl
  · rfl
  · have hne : c ≠ '\n' := fun heq => hline (heq ▸ hc)
    have hchar : Stroke.ofChar c = .ink := if_neg hne
    cases mode <;> first | rfl | exact hchar

theorem softLine (hescape : f.escape = escapeChar) : Draws f [.softLine] [.ink] := by
  intro l p h
  have hput : p.run f [.softLine] = p.put f [' '] false .literal := by
    show p.follow f .softLine = _
    unfold Page.follow
    dsimp only
    rw [if_pos h.oneLine]
  rw [hput]
  exact h.put hescape [' '] false .literal

end Draws

end CommonMark

end MarkupTree
