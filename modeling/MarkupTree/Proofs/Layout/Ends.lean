-- What a page begins and ends with. The output in front of the last breakable space stays,
-- whatever is written after it. Where the page has no margin, a chunk whose spaces cannot
-- break stays whole at the end of the output: a line that wraps breaks in front of it.
import MarkupTree.Proofs.Layout.Chunks
import MarkupTree.Proofs.Layout.Margins

namespace MarkupTree

namespace Layout

namespace Page

variable {f : Format} {p : Page} {base : List Char} {u t : Text}

/-! ## The start of the output -/

theorem past_suffix_follow (i : Instruction) : p.past <:+ (p.follow f i).past := by
  have hput : ∀ t wrap mode, p.past <:+ (p.put f t wrap mode).past := fun t wrap mode =>
    past_suffix_settle.trans (past_suffix_put t wrap mode)
  cases i with
  | put t wrap mode => exact hput t wrap mode
  | softLine =>
    unfold follow
    dsimp only
    split
    · exact hput _ _ _
    · exact List.suffix_rfl
  | _ => exact List.suffix_rfl

/-- Whatever a page follows, the output that is written for good stays. -/
theorem past_suffix_run (is : List Instruction) : p.past <:+ (p.run f is).past := by
  apply List.foldlRecOn (motive := fun q : Page => p.past <:+ q.past)
  · exact List.suffix_rfl
  · intro q hq i _
    exact hq.trans (past_suffix_follow i)

theorem text_prefix_finish (p : Page) : p.text <+: p.finish := by
  have hended := Text.ended_lines_reverse p.reversed
  rw [finish_eq, text, hended]
  exact List.prefix_append _ _

/-- A page without breakable spaces is the start of all that comes of it. -/
theorem text_prefix_render (htail : p.tail = none) (is : List Instruction) :
    p.text <+: (p.run f is).finish := by
  have hreversed : p.reversed <:+ (p.run f is).reversed := by
    rw [reversed_of_none htail]
    exact (past_suffix_run is).trans past_suffix_reversed
  exact (List.reverse_prefix.mpr hreversed).trans (text_prefix_finish _)

/-- Between what a page begins with and what it ends with, the margin comes and goes. -/
theorem Holds.run (h : Holds t p) {is : List Instruction} (his : Framed is) :
    (p.run f is).margin = [] ∧ t.reverse <:+ (p.run f is).past := by
  have hpast : p.past = t.reverse := by
    rw [← reversed_of_none h.flat.tail, ← h.text, Page.text, List.reverse_reverse]
  refine ⟨?_, hpast ▸ past_suffix_run is⟩
  rw [margin_run, h.flat.margin]
  exact his.settled []

/-! ## The end of the output -/

/-- The output begins with `base`, the last character first, and ends with `u`, which holds no
breakable space. The two do not overlap. -/
def Ends (base : List Char) (u : Text) (p : Page) : Prop :=
  match p.tail with
  | none => ∃ inside, p.past = u.reverse ++ (inside ++ base)
  | some t => base <:+ p.past ∧ u.reverse <+: t

theorem ends_of_none (h : p.tail = none) :
    p.Ends base u ↔ ∃ inside, p.past = u.reverse ++ (inside ++ base) := by
  unfold Ends
  rw [h]

theorem ends_of_some {t : List Char} (h : p.tail = some t) :
    p.Ends base u ↔ base <:+ p.past ∧ u.reverse <+: t := by
  unfold Ends
  rw [h]

theorem ends_nil (h : base <:+ p.past) : p.Ends base [] := by
  cases htail : p.tail with
  | none =>
    obtain ⟨inside, heq⟩ := h
    exact (ends_of_none htail).mpr ⟨inside, heq.symm⟩
  | some t => exact (ends_of_some htail).mpr ⟨h, List.nil_prefix⟩

namespace Ends

theorem reversed (h : p.Ends base u) : ∃ inside, p.reversed = u.reverse ++ (inside ++ base) := by
  cases htail : p.tail with
  | none =>
    rw [reversed_of_none htail]
    exact (ends_of_none htail).mp h
  | some t =>
    obtain ⟨⟨before, hbefore⟩, after, hafter⟩ := (ends_of_some htail).mp h
    refine ⟨after ++ ' ' :: before, ?_⟩
    rw [reversed_of_some htail, ← hafter, ← hbefore]
    simp

theorem write (h : p.Ends base u) (t : Text) : (p.write t).Ends base (u ++ t) := by
  unfold Page.write
  cases htail : p.tail with
  | none =>
    obtain ⟨inside, heq⟩ := (ends_of_none htail).mp h
    refine (ends_of_none rfl).mpr ⟨inside, ?_⟩
    simp [heq]
  | some v =>
    obtain ⟨hbase, hend⟩ := (ends_of_some htail).mp h
    refine (ends_of_some rfl).mpr ⟨hbase, ?_⟩
    rw [List.reverse_append]
    exact (List.prefix_append_right_inj _).mpr hend

/-- A line breaks in front of what cannot break. -/
theorem wrap (h : p.Ends base u) : (p.wrap f).Ends base u := by
  unfold Page.wrap
  split
  · exact h
  · cases htail : p.tail with
    | none => exact h
    | some t =>
      obtain ⟨⟨before, hbefore⟩, after, hafter⟩ := (ends_of_some htail).mp h
      refine (ends_of_none rfl).mpr ⟨after ++ p.margin.reverse ++ '\n' :: before, ?_⟩
      rw [← hafter, ← hbefore]
      simp

theorem startLine (h : p.Ends base u) (hmargin : p.margin = []) (c : Char) :
    (p.startLine c).Ends base u := by
  rw [startLine_of_margin hmargin]
  split <;> exact h

/-- A chunk that cannot break goes behind the end. -/
theorem foldl (h : p.Ends base u) (hmargin : p.margin = []) (ht : '\n' ∉ t) (mode : Mode)
    (written : Char → Text)
    (hwritten : ∀ c ∈ t, ∀ (q : Page) (next : Option Char), ink f mode c next q = written c) :
    ((glyphs false t).foldl (putGlyph f mode) p).Ends base (u ++ t.flatMap written) := by
  induction t generalizing p u with
  | nil => simpa [glyphs] using h
  | cons c cs ih =>
    obtain ⟨hc, hcs⟩ : '\n' ≠ c ∧ '\n' ∉ cs := by simpa using ht
    obtain ⟨hone, hmore⟩ := List.forall_mem_cons.mp hwritten
    have hglyph : (p.putGlyph f mode (.char c cs.head?)).Ends base (u ++ written c) := by
      have hwrite := (h.startLine hmargin c).write (written c)
      rw [putGlyph, putChar_of_ne (Ne.symm hc), hone]
      exact wrap (p := { (p.startLine c).write (written c) with
        beginLine := false, beginContent := (p.startLine c).beginContent && c.isDigit }) hwrite
    have hnext := ih hglyph ((margin_eq_of_setting (setting_putGlyph _ _)).trans hmargin) hcs hmore
    rw [List.append_assoc] at hnext
    have hglyphs : glyphs false (c :: cs) = .char c cs.head? :: glyphs false cs := by simp [glyphs]
    rw [hglyphs, List.foldl_cons, List.flatMap_cons]
    exact hnext

end Ends

/-- The page has no margin and owes nothing, and its output ends with `u`. -/
structure Closes (base : List Char) (u : Text) (p : Page) : Prop where
  margin : p.margin = []
  owed : p.owed = 0
  ends : p.Ends base u

namespace Closes

theorem put (h : Closes base u p) (ht : '\n' ∉ t) (mode : Mode) (written : Char → Text)
    (hwritten : ∀ c ∈ t, ∀ (q : Page) (next : Option Char), ink f mode c next q = written c) :
    Closes base (u ++ t.flatMap written) (p.put f t false mode) where
  margin := (margin_put t false mode).trans h.margin
  owed := owed_put t false mode
  ends := by
    unfold Page.put
    rw [settle_of_due (due_of_owed h.owed)]
    exact h.ends.foldl h.margin ht mode written hwritten

theorem lit (h : Closes base u p) (ht : '\n' ∉ t) : Closes base (u ++ t) (p.follow f (lit t)) := by
  have hput := h.put (f := f) ht .literal (fun c => [c]) fun c _ q next => rfl
  rwa [List.flatMap_singleton'] at hput

/-- A file that ends with a character other than a line feed has a line feed behind it. -/
theorem finish (h : Closes base u p) {c : Char} (hlast : u.getLast? = some c) (hc : c ≠ '\n') :
    ∃ inside, p.finish = base.reverse ++ inside ++ u ++ ['\n'] := by
  obtain ⟨inside, heq⟩ := h.ends.reversed
  have htext : p.text = base.reverse ++ inside.reverse ++ u := by
    rw [text, heq]
    simp
  have hend : p.text.getLast? = some c := by
    rw [htext, List.getLast?_append, hlast]
    rfl
  refine ⟨inside.reverse, ?_⟩
  rw [finish_eq, Text.ended_lines_of_getLast? hend hc, htext]

end Closes

/-- A first chunk is the end of the output, and what was there before stays. -/
theorem closes_lit (hmargin : p.margin = []) (hbase : base <:+ p.past) (ht : '\n' ∉ t) :
    Closes base t (p.follow f (lit t)) where
  margin := (margin_put t false .literal).trans hmargin
  owed := owed_put t false .literal
  ends := by
    have hstart : p.settle.Ends base [] := ends_nil (hbase.trans past_suffix_settle)
    have hends := hstart.foldl (f := f) (margin_settle.trans hmargin) ht .literal (fun c => [c])
      fun c _ q next => rfl
    rwa [List.nil_append, List.flatMap_singleton'] at hends

end Page

end Layout

end MarkupTree
