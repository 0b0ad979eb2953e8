-- Reading LaTeX by tokens: a backslash and the character after it are one token, and
-- every other character is one. An escaped character leaves the braces as they were,
-- and no character that LaTeX reserves stands as a token of its own.
import MarkupTree.Latex.Escape
import MarkupTree.Proofs.Layout.Readers

namespace MarkupTree

namespace Latex

open Layout

/-! ## Tokens -/

inductive Token
  | plain (c : Char)
  /-- A backslash and the character after it. -/
  | control (c : Char)
  deriving DecidableEq, Repr

def tokens : Text → List Token
  | '\\' :: c :: cs => .control c :: tokens cs
  | c :: cs => .plain c :: tokens cs
  | [] => []

/-- How many groups are open after a character on its own, when `d` were. `none` if
one is closed that was not opened. -/
def shift? (d : Nat) (c : Char) : Option Nat :=
  if c = '\x7b' then some (d + 1)
  else if c = '\x7d' then (if d = 0 then none else some (d - 1))
  else some d

/-- How many groups are open after the tokens, if none is closed too early. -/
def depth? (d : Nat) : List Token → Option Nat
  | [] => some d
  | .plain c :: ts => (shift? d c).bind (depth? · ts)
  | .control _ :: ts => depth? d ts

/-! ## The reader -/

/-- How many groups are open, and whether a backslash waits for its character. -/
structure Reading where
  depth : Nat
  waits : Bool := false
  deriving DecidableEq, Repr

/-- One character more. A character of `marks` may not stand on its own, and no
group may be closed that is not open. -/
def step (marks : List Char) (r : Reading) (c : Char) : Option Reading :=
  if r.waits then some { r with waits := false }
  else if c = '\\' then some { r with waits := true }
  else if c ∈ marks then none
  else (shift? r.depth c).map fun depth => { r with depth }

variable {marks : List Char} {d e : Nat}

/-- What the reader takes is balanced, and no mark is a token of its own. -/
theorem tokens_of_read {t : Text} (h : t.foldlM (step marks) ⟨d, false⟩ = some ⟨e, false⟩) :
    depth? d (tokens t) = some e ∧ ∀ c ∈ marks, .plain c ∉ tokens t := by
  induction t using tokens.induct generalizing d with
  | case1 c cs ih =>
    obtain ⟨hdepth, hmarks⟩ := ih h
    refine ⟨hdepth, fun m hm hmem => ?_⟩
    rcases List.mem_cons.mp hmem with heq | hmem
    · cases heq
    · exact hmarks m hm hmem
  | case2 c cs hnot ih =>
    rw [tokens.eq_2 _ _ hnot]
    by_cases hback : c = '\\'
    · -- a backslash at the end waits for a character that does not come
      subst hback
      cases cs with
      | nil => cases h
      | cons c cs => exact absurd rfl (hnot c cs rfl)
    · have hmark : c ∉ marks := by
        intro hmark
        rw [List.foldlM_cons, step, if_neg (by simp), if_neg hback, if_pos hmark] at h
        cases h
      rw [List.foldlM_cons, step, if_neg (by simp), if_neg hback, if_neg hmark] at h
      obtain ⟨r, hr, h⟩ := Option.bind_eq_some_iff.mp h
      obtain ⟨k, hk, rfl⟩ := Option.map_eq_some_iff.mp hr
      obtain ⟨hdepth, hmarks⟩ := ih h
      refine ⟨by rw [depth?, hk]; exact hdepth, fun m hm hmem => ?_⟩
      rcases List.mem_cons.mp hmem with heq | hmem
      · cases heq
        exact hmark hm
      · exact hmarks m hm hmem
  | case3 =>
    cases h
    exact ⟨rfl, fun c _ => List.not_mem_nil⟩

/-- Spaces and line breaks are no marks, so the reader does not tell them apart. -/
theorem calm (hspace : ' ' ∉ marks) (hnewline : '\n' ∉ marks) : Calm (step marks) ⟨d, false⟩ :=
  ⟨by simp [step, shift?, hspace], by simp [step, shift?, hnewline]⟩

/-! ## Escapes -/

/-- The characters that LaTeX reserves. Addresses may hold some of them. -/
def reserved (addresses : Bool) : List Char :=
  if addresses then ['#', '%', '&'] else ['#', '%', '&', '$', '_', '^']

/-- A character that is neither reserved nor a brace nor a backslash is read as it
stands. -/
theorem step_plain {c : Char} (hback : c ≠ '\\') (hmark : c ∉ marks) (hopen : c ≠ '\x7b')
    (hclose : c ≠ '\x7d') : step marks ⟨d, false⟩ c = some ⟨d, false⟩ := by
  simp [step, shift?, hback, hmark, hopen, hclose]

/-- The reader takes the text and has as many groups open as before. -/
def Even (addresses : Bool) (t : Text) : Prop :=
  ∀ d, t.foldlM (step (reserved addresses)) ⟨d, false⟩ = some ⟨d, false⟩

theorem even_control (addresses : Bool) (c : Char) : Even addresses ['\\', c] := fun _ => rfl

theorem even_plain {addresses : Bool} {c : Char} (hback : c ≠ '\\') (hmark : c ∉ reserved addresses)
    (hopen : c ≠ '\x7b') (hclose : c ≠ '\x7d') : Even addresses [c] := by
  intro d
  rw [List.foldlM_cons, step_plain hback hmark hopen hclose]
  rfl

theorem even_nil (addresses : Bool) : Even addresses [] := fun _ => rfl

theorem Even.append {addresses : Bool} {t u : Text} (ht : Even addresses t) (hu : Even addresses u) :
    Even addresses (t ++ u) := fun d => foldlM_append (ht d) (hu d)

theorem even_ite {addresses : Bool} {q : Prop} [Decidable q] {t u : Text} (ht : q → Even addresses t)
    (hu : ¬q → Even addresses u) : Even addresses (if q then t else u) := by
  by_cases h : q
  · rw [if_pos h]
    exact ht h
  · rw [if_neg h]
    exact hu h

theorem step_open {addresses : Bool} :
    step (reserved addresses) ⟨d, false⟩ '\x7b' = some ⟨d + 1, false⟩ := by
  cases addresses <;> rfl

theorem step_close {addresses : Bool} :
    step (reserved addresses) ⟨d + 1, false⟩ '\x7d' = some ⟨d, false⟩ := by
  cases addresses <;> rfl

theorem even_group {addresses : Bool} {t : Text} (ht : Even addresses t) :
    Even addresses ('\x7b' :: (t ++ ['\x7d'])) := by
  intro d
  rw [List.foldlM_cons, step_open]
  exact foldlM_append (ht (d + 1)) (by rw [List.foldlM_cons, step_close]; rfl)

theorem not_mem_reserved {addresses : Bool} {c : Char} (hc : c.isAlphanum = true) :
    c ∉ reserved addresses := by
  intro hmem
  have hall : ∀ x ∈ reserved addresses, (!x.isAlphanum) = true := by
    cases addresses <;> exact List.all_eq_true.mp rfl
  have hnot := hall c hmem
  rw [hc] at hnot
  cases hnot

theorem even_letters {addresses : Bool} {t : Text} (ht : t.all (·.isAlphanum) = true) :
    Even addresses t := by
  induction t with
  | nil => exact even_nil addresses
  | cons c t ih =>
    obtain ⟨hc, ht⟩ := Bool.and_eq_true_iff.mp ht
    refine Even.append (t := [c]) (even_plain ?_ (not_mem_reserved hc) ?_ ?_) (ih ht)
    all_goals
      rintro rfl
      cases hc

/-- A command that prints something: one token for its first character, then letters
and an empty group. -/
theorem even_command {addresses : Bool} {c : Char} {name : Text}
    (hname : name.all (·.isAlphanum) = true) : Even addresses (command (c :: name)) :=
  (even_control addresses c).append ((even_letters hname).append (even_group (even_nil addresses)))

theorem even_normalOnly {addresses : Bool} {c : Char} {t : Text} (h : normalOnly c = some t) :
    Even addresses t := by
  unfold normalOnly at h
  split at h <;> cases h
  · exact even_command rfl
  all_goals
    intro d
    cases addresses <;> rfl

/-- However a character is escaped, it leaves the braces balanced, and what it is
written as is not reserved, apart from what addresses keep as it is. -/
theorem even_escapeChar {addresses : Bool} {mode : Mode} (hmode : mode = .normal ∨ addresses = true)
    (last : Option Char) (c : Char) (next : Option Char) (begins : Bool) :
    Even addresses (escapeChar mode last c next begins) := by
  unfold escapeChar
  refine even_ite (fun _ => even_control addresses c) fun hmarks => ?_
  refine even_ite (fun hmath => even_ite (fun _ => even_control addresses c) fun hnormal => ?_)
    fun hmath => ?_
  · -- an address keeps it, and may
    cases hmode.resolve_left hnormal
    rcases hmath with rfl | rfl <;> exact even_plain (by decide) (by decide) (by decide) (by decide)
  refine even_ite (fun _ => ?_) fun _ => even_ite (fun _ => even_command rfl) fun hcaret => ?_
  · exact (even_plain (by decide) (by cases addresses <;> decide) (by decide) (by decide)).append
      (even_group (even_nil addresses))
  refine even_ite (fun _ => even_ite (fun _ => ?_) fun _ => even_command rfl) fun hback => ?_
  · exact even_plain (by decide) (by cases addresses <;> decide) (by decide) (by decide)
  have hplain : Even addresses [c] := by
    have hne : ∀ d, ['\x7b', '\x7d', '#', '%', '&'].contains d = true → c ≠ d := by
      rintro d hd rfl
      exact hmarks hd
    refine even_plain hback (fun hmem => ?_) (hne _ rfl) (hne _ rfl)
    have hmem : c ∈ reserved false := by
      cases addresses
      · exact hmem
      · exact List.mem_append_left ['$', '_', '^'] hmem
    simp only [reserved, Bool.false_eq_true, if_false, List.mem_cons, List.not_mem_nil, or_false] at hmem
    rcases hmem with h | h | h | h | h | h
    · exact hne _ rfl h
    · exact hne _ rfl h
    · exact hne _ rfl h
    · exact hmath (Or.inl h)
    · exact hmath (Or.inr h)
    · exact hcaret h
  refine even_ite (fun _ => even_command rfl) fun _ => ?_
  refine even_ite (fun _ => even_command rfl) fun _ => ?_
  refine even_ite (fun _ => even_command rfl) fun _ => ?_
  refine even_ite (fun _ => even_group hplain) fun _ => ?_
  refine even_ite (fun _ => even_command rfl) fun _ => ?_
  refine even_ite (fun _ => even_command rfl) fun _ => ?_
  refine even_ite (fun _ => ?_) fun _ => even_ite (fun _ => even_command rfl) fun _ => ?_
  · exact even_plain (by decide) (by cases addresses <;> decide) (by decide) (by decide)
  refine even_ite (fun _ => ?_) fun _ => hplain
  cases hc : normalOnly c with
  | none => exact hplain
  | some t => exact even_normalOnly hc

end Latex

end MarkupTree
