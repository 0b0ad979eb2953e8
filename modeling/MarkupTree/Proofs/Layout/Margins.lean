-- The margin of a page. Writing leaves it alone, so the margin after a list of
-- instructions is told by what they add to it and take off it. Instructions
-- are framed when they only take off what they added themselves.
import MarkupTree.Proofs.Layout.Writing

namespace MarkupTree

namespace Layout

/-! ## The margin after instructions -/

/-- The margin after an instruction, given the one before it. -/
def Instruction.shift (margin : Text) : Instruction → Text
  | .indent more => margin ++ more
  | .outdent count => margin.take (margin.length - count)
  | _ => margin

def marginAfter (margin : Text) (is : List Instruction) : Text := is.foldl Instruction.shift margin

/-- Neither adds to the margin nor takes off it. -/
def Instruction.keepsMargin : Instruction → Bool
  | .indent _ | .outdent _ => false
  | _ => true

theorem Instruction.shift_of_keepsMargin {i : Instruction} (h : i.keepsMargin = true)
    (margin : Text) : i.shift margin = margin := by
  cases i with
  | indent | outdent => cases h
  | _ => rfl

theorem Page.margin_follow (f : Format) (p : Page) (i : Instruction) :
    (p.follow f i).margin = i.shift p.margin := by
  cases i with
  | put t wrap mode => exact margin_put t wrap mode
  | softLine =>
    unfold follow
    dsimp only
    split
    · exact margin_put _ _ _
    · rfl
  | _ => rfl

theorem Page.margin_run (f : Format) (p : Page) (is : List Instruction) :
    (p.run f is).margin = marginAfter p.margin is := by
  induction is generalizing p with
  | nil => rfl
  | cons i is ih => exact (ih _).trans (by rw [margin_follow]; rfl)

theorem marginAfter_append (margin : Text) (is js : List Instruction) :
    marginAfter margin (is ++ js) = marginAfter (marginAfter margin is) js :=
  List.foldl_append

theorem marginAfter_of_keepsMargin {is : List Instruction}
    (h : is.all Instruction.keepsMargin = true) (margin : Text) : marginAfter margin is = margin := by
  induction is with
  | nil => rfl
  | cons i is ih =>
    obtain ⟨hi, his⟩ : i.keepsMargin = true ∧ is.all Instruction.keepsMargin = true := by
      simpa using h
    rw [marginAfter, List.foldl_cons, Instruction.shift_of_keepsMargin hi]
    exact ih his

/-! ## Framed instructions -/

/-- The instructions take off the margin what they added to it, all of it and
nothing else. -/
structure Framed (is : List Instruction) : Prop where
  /-- On the way the margin only has more at its end, all of it on one line. -/
  within : ∀ js, js <+: is → ∀ margin, ∃ more, '\n' ∉ more ∧ marginAfter margin js = margin ++ more
  /-- What is taken off was added on the way. -/
  outdents : ∀ js count, js ++ [.outdent count] <+: is → ∀ margin,
    margin.length + count ≤ (marginAfter margin js).length
  settled : ∀ margin, marginAfter margin is = margin

/-- A beginning of two lists in a row lies in the first, or goes on into the
second. -/
theorem prefix_append_cases {α : Type} {xs ys zs : List α} (h : zs <+: xs ++ ys) :
    zs <+: xs ∨ ∃ ws, ws <+: ys ∧ zs = xs ++ ws := by
  rcases List.prefix_or_prefix_of_prefix h (List.prefix_append xs ys) with h' | ⟨ws, rfl⟩
  · exact Or.inl h'
  · exact Or.inr ⟨ws, (List.prefix_append_right_inj xs).mp h, rfl⟩

namespace Framed

theorem nil : Framed [] where
  within js hjs margin := by
    rw [List.prefix_nil.mp hjs]
    exact ⟨[], by simp, (List.append_nil margin).symm⟩
  outdents js count hjs := by simp at hjs
  settled _ := rfl

theorem of_keepsMargin {is : List Instruction} (h : is.all Instruction.keepsMargin = true) :
    Framed is where
  within js hjs margin := by
    have hall : js.all Instruction.keepsMargin = true :=
      List.all_eq_true.mpr fun i hi => List.all_eq_true.mp h i (hjs.subset hi)
    exact ⟨[], by simp, by rw [marginAfter_of_keepsMargin hall, List.append_nil]⟩
  outdents js count hjs := by
    have hmem : Instruction.outdent count ∈ is := hjs.subset (by simp)
    cases List.all_eq_true.mp h _ hmem
  settled := marginAfter_of_keepsMargin h

theorem append {is js : List Instruction} (hi : Framed is) (hj : Framed js) : Framed (is ++ js) where
  within ks hks margin := by
    rcases prefix_append_cases hks with hks | ⟨ls, hls, rfl⟩
    · exact hi.within ks hks margin
    · rw [marginAfter_append, hi.settled]
      exact hj.within ls hls margin
  outdents ks count hks margin := by
    rcases prefix_append_cases hks with hks | ⟨ls, hls, heq⟩
    · exact hi.outdents ks count hks margin
    · rcases List.eq_nil_or_concat ls with rfl | ⟨ms, i, rfl⟩
      · rw [List.append_nil] at heq
        exact hi.outdents ks count (heq ▸ List.prefix_refl _) margin
      · rw [List.concat_eq_append, ← List.append_assoc] at heq
        obtain ⟨rfl, hlast⟩ := List.append_inj' heq rfl
        cases hlast
        rw [marginAfter_append, hi.settled]
        exact hj.outdents ms count (by simpa using hls) margin
  settled margin := by rw [marginAfter_append, hi.settled, hj.settled]

/-- What is framed stays so between an indentation and its end. -/
theorem enclose {more : Text} {is : List Instruction} (hmore : '\n' ∉ more) (h : Framed is) :
    Framed (.indent more :: (is ++ [.outdent more.length])) where
  within js hjs margin := by
    rcases List.prefix_cons_iff.mp hjs with rfl | ⟨ks, rfl, hks⟩
    · exact ⟨[], by simp, (List.append_nil margin).symm⟩
    · show ∃ rest, '\n' ∉ rest ∧ marginAfter (margin ++ more) ks = margin ++ rest
      rcases prefix_append_cases hks with hks | ⟨ls, hls, rfl⟩
      · obtain ⟨rest, hrest, heq⟩ := h.within ks hks (margin ++ more)
        exact ⟨more ++ rest, by simp [hmore, hrest], by rw [heq, List.append_assoc]⟩
      · rw [marginAfter_append, h.settled]
        rcases List.prefix_cons_iff.mp hls with rfl | ⟨ms, rfl, hms⟩
        · exact ⟨more, hmore, rfl⟩
        · rw [List.prefix_nil.mp hms]
          exact ⟨[], by simp, by simp [marginAfter, Instruction.shift]⟩
  outdents js count hjs margin := by
    cases js with
    | nil => simp at hjs
    | cons i js =>
      rw [List.cons_append] at hjs
      obtain ⟨rfl, hks⟩ := List.cons_prefix_cons.mp hjs
      show _ ≤ (marginAfter (margin ++ more) js).length
      rcases prefix_append_cases hks with hks | ⟨ls, hls, heq⟩
      · have hle := h.outdents js count hks (margin ++ more)
        rw [List.length_append] at hle
        omega
      · rcases List.prefix_cons_iff.mp hls with rfl | ⟨ms, rfl, hms⟩
        · have hle := h.outdents js count (by simp [heq]) (margin ++ more)
          rw [List.length_append] at hle
          omega
        · rw [List.prefix_nil.mp hms] at heq
          obtain ⟨rfl, hlast⟩ := List.append_inj' heq rfl
          cases hlast
          have hsettled := congrArg List.length (h.settled (margin ++ more))
          rw [List.length_append] at hsettled
          omega
  settled margin := by
    show marginAfter (margin ++ more) (is ++ [.outdent more.length]) = margin
    rw [marginAfter_append, h.settled]
    simp [marginAfter, Instruction.shift]

end Framed

end Layout

end MarkupTree
