-- Where environments begin and end in a page of LaTeX, letter by letter: each `\begin` and `\end`
-- of an environment that blocks are written in is a bracket, wherever it stands in the page, and
-- inside verbatim only its end is one. A reader that goes through the page once, with no more than
-- what it has read of a bracket, finds the same.
import MarkupTree.Proofs.Latex.Commands

namespace MarkupTree

namespace Latex

open Layout

/-! ## Brackets -/

/-- The environments that blocks are written in. -/
inductive Environment
  | quote
  | itemize
  | enumerate
  | verbatim
  deriving DecidableEq, Repr

inductive Bracket
  | opens (environment : Environment)
  | closes (environment : Environment)
  deriving DecidableEq, Repr

def Environment.name : Environment → Text
  | .quote => "quote".toList
  | .itemize => "itemize".toList
  | .enumerate => "enumerate".toList
  | .verbatim => Latex.verbatim

def Bracket.text : Bracket → Text
  | .opens environment => "\\begin\x7b".toList ++ environment.name ++ ['\x7d']
  | .closes environment => "\\end\x7b".toList ++ environment.name ++ ['\x7d']

/-- The brackets that count, inside verbatim or outside. -/
def live (inside : Bool) : List Bracket :=
  if inside then [.closes .verbatim]
  else [Environment.quote, .itemize, .enumerate, .verbatim].flatMap fun e => [.opens e, .closes e]

def bracket? (inside : Bool) (t : Text) : Option Bracket :=
  (live inside).find? fun b => b.text.isPrefixOf t

/-- The brackets of a page, in their order. -/
def brackets (inside : Bool) : Text → List Bracket
  | [] => []
  | c :: cs =>
    match bracket? inside (c :: cs) with
    | some b => b :: brackets (b == .opens .verbatim) cs
    | none => brackets inside cs

example : brackets false ("\\begin\x7bquote\x7d\\begin\x7bverbatim\x7d\\end\x7bquote\x7d".toList ++
    "\\end\x7bverbatim\x7d\\end\x7bquote\x7d".toList) =
      [.opens .quote, .opens .verbatim, .closes .verbatim, .closes .quote] := by decide +kernel

variable {inside : Bool} {b b' : Bracket} {c : Char} {t u : Text}

/-! ## What brackets look like -/

/-- Every bracket is a backslash and more, with no second one and no line feed. -/
theorem text_eq (b : Bracket) : ∃ d rest, b.text = '\\' :: d :: rest ∧ '\\' ∉ d :: rest ∧ d.isAlpha = true ∧
    '\n' ∉ b.text := by
  rcases b with e | e <;> cases e <;> exact ⟨_, _, rfl, by decide, by decide, by decide⟩

/-- No bracket is the start of another. -/
theorem eq_of_text_prefix (h : b.text <+: b'.text) : b = b' := by
  have hall : ∀ e e' : Environment, ∀ b ∈ [Bracket.opens e, .closes e], ∀ b' ∈ [Bracket.opens e', .closes e'],
      b.text.isPrefixOf b'.text → b = b' := by
    intro e e'
    cases e <;> cases e' <;> decide
  have hmem : ∀ b : Bracket, ∃ e, b ∈ [Bracket.opens e, .closes e] := by
    rintro (e | e)
    · exact ⟨e, List.mem_cons_self⟩
    · exact ⟨e, List.mem_cons_of_mem _ List.mem_cons_self⟩
  obtain ⟨e, he⟩ := hmem b
  obtain ⟨e', he'⟩ := hmem b'
  exact hall e e' b he b' he' (List.isPrefixOf_iff_prefix.mpr h)

theorem bracket?_eq_some_iff : bracket? inside t = some b ↔ b ∈ live inside ∧ b.text <+: t := by
  have hsome : ∀ b, bracket? inside t = some b → b ∈ live inside ∧ b.text <+: t := fun b h =>
    ⟨List.mem_of_find?_eq_some h,
      List.isPrefixOf_iff_prefix.mp (List.find?_some (p := fun b : Bracket => b.text.isPrefixOf t) h)⟩
  refine ⟨hsome b, fun ⟨hlive, ht⟩ => ?_⟩
  obtain ⟨b', hb'⟩ : ∃ b', bracket? inside t = some b' :=
    Option.isSome_iff_exists.mp (List.find?_isSome.mpr ⟨b, hlive, List.isPrefixOf_iff_prefix.mpr ht⟩)
  rcases List.prefix_or_prefix_of_prefix ht (hsome b' hb').2 with hsame | hsame
  · rw [hb', eq_of_text_prefix hsame]
  · rw [hb', eq_of_text_prefix hsame]

theorem bracket?_eq_none_iff : bracket? inside t = none ↔ ∀ b ∈ live inside, ¬b.text <+: t := by
  rw [Option.eq_none_iff_forall_ne_some]
  exact forall_congr' fun b => by rw [ne_eq, bracket?_eq_some_iff, not_and]

theorem brackets_of_none (h : bracket? inside (c :: t) = none) : brackets inside (c :: t) = brackets inside t := by
  rw [brackets, h]

/-- Where there is no backslash, no bracket begins. -/
theorem brackets_append (ht : '\\' ∉ t) : brackets inside (t ++ u) = brackets inside u := by
  induction t with
  | nil => rfl
  | cons c t ih =>
    obtain ⟨hc, ht⟩ : '\\' ≠ c ∧ '\\' ∉ t := by simpa using ht
    have hnone : bracket? inside (c :: (t ++ u)) = none := by
      refine bracket?_eq_none_iff.mpr fun b _ hb => ?_
      obtain ⟨d, rest, htext, -⟩ := text_eq b
      rw [htext, List.cons_prefix_cons] at hb
      exact hc hb.1
    rw [List.cons_append, brackets_of_none hnone, ih ht]

theorem brackets_text_append (hb : b ∈ live inside) :
    brackets inside (b.text ++ u) = b :: brackets (b == .opens .verbatim) u := by
  obtain ⟨d, rest, htext, hrest, -⟩ := text_eq b
  have hfirst : bracket? inside (b.text ++ u) = some b := bracket?_eq_some_iff.mpr ⟨hb, List.prefix_append _ _⟩
  rw [htext, List.cons_append] at hfirst ⊢
  rw [brackets, hfirst]
  dsimp only
  rw [brackets_append hrest]

/-- Inside verbatim there is no bracket where its end does not stand. -/
theorem brackets_inside_eq_nil_iff : brackets true t = [] ↔ ¬verbatimEnd <:+: t := by
  have hone : ∀ t, bracket? true t = none ↔ ¬verbatimEnd <+: t := fun t =>
    bracket?_eq_none_iff.trans (List.forall_mem_singleton)
  induction t with
  | nil => exact iff_of_true rfl (by decide)
  | cons c t ih =>
    rw [List.infix_cons_iff, not_or, ← hone, brackets]
    cases hfirst : bracket? true (c :: t) with
    | none => exact ih.trans (and_iff_right rfl).symm
    | some b => exact iff_of_false (List.cons_ne_nil _ _) fun h => nomatch h.1

/-! ## The reader -/

/-- The brackets found so far, the last one first, whether the reader is inside verbatim, and
what it has read of a bracket. -/
structure Hunt where
  found : List Bracket := []
  inside : Bool := false
  begun : Text := []
  deriving DecidableEq, Repr

namespace Hunt

variable {h : Hunt}

/-- One character more. -/
def step (h : Hunt) (c : Char) : Hunt :=
  let t := h.begun ++ [c]
  match (live h.inside).find? fun b => b.text == t with
  | some b => { found := b :: h.found, inside := b == .opens .verbatim, begun := [] }
  | none =>
    if (live h.inside).any fun b => t.isPrefixOf b.text then { h with begun := t }
    else { h with begun := if c = '\\' then [c] else [] }

/-- The reader is in the middle of a bracket, or in front of one. -/
def Begun (inside : Bool) (t : Text) : Prop := ∃ b ∈ live inside, t <+: b.text ∧ t ≠ b.text

theorem begun_nil (inside : Bool) : Begun inside [] := by
  cases inside
  · exact ⟨.opens .quote, by decide, List.nil_prefix, by decide⟩
  · exact ⟨.closes .verbatim, by decide, List.nil_prefix, by decide⟩

theorem begun_backslash (inside : Bool) : Begun inside ['\\'] := by
  cases inside
  · exact ⟨.opens .quote, by decide, by decide, by decide⟩
  · exact ⟨.closes .verbatim, by decide, by decide, by decide⟩

theorem Begun.slash_notMem (ht : Begun inside (c :: t)) : '\\' ∉ t := by
  obtain ⟨b, -, hb, -⟩ := ht
  obtain ⟨d, rest, htext, hrest, -⟩ := text_eq b
  rw [htext, List.cons_prefix_cons] at hb
  exact fun hmem => hrest (hb.2.subset hmem)

theorem Begun.not_prefix (ht : Begun inside t) : ¬b.text <+: t := by
  obtain ⟨b', -, hb', hne⟩ := ht
  intro hb
  have hsame := eq_of_text_prefix (hb.trans hb')
  rw [hsame] at hb
  exact hne (hb'.eq_of_length_le hb.length_le)

/-- In what is read of a bracket there is no bracket. -/
theorem Begun.brackets_eq_nil (ht : Begun inside t) : brackets inside t = [] := by
  cases t with
  | nil => rfl
  | cons c t =>
    have hnone : bracket? inside (c :: t) = none := bracket?_eq_none_iff.mpr fun b _ => ht.not_prefix
    have hrest : brackets inside (t ++ []) = [] := Latex.brackets_append ht.slash_notMem
    rw [List.append_nil] at hrest
    rw [brackets_of_none hnone, hrest]

/-- Where a bracket breaks off, the reader goes on with what comes after it. -/
theorem Begun.brackets_append (ht : Begun inside t) (hmiss : ∀ b ∈ live inside, ¬t ++ [c] <+: b.text)
    (hwhole : ∀ b ∈ live inside, b.text ≠ t ++ [c]) (u : Text) :
    brackets inside (t ++ c :: u) = brackets inside (c :: u) := by
  cases t with
  | nil => rfl
  | cons d t =>
    have hnone : bracket? inside (d :: t ++ c :: u) = none := by
      refine bracket?_eq_none_iff.mpr fun b hlive hb => ?_
      have hboth : d :: t ++ [c] <+: d :: t ++ c :: u := by
        rw [List.append_cons (d :: t) c u]
        exact List.prefix_append _ _
      rcases List.prefix_or_prefix_of_prefix hb hboth with hshort | hlong
      · rcases List.prefix_concat_iff.mp hshort with hsame | hshorter
        · exact hwhole b hlive (by simpa using hsame)
        · exact ht.not_prefix hshorter
      · exact hmiss b hlive hlong
    exact (brackets_of_none hnone).trans (Latex.brackets_append ht.slash_notMem)

/-- What one character finds is what there is to find up to it, and from there on the page
is read from what is begun. -/
theorem step_spec (hbegun : Begun h.inside h.begun) (c : Char) :
    Begun (h.step c).inside (h.step c).begun ∧
      ∃ bs, (h.step c).found = bs.reverse ++ h.found ∧
        ∀ u, brackets h.inside (h.begun ++ c :: u) =
          bs ++ brackets (h.step c).inside ((h.step c).begun ++ u) := by
  unfold step
  dsimp only
  split
  · rename_i b hb
    have hlive : b ∈ live h.inside := List.mem_of_find?_eq_some hb
    have htext : b.text = h.begun ++ [c] := by simpa using List.find?_some hb
    refine ⟨begun_nil _, [b], rfl, fun u => ?_⟩
    rw [List.append_cons, ← htext, brackets_text_append hlive]
    rfl
  · rename_i hfind
    have hwhole : ∀ b ∈ live h.inside, b.text ≠ h.begun ++ [c] := by simpa using hfind
    split
    · rename_i hsome
      obtain ⟨b, hlive, hb⟩ := List.any_eq_true.mp hsome
      refine ⟨⟨b, hlive, List.isPrefixOf_iff_prefix.mp hb, fun heq => hwhole b hlive heq.symm⟩, [], rfl, fun u => ?_⟩
      rw [List.append_cons]
      rfl
    · rename_i hnone
      have hmiss : ∀ b ∈ live h.inside, ¬h.begun ++ [c] <+: b.text := by
        intro b hlive hb
        exact hnone (List.any_eq_true.mpr ⟨b, hlive, List.isPrefixOf_iff_prefix.mpr hb⟩)
      dsimp only
      by_cases hc : c = '\\'
      · rw [if_pos hc, hc]
        exact ⟨begun_backslash _, [], rfl, hc ▸ hbegun.brackets_append hmiss hwhole⟩
      · rw [if_neg hc]
        refine ⟨begun_nil _, [], rfl, fun u => ?_⟩
        rw [hbegun.brackets_append hmiss hwhole]
        exact Latex.brackets_append (t := [c]) (by simpa using Ne.symm hc)

/-- The reader finds the brackets that there are. -/
theorem foldl_spec (hbegun : Begun h.inside h.begun) (t : Text) :
    (t.foldl step h).found = (brackets h.inside (h.begun ++ t)).reverse ++ h.found := by
  induction t generalizing h with
  | nil => rw [List.append_nil, hbegun.brackets_eq_nil]; rfl
  | cons c t ih =>
    obtain ⟨hnext, bs, hfound, hbrackets⟩ := step_spec hbegun c
    rw [List.foldl_cons, ih hnext, hfound, hbrackets, List.reverse_append, List.append_assoc]

/-! ## What the reader passes over -/

/-- What is found already is nothing to the reader. -/
theorem foldl_found (t : Text) (found : List Bracket) (inside : Bool) (begun : Text) :
    t.foldl step ⟨found, inside, begun⟩ =
      { t.foldl step ⟨[], inside, begun⟩ with found := (t.foldl step ⟨[], inside, begun⟩).found ++ found } := by
  have hstep : ∀ (h : Hunt) (c : Char), step { h with found := h.found ++ found } c =
      { h.step c with found := (h.step c).found ++ found } := by
    intro h c
    unfold step
    dsimp only
    split
    · rfl
    · split <;> rfl
  have hfold : ∀ h : Hunt, t.foldl step { h with found := h.found ++ found } =
      { t.foldl step h with found := (t.foldl step h).found ++ found } := by
    induction t with
    | nil => exact fun _ => rfl
    | cons c t ih =>
      intro h
      rw [List.foldl_cons, hstep, ih]
      rfl
  exact hfold ⟨[], inside, begun⟩

theorem step_of_miss {found : List Bracket} {begun : Text}
    (h : ∀ b ∈ live inside, ¬begun ++ [c] <+: b.text) :
    step ⟨found, inside, begun⟩ c = ⟨found, inside, if c = '\\' then [c] else []⟩ := by
  have hwhole : ((live inside).find? fun b => b.text == begun ++ [c]) = none := by
    refine List.find?_eq_none.mpr fun b hlive hb => h b hlive ?_
    exact ⟨[], (List.append_nil _).trans (beq_iff_eq.mp hb).symm⟩
  have hany : ¬((live inside).any fun b => (begun ++ [c]).isPrefixOf b.text) = true := by
    rw [List.any_eq_true]
    rintro ⟨b, hlive, hb⟩
    exact h b hlive (List.isPrefixOf_iff_prefix.mp hb)
  unfold step
  dsimp only
  rw [hwhole]
  exact if_neg hany

theorem step_char {found : List Bracket} (hc : c ≠ '\\') :
    step ⟨found, inside, []⟩ c = ⟨found, inside, []⟩ := by
  refine (step_of_miss fun b _ hb => ?_).trans (by rw [if_neg hc])
  obtain ⟨d, rest, htext, -⟩ := text_eq b
  rw [htext] at hb
  exact hc (List.cons_prefix_cons.mp hb).1

theorem step_slash (found : List Bracket) : step ⟨found, inside, []⟩ '\\' = ⟨found, inside, ['\\']⟩ := by
  cases inside <;> rfl

theorem step_control {found : List Bracket} (hc : c ≠ '\\') (halpha : c.isAlpha = false) :
    step ⟨found, inside, ['\\']⟩ c = ⟨found, inside, []⟩ := by
  refine (step_of_miss fun b _ hb => ?_).trans (by rw [if_neg hc])
  obtain ⟨d, rest, htext, -, hd, -⟩ := text_eq b
  rw [htext] at hb
  have hsame : c = d := (List.cons_prefix_cons.mp (List.cons_prefix_cons.mp hb).2).1
  rw [hsame, hd] at halpha
  cases halpha

/-- No bracket goes over the end of a line. -/
theorem step_newline (h : Hunt) : h.step '\n' = { h with begun := [] } := by
  refine (step_of_miss fun b _ hb => ?_).trans (by rw [if_neg (by decide)])
  obtain ⟨d, rest, -, -, -, hline⟩ := text_eq b
  exact hline (hb.subset (List.mem_append_right _ List.mem_cons_self))

end Hunt

def hunter : Recorder Bracket where
  State := Hunt
  step := Hunt.step
  text found := ⟨found, false, []⟩

/-- What the reader finds in a page that holds nothing else, it finds everywhere. -/
theorem finds_of_foldl {bs : List Bracket} (h : t.foldl Hunt.step {} = ⟨bs.reverse, false, []⟩) :
    hunter.Finds t bs := by
  intro found
  show t.foldl Hunt.step ⟨found, false, []⟩ = _
  rw [Hunt.foldl_found, h]
  rfl

theorem calm_hunter (h : Hunt) : Calm hunter.read { h with begun := [] } :=
  ⟨congrArg some (Hunt.step_char (by decide)), congrArg some (Hunt.step_char (by decide))⟩

/-- At the end of a line nothing is begun. -/
theorem turns_hunter (h : Hunt) : Turns hunter.read h { h with begun := [] } := by
  refine ⟨calm_hunter h, congrArg some h.step_newline, fun s hs => ?_⟩
  have hstep : Hunt.step s '\n' = h := Option.some.inj hs
  rw [← hstep, Hunt.step_newline s]

theorem passes_hunter : hunter.Passes where
  char _ hc _ := Hunt.step_char hc
  control c hc halpha found := by
    show Hunt.step (Hunt.step ⟨found, false, []⟩ '\\') c = _
    rw [Hunt.step_slash, Hunt.step_control hc halpha]
    rfl
  named name hname c t bs _ h := by
    have hmacros : ∀ name ∈ macros, ('\\' :: name).foldl Hunt.step {} = {} := by decide +kernel
    have hmacro : hunter.Finds ('\\' :: name) [] := finds_of_foldl (hmacros name hname)
    exact hmacro.append h
  broken found := turns_hunter ⟨found, false, ['\\']⟩

/-- A page has the brackets that the reader finds. -/
theorem brackets_of_foldl {bs : List Bracket} (h : t.foldl hunter.step (hunter.text []) = hunter.text bs.reverse) :
    brackets false t = bs := by
  have hspec := Hunt.foldl_spec (h := {}) (Hunt.begun_nil false) t
  rw [show t.foldl Hunt.step {} = ⟨bs.reverse, false, []⟩ from h, List.append_nil] at hspec
  exact (List.reverse_inj.mp hspec).symm

end Latex

end MarkupTree
