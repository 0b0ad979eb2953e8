-- A reader of XML as the writer lays it out: the header, then one line for
-- each tag, indented by two spaces for each open element. It refuses whatever
-- is not nested or not laid out so, and finds the tree of elements in the rest.
import MarkupTree.Proofs.Markup.Nesting
import MarkupTree.Proofs.Xml.Elements

namespace MarkupTree

namespace Xml

open Markup (Mark Token)

/-! ## The reader -/

/-- The references that text and attribute values may hold. -/
def references : List (Text × Char) :=
  [("lt".toList, '<'), ("gt".toList, '>'), ("amp".toList, '&'), ("apos".toList, '\x27'),
    ("quot".toList, '\x22')]

/-- The spaces in front of a tag inside so many elements. -/
def indent (depth : Nat) : Text := Text.spaces (2 * depth)

def decodeAttributes : List (Text × Text) → Option (List (Text × Text))
  | [] => some []
  | (name, value) :: as =>
    (Markup.decode references value).bind fun v =>
      (decodeAttributes as).map fun rest => (name, v) :: rest

/-- An element that is not closed yet, and the row that it stands in, up to it. -/
structure Unclosed where
  name : Text
  attributes : List (Text × Text)
  before : List (Rose Element)

structure Reader where
  /-- The elements around the place, the innermost first. -/
  around : List Unclosed
  /-- The row of elements read so far at the place. -/
  row : List (Rose Element)
  /-- The characters since the last mark. -/
  chars : Text

namespace Reader

/-- The reader after the header, which ends a line. -/
def begin : Reader := ⟨[], [], ['\n']⟩

/-- Whether a line has just ended and been indented for so many open elements. -/
def atTag (r : Reader) (depth : Nat) : Bool := r.chars == '\n' :: indent depth

/-- Ends an element that stands after the row `before`. -/
def put (around : List Unclosed) (before : List (Rose Element)) (e : Element)
    (children : List (Rose Element)) : Reader :=
  ⟨around, before ++ [.node e children], []⟩

/-- An element that is closed without children holds text. -/
def step (r : Reader) : Token → Option Reader
  | .char c => some { r with chars := r.chars ++ [c] }
  | .mark (.opening name attributes) =>
    if r.atTag r.around.length then
      (decodeAttributes attributes).map fun as => ⟨⟨name, as, r.row⟩ :: r.around, [], []⟩
    else none
  | .mark (.void name attributes) =>
    if r.atTag r.around.length then
      (decodeAttributes attributes).map fun as => put r.around r.row ⟨name, as, none⟩ []
    else none
  | .mark (.closing name) =>
    match r.around with
    | [] => none
    | u :: us =>
      if name ≠ u.name then none
      else if r.row.isEmpty then
        (Markup.decode references r.chars).map fun t =>
          put us u.before ⟨u.name, u.attributes, some t⟩ []
      else if r.atTag us.length then some (put us u.before ⟨u.name, u.attributes, none⟩ r.row)
      else none
  | .mark (.comment _) => none

def run : Reader → List Token → Option Reader
  | r, [] => some r
  | r, t :: ts => (r.step t).bind fun r' => r'.run ts

/-- The elements read, if all of them are closed and the last line is ended. -/
def finish (r : Reader) : Option (List (Rose Element)) :=
  if r.around.isEmpty && r.chars == ['\n'] then some r.row else none

end Reader

/-- The trees of elements that an XML file holds. -/
def read? (t : Text) : Option (List (Rose Element)) :=
  (Text.after? header t).bind fun body => (Markup.read? body).bind fun tokens =>
    (Reader.begin.run tokens).bind Reader.finish

/-! ## What the reader accepts -/

/-- How far a mark is indented after which `names` are open: a closing mark is
indented as the opening one. -/
def depthOf (names : List Text) : Mark → Nat
  | .closing _ => names.length - 1
  | _ => names.length

/-- The marks are nested, and each starts a line, after two spaces for each
element around it. Only a mark that closes what was just opened may follow text. -/
structure IsLaidOut (tokens : List Token) : Prop where
  nested : Markup.opened [] (Markup.marks tokens) = some []
  indented : ∀ before m after, tokens = before ++ .mark m :: after →
    ∃ names, Markup.opened [] (Markup.marks before) = some names ∧
      ('\n' :: indent (depthOf names m) <:+ '\n' :: before.flatMap Token.text ∨
        ∃ name as, m = .closing name ∧ (Markup.marks before).getLast? = some (.opening name as))

namespace Reader

/-- What the reader knows after the tokens. -/
structure Follows (r : Reader) (ts : List Token) : Prop where
  nested : Markup.opened [] (Markup.marks ts) = some (r.around.map Unclosed.name)
  chars : r.chars <:+ '\n' :: ts.flatMap Token.text
  /-- An element without children yet was just opened. -/
  fresh : r.row = [] → ∀ u ∈ r.around.head?,
    ∃ as, (Markup.marks ts).getLast? = some (.opening u.name as)

theorem follows_begin : begin.Follows [] := ⟨rfl, List.suffix_rfl, by simp [begin]⟩

theorem marks_append_mark (ts : List Token) (m : Mark) :
    Markup.marks (ts ++ [.mark m]) = Markup.marks ts ++ [m] := by simp [Markup.marks]

/-- A mark goes on from what is open, and characters are counted anew after it. -/
theorem Follows.mark {r : Reader} {ts : List Token} {m : Mark} {around : List Unclosed}
    {row : List (Rose Element)} (h : r.Follows ts)
    (hopen : Markup.opened (r.around.map Unclosed.name) [m] = some (around.map Unclosed.name))
    (hfresh : row = [] → ∀ u ∈ around.head?, ∃ as, m = .opening u.name as) :
    Follows ⟨around, row, []⟩ (ts ++ [.mark m]) where
  nested := by
    rw [marks_append_mark, Markup.opened_append, h.nested]
    exact hopen
  chars := List.nil_suffix
  fresh hrow u hu := by
    obtain ⟨as, rfl⟩ := hfresh hrow u hu
    exact ⟨as, by rw [marks_append_mark, List.getLast?_concat]⟩

/-- What the reader does at a mark that it accepts. -/
theorem step_mark {r r' : Reader} {m : Mark} (h : r.step (.mark m) = some r') :
    (∃ name as as', m = .opening name as ∧ r.atTag r.around.length = true ∧
      r' = ⟨⟨name, as', r.row⟩ :: r.around, [], []⟩) ∨
    (∃ name as e, m = .void name as ∧ r.atTag r.around.length = true ∧
      r' = put r.around r.row e []) ∨
    (∃ u us e cs, r.around = u :: us ∧ m = .closing u.name ∧
      (r.row = [] ∨ r.atTag us.length = true) ∧ r' = put us u.before e cs) := by
  cases m with
  | opening name as =>
    simp only [step] at h
    split at h
    · obtain ⟨as', -, rfl⟩ := Option.map_eq_some_iff.mp h
      exact Or.inl ⟨name, as, as', rfl, ‹_›, rfl⟩
    · cases h
  | void name as =>
    simp only [step] at h
    split at h
    · obtain ⟨as', -, rfl⟩ := Option.map_eq_some_iff.mp h
      exact Or.inr (Or.inl ⟨name, as, _, rfl, ‹_›, rfl⟩)
    · cases h
  | closing name =>
    simp only [step] at h
    split at h
    · cases h
    · rename_i u us haround
      split at h
      · cases h
      · obtain rfl : name = u.name := Decidable.not_not.mp ‹_›
        split at h
        · obtain ⟨t, -, rfl⟩ := Option.map_eq_some_iff.mp h
          exact Or.inr (Or.inr ⟨u, us, _, _, haround, rfl, Or.inl (List.isEmpty_iff.mp ‹_›), rfl⟩)
        · split at h
          · cases h
            exact Or.inr (Or.inr ⟨u, us, _, _, haround, rfl, Or.inr ‹_›, rfl⟩)
          · cases h
  | comment t => cases h

theorem Follows.step {r r' : Reader} {ts : List Token} {t : Token} (h : r.Follows ts)
    (hr : r.step t = some r') : r'.Follows (ts ++ [t]) := by
  cases t with
  | char c =>
    cases hr
    have hmarks : Markup.marks (ts ++ [.char c]) = Markup.marks ts := by simp [Markup.marks]
    refine ⟨by rw [hmarks]; exact h.nested, ?_, by rw [hmarks]; exact h.fresh⟩
    rw [List.flatMap_append, List.flatMap_singleton, ← List.cons_append]
    exact (List.suffix_append_inj_of_length_eq rfl).mpr ⟨h.chars, rfl⟩
  | mark m =>
    obtain ⟨name, as, as', rfl, -, rfl⟩ | ⟨name, as, e, rfl, -, rfl⟩ |
      ⟨u, us, e, cs, haround, rfl, -, rfl⟩ := step_mark hr
    · exact h.mark rfl (by rintro - u ⟨rfl⟩; exact ⟨as, rfl⟩)
    · exact h.mark rfl (by simp)
    · exact h.mark (by simp [haround, Markup.opened]) (by simp)

/-- What is read keeps the reader on the way. -/
theorem Follows.run {r r' : Reader} {ts us : List Token} (h : r.Follows ts)
    (hr : r.run us = some r') : r'.Follows (ts ++ us) := by
  induction us generalizing r ts with
  | nil =>
    cases hr
    rwa [List.append_nil]
  | cons t us ih =>
    obtain ⟨mid, hmid, hr⟩ := Option.bind_eq_some_iff.mp hr
    rw [List.append_cons]
    exact ih (h.step hmid) hr

theorem run_append (r : Reader) (ts us : List Token) :
    r.run (ts ++ us) = (r.run ts).bind fun r' => r'.run us := by
  induction ts generalizing r with
  | nil => rfl
  | cons t ts ih =>
    rw [List.cons_append, run, run, Option.bind_assoc]
    exact congrArg _ (funext ih)

/-- A mark that is not refused starts its line, or ends the text of the element
that was just opened. -/
theorem Follows.indented {r r' : Reader} {ts : List Token} {m : Mark} (h : r.Follows ts)
    (hr : r.step (.mark m) = some r') :
    '\n' :: indent (depthOf (r.around.map Unclosed.name) m) <:+ '\n' :: ts.flatMap Token.text ∨
      ∃ name as, m = .closing name ∧ (Markup.marks ts).getLast? = some (.opening name as) := by
  have hstart : ∀ depth, r.atTag depth = true →
      '\n' :: indent depth <:+ '\n' :: ts.flatMap Token.text := by
    intro depth hdepth
    rw [← eq_of_beq hdepth]
    exact h.chars
  obtain ⟨name, as, as', rfl, htag, -⟩ | ⟨name, as, e, rfl, htag, -⟩ |
    ⟨u, us, e, cs, haround, rfl, hrow | htag, -⟩ := step_mark hr
  · rw [← List.length_map Unclosed.name] at htag
    exact Or.inl (hstart _ htag)
  · rw [← List.length_map Unclosed.name] at htag
    exact Or.inl (hstart _ htag)
  · obtain ⟨as, has⟩ := h.fresh hrow u (by simp [haround])
    exact Or.inr ⟨u.name, as, rfl, has⟩
  · refine Or.inl (hstart _ ?_)
    simpa [haround, depthOf] using htag

end Reader

/-- The reader accepts only what is laid out as it should be. -/
theorem isLaidOut_of_run {tokens : List Token} {r : Reader} {row : List (Rose Element)}
    (hr : Reader.begin.run tokens = some r) (hrow : r.finish = some row) : IsLaidOut tokens where
  nested := by
    unfold Reader.finish at hrow
    split at hrow
    · rename_i hend
      have haround := List.isEmpty_iff.mp (Bool.and_eq_true_iff.mp hend).1
      rw [← List.nil_append tokens, (Reader.follows_begin.run hr).nested, haround]
      rfl
    · cases hrow
  indented before m after htokens := by
    rw [htokens, Reader.run_append] at hr
    obtain ⟨mid, hmid, hr⟩ := Option.bind_eq_some_iff.mp hr
    obtain ⟨_, hstep, -⟩ := Option.bind_eq_some_iff.mp hr
    have hfollows := Reader.follows_begin.run hmid
    exact ⟨_, hfollows.nested, hfollows.indented hstep⟩

end Xml

end MarkupTree
