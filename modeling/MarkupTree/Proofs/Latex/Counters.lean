-- The counters of lists in LaTeX. Each ordered list that is open has a counter of its own, which is
-- zero when the list begins, and an item has the next number of the innermost list. What happens in
-- a list leaves the counters of the lists around it as they are.
import MarkupTree.Proofs.Latex.Commands

namespace MarkupTree

namespace Latex

/-! ## Counting -/

/-- What LaTeX keeps of the lists. -/
structure Counting where
  /-- The lists that are open, the innermost first, and whether each of them is ordered. -/
  opened : List Bool := []
  counters : Text → Nat := fun _ => 0
  /-- The numbers of the items so far. An item of no ordered list has none. -/
  numbers : List (Option Nat) := []

namespace Counting

variable {k : Counting}

/-- How many ordered lists are open. -/
def depth (k : Counting) : Nat := k.opened.count true

def set (k : Counting) (name : Text) (n : Nat) : Counting :=
  { k with counters := fun other => if other = name then n else k.counters other }

/-- The counter of the innermost list, if that is ordered. -/
def counter? (k : Counting) : Option Text :=
  if k.opened.head? = some true then Latex.counter? k.depth else none

/-- A new ordered list has its counter at zero. -/
def enumerate (k : Counting) : Counting :=
  let opened : Counting := { k with opened := true :: k.opened }
  match opened.counter? with
  | some name => opened.set name 0
  | none => opened

def item (k : Counting) : Counting :=
  match k.counter? with
  | some name => { k.set name (k.counters name + 1) with numbers := k.numbers ++ [some (k.counters name + 1)] }
  | none => { k with numbers := k.numbers ++ [none] }

/-- The counter of the innermost list, if that has one, stands right before `n`. -/
def IsAt (k : Counting) (n : Nat) : Prop := ∀ name, k.counter? = some name → k.counters name + 1 = n

def step (k : Counting) : Command → Counting
  | .begins environment =>
    if environment = "enumerate".toList then k.enumerate
    else if environment = "itemize".toList then { k with opened := false :: k.opened }
    else k
  | .ends environment =>
    if environment = "enumerate".toList ∨ environment = "itemize".toList then { k with opened := k.opened.tail }
    else k
  | .sets name n => k.set name n
  | .item => k.item

def run (k : Counting) (cs : List Command) : Counting := cs.foldl step k

theorem run_append (cs ds : List Command) : k.run (cs ++ ds) = (k.run cs).run ds := List.foldl_append

end Counting

/-! ## Counters -/

variable {k k' k'' : Counting} {outer d e : Nat} {name : Text} {ns ms : List (Option Nat)}

theorem counter?_eq_none_iff : counter? d = none ↔ d = 0 ∨ 4 < d := by
  match d with
  | 0 => exact iff_of_true rfl (Or.inl rfl)
  | 1 | 2 | 3 | 4 => simp [counter?]
  | n + 5 => exact iff_of_true rfl (Or.inr (by omega))

theorem le_of_counter? (h : counter? d = some name) : d ≤ 4 := by
  apply Nat.le_of_not_lt
  intro hdeep
  cases h.symm.trans (counter?_eq_none_iff.mpr (Or.inr hdeep))

/-- Each depth has a counter of its own. -/
theorem counter?_inj (hd : counter? d = some name) (he : counter? e = some name) : d = e := by
  have hsame : ∀ d < 5, ∀ e < 5, counter? d = counter? e → counter? d ≠ none → d = e := by decide
  have hsome : counter? d ≠ none := by
    rw [hd]
    nofun
  exact hsame d (Nat.lt_succ_of_le (le_of_counter? hd)) e (Nat.lt_succ_of_le (le_of_counter? he)) (hd.trans he.symm) hsome

/-- From one count to the next the items have the numbers, and the lists that are open stay so. The counters
of the outer ones stay as they are. -/
structure Counts (outer : Nat) (k k' : Counting) (ns : List (Option Nat)) : Prop where
  opened : k'.opened = k.opened
  numbers : k'.numbers = k.numbers ++ ns
  counters : ∀ d ≤ outer, ∀ name, counter? d = some name → k'.counters name = k.counters name

namespace Counts

theorem refl (outer : Nat) (k : Counting) : Counts outer k k [] :=
  ⟨rfl, (List.append_nil _).symm, fun _ _ _ _ => rfl⟩

theorem trans (h : Counts outer k k' ns) (h' : Counts outer k' k'' ms) : Counts outer k k'' (ns ++ ms) where
  opened := h'.opened.trans h.opened
  numbers := by rw [h'.numbers, h.numbers, List.append_assoc]
  counters d hd name hname := (h'.counters d hd name hname).trans (h.counters d hd name hname)

theorem mono (h : Counts outer k k' ns) (hle : e ≤ outer) : Counts e k k' ns :=
  ⟨h.opened, h.numbers, fun d hd => h.counters d (Nat.le_trans hd hle)⟩

theorem depth (h : Counts outer k k' ns) : k'.depth = k.depth := by
  rw [Counting.depth, h.opened]
  rfl

theorem counter? (h : Counts outer k k' ns) : k'.counter? = k.counter? := by
  rw [Counting.counter?, Counting.counter?, h.opened, h.depth]

/-- The innermost list is at the same number, if its counter is one of the outer ones. -/
theorem isAt (h : Counts k.depth k k' ns) {n : Nat} (hat : k.IsAt n) : k'.IsAt n := by
  intro name hname
  have hinnermost : k.counter? = some name := h.counter?.symm.trans hname
  have hlevel : Latex.counter? k.depth = some name := by
    unfold Counting.counter? at hinnermost
    split at hinnermost
    · exact hinnermost
    · cases hinnermost
  rw [h.counters k.depth (Nat.le_refl _) name hlevel]
  exact hat name hinnermost

end Counts

/-- When the counter of one depth is set, that of another stays as it is. -/
theorem Counting.counters_set_of_ne {other : Text} (hother : Latex.counter? d = some other)
    (hname : Latex.counter? e = some name) (hne : d ≠ e) (n : Nat) :
    (k.set name n).counters other = k.counters other :=
  if_neg fun heq => hne (counter?_inj (heq ▸ hother) hname)

theorem Counting.counters_set_self (n : Nat) : (k.set name n).counters name = n := if_pos rfl

theorem Counting.depth_of_opened {opened : List Bool} (h : k.opened = true :: opened) :
    k.depth = opened.count true + 1 := by
  rw [Counting.depth, h, List.count_cons_self]

theorem Counting.counter?_of_opened {ordered : Bool} {opened : List Bool} (h : k.opened = ordered :: opened) :
    k.counter? = if ordered then Latex.counter? (opened.count true + 1) else none := by
  unfold Counting.counter? Counting.depth
  rw [h]
  cases ordered <;> simp

/-! ## A list begins -/

/-- A list begins: it is open with those before it, the counters of those stay as they are, and its own
counter stands right before its first number. -/
structure Begins (ordered : Bool) (first : Nat) (k k' : Counting) : Prop where
  opened : k'.opened = ordered :: k.opened
  numbers : k'.numbers = k.numbers
  counters : ∀ d ≤ k.depth, ∀ name, counter? d = some name → k'.counters name = k.counters name
  first : k'.IsAt first

theorem begins_itemize (k : Counting) (first : Nat) : Begins false first k { k with opened := false :: k.opened } where
  opened := rfl
  numbers := rfl
  counters _ _ _ _ := rfl
  first name h := by
    rw [Counting.counter?_of_opened rfl] at h
    cases h

namespace Begins

variable {first : Nat}

theorem counter?_eq (h : Begins true first k k') : k'.counter? = counter? (k.depth + 1) :=
  Counting.counter?_of_opened h.opened

/-- The counter of the list, or one of a greater depth, is set. -/
theorem set (h : Begins true first k k') {above : Nat} (hname : counter? (k.depth + 1 + above) = some name) (n : Nat) :
    Begins true (if above = 0 then n + 1 else first) k (k'.set name n) where
  opened := h.opened
  numbers := h.numbers
  counters d hd other hother := by
    rw [Counting.counters_set_of_ne hother hname (by omega)]
    exact h.counters d hd other hother
  first other hother := by
    have hcounter : counter? (k.depth + 1) = some other := h.counter?_eq ▸ hother
    split
    · rename_i hzero
      rw [hzero, Nat.add_zero, hcounter, Option.some.injEq] at hname
      rw [hname, Counting.counters_set_self]
    · rw [Counting.counters_set_of_ne hcounter hname (by omega)]
      exact h.first other hother

/-- Where there is no counter to set, the list has none itself, or one of a smaller depth. -/
theorem unset (h : Begins true first k k') {above : Nat} (hname : counter? (k.depth + 1 + above) = none) (n : Nat) :
    Begins true (if above = 0 then n else first) k k' where
  opened := h.opened
  numbers := h.numbers
  counters := h.counters
  first name hcounter := by
    have hown : counter? (k.depth + 1) = some name := h.counter?_eq ▸ hcounter
    have hne : above ≠ 0 := by
      rintro rfl
      cases hown.symm.trans hname
    rw [if_neg hne]
    exact h.first name hcounter

end Begins

theorem begins_enumerate (k : Counting) : Begins true 1 k k.enumerate := by
  have hcounter : Counting.counter? { k with opened := true :: k.opened } = counter? (k.depth + 1) := by
    rw [Counting.counter?_of_opened rfl]
    rfl
  unfold Counting.enumerate
  dsimp only
  cases hname : Counting.counter? { k with opened := true :: k.opened } with
  | none =>
    refine ⟨rfl, rfl, fun _ _ _ _ => rfl, ?_⟩
    intro name h
    cases hname.symm.trans h
  | some name =>
    have hdepth : counter? (k.depth + 1) = some name := hcounter.symm.trans hname
    refine ⟨rfl, rfl, ?_, ?_⟩
    · intro d hd other hother
      exact Counting.counters_set_of_ne hother hdepth (by omega) 0
    · intro other hother
      have heq : name = other := Option.some.inj (hname.symm.trans hother)
      rw [← heq, Counting.counters_set_self]

/-! ## An item -/

/-- An item takes the number that its list is at, and the list goes on with the next. -/
theorem counts_item {ordered : Bool} {opened : List Bool} {n : Nat} (hopened : k.opened = ordered :: opened)
    (hat : k.IsAt n) :
    Counts (opened.count true) k k.item [if ordered = true ∧ k.depth ≤ 4 then some n else none] ∧
      k.item.IsAt (n + 1) := by
  have hown := Counting.counter?_of_opened hopened
  unfold Counting.item
  cases hname : k.counter? with
  | none =>
    have hnot : ¬(ordered = true ∧ k.depth ≤ 4) := by
      rintro ⟨rfl, hdepth⟩
      have hcount := Counting.depth_of_opened hopened
      have hlevel := counter?_eq_none_iff.mp (hown.symm.trans hname)
      omega
    rw [if_neg hnot]
    refine ⟨⟨rfl, rfl, fun _ _ _ _ => rfl⟩, ?_⟩
    intro name h
    cases hname.symm.trans h
  | some name =>
    cases ordered with
    | false => cases hown.symm.trans hname
    | true =>
      have hlevel : counter? (opened.count true + 1) = some name := hown.symm.trans hname
      have hdepth : k.depth ≤ 4 := Counting.depth_of_opened hopened ▸ le_of_counter? hlevel
      rw [if_pos ⟨rfl, hdepth⟩, ← hat name hname]
      refine ⟨⟨rfl, rfl, ?_⟩, ?_⟩
      · intro d hd other hother
        exact Counting.counters_set_of_ne hother hlevel (by omega) _
      · intro other h
        have heq : name = other := Option.some.inj (hname.symm.trans h)
        rw [← heq]
        exact congrArg (· + 1) (Counting.counters_set_self _)

/-! ## A list ends -/

/-- A list that begins, goes on with its row and ends leaves the outer counters as they were. -/
theorem Begins.close {ordered : Bool} {first : Nat} (h : Begins ordered first k k') {row last : Counting}
    (hrow : Counts (k.opened.count true) k' row ns) (hlast : last = { row with opened := row.opened.tail }) :
    Counts k.depth k last ns where
  opened := by
    rw [hlast]
    show row.opened.tail = k.opened
    rw [hrow.opened, h.opened]
    rfl
  numbers := by
    rw [hlast]
    show row.numbers = k.numbers ++ ns
    rw [hrow.numbers, h.numbers]
  counters d hd name hname := by
    rw [hlast]
    exact (hrow.counters d hd name hname).trans (h.counters d hd name hname)

end Latex

end MarkupTree
