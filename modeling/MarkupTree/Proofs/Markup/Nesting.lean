-- Whether marks are properly nested, by the stack of open elements: an opening
-- mark pushes its element, and a closing mark must close the innermost one.
import MarkupTree.Proofs.Markup.Reading

namespace MarkupTree

namespace Markup

/-- The mark without its attributes. -/
def Mark.bare : Mark → Mark
  | .opening name _ => .opening name []
  | .closing name => .closing name
  | .void name _ => .void name []
  | .comment text => .comment text

/-- The elements open after the marks, given those open before, the innermost
first. A mark that closes another element than the innermost is refused. -/
def opened : List Text → List Mark → Option (List Text)
  | names, [] => some names
  | names, .opening name _ :: ms => opened (name :: names) ms
  | [], .closing _ :: _ => none
  | name :: names, .closing closed :: ms => if closed = name then opened names ms else none
  | names, .void _ _ :: ms | names, .comment _ :: ms => opened names ms

example : opened [] [.opening ['a'] [], .opening ['b'] [], .closing ['a']] = none := by decide

/-- Marks that leave open what was open before them, and nothing else. -/
def Balanced (ms : List Mark) : Prop := ∀ names, opened names ms = some names

theorem opened_append (names : List Text) (ms ns : List Mark) :
    opened names (ms ++ ns) = (opened names ms).bind fun after => opened after ns := by
  induction ms generalizing names with
  | nil => rfl
  | cons m ms ih =>
    cases m with
    | opening name as => exact ih _
    | closing closed =>
      rcases names with _ | ⟨name, names⟩
      · rfl
      · rw [List.cons_append, opened, opened]
        split
        · exact ih _
        · rfl
    | void name as => simpa only [List.cons_append, opened] using ih names
    | comment t => simpa only [List.cons_append, opened] using ih names

/-- Attributes play no part in the nesting. -/
theorem opened_bare (names : List Text) (ms : List Mark) :
    opened names (ms.map Mark.bare) = opened names ms := by
  induction ms generalizing names with
  | nil => rfl
  | cons m ms ih =>
    cases m with
    | opening name as => exact ih _
    | closing closed =>
      rcases names with _ | ⟨name, names⟩
      · rfl
      · rw [List.map_cons, Mark.bare, opened, opened, ih]
    | void name as => simpa only [List.map_cons, Mark.bare, opened] using ih names
    | comment t => simpa only [List.map_cons, Mark.bare, opened] using ih names

theorem balanced_nil : Balanced [] := fun _ => rfl

theorem Balanced.append {ms ns : List Mark} (hm : Balanced ms) (hn : Balanced ns) :
    Balanced (ms ++ ns) := by
  intro names
  rw [opened_append, hm names]
  exact hn names

/-- An element around balanced marks. -/
theorem Balanced.enclose {ms : List Mark} (h : Balanced ms) (name : Text)
    (attributes : List (Text × Text)) :
    Balanced (.opening name attributes :: (ms ++ [.closing name])) := by
  intro names
  rw [opened, opened_append, h (name :: names)]
  simp [opened]

theorem balanced_void (name : Text) (attributes : List (Text × Text)) :
    Balanced [.void name attributes] := fun _ => by simp only [opened]

theorem balanced_comment (t : Text) : Balanced [.comment t] := fun _ => by simp only [opened]

end Markup

end MarkupTree
