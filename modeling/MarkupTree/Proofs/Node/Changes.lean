-- A change of a property gives a node another content of the same kind.
import MarkupTree.Node.Change

namespace MarkupTree

namespace Content

/-! ## The setters keep the kind -/

variable {c c' : Content}

theorem kind_setLiteral {t : Text} (h : c.setLiteral t = some c') : c'.kind = c.kind := by
  cases c <;> cases h <;> rfl

theorem kind_setStyle {f : ListStyle → ListStyle} (h : c.setStyle f = some c') :
    c'.kind = c.kind := by
  cases c <;> cases h
  rfl

theorem kind_setFenceInfo {info : Option Text} (h : c.setFenceInfo info = some c') :
    c'.kind = c.kind := by
  cases c <;> cases h
  rfl

theorem kind_setUrl {t : Text} (h : c.setUrl t = some c') : c'.kind = c.kind := by
  cases c <;> cases h <;> rfl

theorem kind_setTitle {t : Text} (h : c.setTitle t = some c') : c'.kind = c.kind := by
  cases c <;> cases h <;> rfl

theorem kind_setOnEnter {t : Text} (h : c.setOnEnter t = some c') : c'.kind = c.kind := by
  cases c <;> cases h <;> rfl

theorem kind_setOnExit {t : Text} (h : c.setOnExit t = some c') : c'.kind = c.kind := by
  cases c <;> cases h <;> rfl

/-- An optional content as an outcome, refused for want of one. -/
theorem eq_some_of_orRefused {r : Option Content} {e : EditError}
    (h : (match r with
      | some c' => Except.ok c'
      | none => Except.error e) = Except.ok c') : r = some c' := by
  cases r with
  | none => cases h
  | some c'' => cases h; rfl

theorem kind_apply {change : Change} (h : c.apply change = .ok c') : c'.kind = c.kind := by
  unfold apply at h
  cases change with
  | literal v => exact kind_setLiteral (eq_some_of_orRefused h)
  | headingLevel level =>
    cases c <;> simp only [reduceCtorEq] at h
    split at h <;> cases h
    rfl
  | listType kind => exact kind_setStyle (eq_some_of_orRefused h)
  | listStart start => exact kind_setStyle (eq_some_of_orRefused h)
  | listDelim delimiter =>
    cases c <;> simp only [reduceCtorEq] at h
    split at h <;> cases h
    rfl
  | listTight tight => exact kind_setStyle (eq_some_of_orRefused h)
  | fenceInfo v => exact kind_setFenceInfo (eq_some_of_orRefused h)
  | url v => exact kind_setUrl (eq_some_of_orRefused h)
  | title v => exact kind_setTitle (eq_some_of_orRefused h)
  | onEnter v => exact kind_setOnEnter (eq_some_of_orRefused h)
  | onExit v => exact kind_setOnExit (eq_some_of_orRefused h)

end Content

end MarkupTree
