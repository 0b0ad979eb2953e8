-- Changing one property of a node. A change that does not apply to the kind
-- of the node, or whose value is out of range, is refused.
import MarkupTree.EditError

namespace MarkupTree

/-- A property with its new value. A text of `none` clears the property. -/
inductive Change
  | literal (value : Option Text)
  | headingLevel (level : Nat)
  | listType (kind : ListKind)
  | listStart (start : Nat)
  | listDelim (delimiter : Delimiter)
  | listTight (tight : Bool)
  | fenceInfo (value : Option Text)
  | url (value : Option Text)
  | title (value : Option Text)
  | onEnter (value : Option Text)
  | onExit (value : Option Text)
  deriving DecidableEq, Repr

def Change.property : Change → Property
  | .literal _ => .literal
  | .headingLevel _ => .headingLevel
  | .listType _ => .listType
  | .listStart _ => .listStart
  | .listDelim _ => .listDelim
  | .listTight _ => .listTight
  | .fenceInfo _ => .fenceInfo
  | .url _ => .url
  | .title _ => .title
  | .onEnter _ => .onEnter
  | .onExit _ => .onExit

/-- A list that becomes ordered has a delimiter and counts from one at least;
a list that becomes a bullet list has no delimiter. -/
def ListStyle.ofKind (s : ListStyle) : ListKind → ListStyle
  | .bullet => { s with kind := .bullet, delimiter := none }
  | .ordered =>
    { s with
      kind := .ordered
      delimiter := some (s.delimiter.getD .period)
      start := if s.start = 0 then 1 else s.start }

namespace Content

def setLiteral (t : Text) : Content → Option Content
  | .codeBlock info _ => some (.codeBlock info t)
  | .htmlBlock _ => some (.htmlBlock t)
  | .text _ => some (.text t)
  | .code _ => some (.code t)
  | .htmlInline _ => some (.htmlInline t)
  | _ => none

def setStyle (f : ListStyle → ListStyle) : Content → Option Content
  | .list style => some (.list (f style))
  | _ => none

def setFenceInfo (info : Option Text) : Content → Option Content
  | .codeBlock _ t => some (.codeBlock info t)
  | _ => none

def setUrl (t : Text) : Content → Option Content
  | .link _ title => some (.link t title)
  | .image _ title => some (.image t title)
  | _ => none

def setTitle (t : Text) : Content → Option Content
  | .link url _ => some (.link url t)
  | .image url _ => some (.image url t)
  | _ => none

def setOnEnter (t : Text) : Content → Option Content
  | .customBlock _ onExit => some (.customBlock t onExit)
  | .customInline _ onExit => some (.customInline t onExit)
  | _ => none

def setOnExit (t : Text) : Content → Option Content
  | .customBlock onEnter _ => some (.customBlock onEnter t)
  | .customInline onEnter _ => some (.customInline onEnter t)
  | _ => none

/-- The content after a change, or why the change is refused. Whether the
property applies is settled before its value is looked at. -/
def apply (c : Content) (change : Change) : Except EditError Content :=
  let orRefused (r : Option Content) : Except EditError Content :=
    match r with
    | some c' => .ok c'
    | none => .error (.notApplicable c.kind change.property)
  match change with
  | .literal v => orRefused (c.setLiteral (v.getD []))
  | .headingLevel level =>
    match c with
    | .heading _ =>
      if 1 ≤ level ∧ level ≤ 6 then .ok (.heading level) else .error (.levelOutOfRange level)
    | _ => orRefused none
  | .listType kind => orRefused (c.setStyle (·.ofKind kind))
  | .listStart start => orRefused (c.setStyle fun s => { s with start })
  | .listDelim delimiter =>
    match c with
    | .list style =>
      if style.kind = .bullet then .error .delimiterOfBullets
      else .ok (.list { style with delimiter := some delimiter })
    | _ => orRefused none
  | .listTight tight => orRefused (c.setStyle fun s => { s with tight })
  | .fenceInfo v => orRefused (c.setFenceInfo v)
  | .url v => orRefused (c.setUrl (v.getD []))
  | .title v => orRefused (c.setTitle (v.getD []))
  | .onEnter v => orRefused (c.setOnEnter (v.getD []))
  | .onExit v => orRefused (c.setOnExit (v.getD []))

end Content

end MarkupTree
