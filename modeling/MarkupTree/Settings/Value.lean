-- The values that a settings file holds once its notation is understood, and
-- how the settings are read from them.
import MarkupTree.Options
import MarkupTree.Output

namespace MarkupTree

namespace Settings

inductive Value
  | bool (b : Bool)
  | int (n : Int)
  | text (t : Text)
  | float (t : Text)
  | date (t : Text)
  | array (values : List Value)
  | table (fields : List (Text × Value))
  deriving Repr

/-- The value of a field, if the table has it. -/
def field? (name : Text) (fields : List (Text × Value)) : Option Value :=
  (fields.find? fun f => f.1 == name).map (·.2)

/-- A value that stands for a record, by the names of its fields and by their
order. A date is a record without any known field. -/
inductive Record
  | named (fields : List (Text × Value))
  | listed (values : List Value)

def Value.record? : Value → Option Record
  | .table fields => some (.named fields)
  | .array values => some (.listed values)
  | .date _ => some (.named [])
  | _ => none

/-- The value of one field of a record. Fields that are not known, and values
past the last field, are not looked at. -/
def Record.get? (name : Text) (index : Nat) : Record → Option Value
  | .named fields => field? name fields
  | .listed values => values[index]?

/-! ## Flags -/

/-- The options with one flag read from its value. An absent value leaves the
flag off; a value that is not a truth value is an error. -/
def readFlag (o : Options) (f : Flag) : Option Value → Option Options
  | none => some o
  | some (.bool b) => some (o.set b f)
  | some _ => none

/-- Reads the flags, the first of which stands at `index`. -/
def readFlags (r : Record) (index : Nat) (o : Options) : List Flag → Option Options
  | [] => some o
  | f :: fs => (readFlag o f (r.get? f.name index)).bind fun o => readFlags r (index + 1) o fs

def readOptions : Option Value → Option Options
  | none => some {}
  | some v => v.record?.bind fun r => readFlags r 0 {} Flag.all

/-! ## Width -/

/-- A width is a number of 64 bits. -/
def readWidth : Option Value → Option Nat
  | none => some Output.defaultWidth
  | some (.int n) => if 0 ≤ n ∧ n < 0x10000000000000000 then some n.toNat else none
  | some _ => none

def readRender : Option Value → Option Nat
  | none => some Output.defaultWidth
  | some v => v.record?.bind fun r => readWidth (r.get? "width".toList 0)

end Settings

end MarkupTree
