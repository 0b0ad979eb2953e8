-- The element that a content becomes in XML, and the content that can be read
-- off an element. What is lost on the way are the marker of a list, the start
-- of a bullet list, and whether an empty info string is one.
import MarkupTree.Proofs.Forest.Roses
import MarkupTree.Proofs.Markup.Reading
import MarkupTree.Proofs.Markup.References
import MarkupTree.Xml.Elements

namespace MarkupTree

namespace Xml

/-! ## Elements -/

/-- An element without what stands inside it, but with its text if it holds
text. The values of the attributes are those that are meant. -/
structure Element where
  name : Text
  attributes : List (Text × Text)
  literal : Option Text
  deriving DecidableEq, Repr

/-- The properties of a content, by the names of their attributes. -/
def properties : Content → List (Text × Text)
  | .document => [("xmlns".toList, nameSpace)]
  | .codeBlock info _ => (info.toList.filter (· ≠ [])).map fun t => ("info".toList, t)
  | .list style =>
    match style.kind with
    | .ordered =>
      ("type".toList, "ordered".toList) :: ("start".toList, Text.ofNat style.start) ::
        (style.delimiter.toList.map fun d => ("delim".toList, d.name)) ++
        [("tight".toList, boolName style.tight)]
    | .bullet => [("type".toList, "bullet".toList), ("tight".toList, boolName style.tight)]
  | .heading level => [("level".toList, Text.ofNat level)]
  | .customBlock onEnter onExit | .customInline onEnter onExit =>
    [("on_enter".toList, onEnter), ("on_exit".toList, onExit)]
  | .link url title | .image url title => [("destination".toList, url), ("title".toList, title)]
  | _ => []

/-- The attribute that keeps the blanks of a literal. -/
def keepBlanks (literal : Option Text) : List (Text × Text) :=
  literal.toList.map fun _ => ("xml:space".toList, "preserve".toList)

def element (c : Content) : Element :=
  ⟨c.kind.name, properties c ++ keepBlanks c.literal?, c.literal?⟩

/-! ## Contents read off elements -/

/-- What a content keeps in XML. -/
def essence : Content → Content
  | .list style =>
    match style.kind with
    | .ordered => .list { style with bullet := '-' }
    | .bullet => .list { tight := style.tight }
  | .codeBlock info literal => .codeBlock (info.filter (· ≠ [])) literal
  | c => c

namespace Element

def value? (e : Element) (name : String) : Option Text := e.attributes.lookup name.toList

/-- The value of an attribute, empty if there is none. -/
def value (e : Element) (name : String) : Text := (e.value? name).getD []

def number (e : Element) (name : String) : Nat := Nat.ofDigitChars 10 (e.value name) 0

def style (e : Element) : ListStyle :=
  if e.value "type" = "ordered".toList then
    { kind := .ordered
      start := e.number "start"
      delimiter := [Delimiter.period, .paren].find? fun d => e.value? "delim" == some d.name
      tight := e.value "tight" == "true".toList }
  else { tight := e.value "tight" == "true".toList }

/-- The content that an element stands for. -/
def content (e : Element) : Content :=
  let text := e.literal.getD []
  match (Kind.ofName? e.name).getD .document with
  | .list => .list e.style
  | .codeBlock => .codeBlock (e.value? "info") text
  | .htmlBlock => .htmlBlock text
  | .customBlock => .customBlock (e.value "on_enter") (e.value "on_exit")
  | .heading => .heading (e.number "level")
  | .text => .text text
  | .code => .code text
  | .htmlInline => .htmlInline text
  | .customInline => .customInline (e.value "on_enter") (e.value "on_exit")
  | .link => .link (e.value "destination") (e.value "title")
  | .image => .image (e.value "destination") (e.value "title")
  | kind => .ofKind kind

end Element

theorem ofName?_name (k : Kind) : Kind.ofName? k.name = some k := by
  cases k <;> decide

/-- Nothing that a content keeps is lost in its element. -/
theorem content_element (c : Content) : (element c).content = essence c := by
  have hkind : (Kind.ofName? (element c).name).getD .document = c.kind := by
    rw [element, ofName?_name]
    rfl
  unfold Element.content
  rw [hkind]
  cases c with
  | list style =>
    obtain ⟨kind, start, delimiter, bullet, tight⟩ := style
    cases kind with
    | bullet => cases tight <;> rfl
    | ordered =>
      have hstart (d : Option Delimiter) (b : Bool) :=
        congrArg (fun n => Content.list ⟨.ordered, n, d, '-', b⟩)
          (Nat.ofDigitChars_ten_toDigits (n := start))
      rcases delimiter with _ | _ | _ <;> cases tight <;> exact hstart _ _
  | codeBlock info literal => rcases info with _ | _ | ⟨c, cs⟩ <;> rfl
  | heading level => exact congrArg Content.heading Nat.ofDigitChars_ten_toDigits
  | _ => rfl

/-- What a content does not keep has no part in its element. -/
theorem element_essence (c : Content) : element (essence c) = element c := by
  cases c with
  | list style =>
    obtain ⟨kind, start, delimiter, bullet, tight⟩ := style
    cases kind <;> rfl
  | codeBlock info literal => rcases info with _ | _ | ⟨c, cs⟩ <;> rfl
  | _ => rfl

end Xml

end MarkupTree
