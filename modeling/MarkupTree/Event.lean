-- What a grammar finds in a text: a list of events, each with the bytes of
-- the text that it stands for. The start and the finish of a construct
-- enclose the events of what stands inside it.
import MarkupTree.Text.Basic

namespace MarkupTree

/-- A construct that goes beyond CommonMark. Its node is a custom one. -/
inductive Extension
  | strikethrough
  | superscript
  | subscript
  | footnoteDefinition
  | definitionList
  | definitionTitle
  | definitionBody
  | table
  | tableHead
  | tableRow
  | tableCell
  | metadata
  deriving DecidableEq, Repr

inductive Tag
  | paragraph
  | heading (level : Nat)
  | blockQuote
  /-- An info string stands for a fenced block, none for an indented one. -/
  | codeBlock (info : Option Text)
  | htmlBlock
  /-- A number stands for an ordered list, none for a bullet list. -/
  | list (start : Option Nat)
  | item
  | emphasis
  | strong
  /-- An e-mail address in angle brackets is a link too. -/
  | link (email : Bool) (url title : Text)
  | image (email : Bool) (url title : Text)
  | extension (e : Extension)
  deriving DecidableEq, Repr

inductive Event
  | start (tag : Tag)
  | finish
  | text (text : Text)
  | code (text : Text)
  | html (text : Text)
  | inlineHtml (text : Text)
  | softBreak
  | hardBreak
  | rule
  /-- A formula in a line, or one on lines of its own. -/
  | math (display : Bool) (text : Text)
  | footnoteReference (label : Text)
  | taskMarker (checked : Bool)
  deriving DecidableEq, Repr

/-- An event with the bytes from `start` to `stop` that it stands for. -/
structure Marked where
  start : Nat
  stop : Nat
  event : Event
  deriving DecidableEq, Repr

/-- A grammar finds the events of a text, with or without typographic
quotes and dashes. -/
abbrev Grammar := (smart : Bool) → Text → List Marked

end MarkupTree
