-- Event lists as grammars make them. An outline is such a list with its
-- nesting made visible: a construct encloses the outline of what stands
-- between its start and its finish. What may stand where is a question of
-- the place alone.
import MarkupTree.Event

namespace MarkupTree

inductive Outline
  | nil
  | leaf (start stop : Nat) (event : Event) (next : Outline)
  /-- A construct, with the bytes of its start and those of its finish. -/
  | enclose (tag : Tag) (start stop finishStart finishStop : Nat) (inside next : Outline)
  deriving DecidableEq, Repr

/-! ## Places -/

/-- Whether the event is an inline of CommonMark without anything inside. -/
def Event.isInline : Event → Bool
  | .text _ | .code _ | .html _ | .inlineHtml _ | .softBreak | .hardBreak => true
  | _ => false

def Tag.isInline : Tag → Bool
  | .emphasis | .strong | .link _ _ _ | .image _ _ _ => true
  | _ => false

/-- Whether the tag is one of a block that stands among blocks. The levels of
headings are 1 to 6. -/
def Tag.isBlock : Tag → Bool
  | .paragraph | .blockQuote | .codeBlock _ | .htmlBlock | .list _ => true
  | .heading level => decide (1 ≤ level ∧ level ≤ 6)
  | _ => false

inductive Place
  | blocks
  | items
  /-- In an item, where blocks and inlines mix. -/
  | mixed
  | inlines
  | codeText
  | htmlText
  deriving DecidableEq, Repr

namespace Place

/-- Whether the event may stand alone at the place. -/
def takesEvent : Place → Event → Bool
  | .blocks, e => e == .rule
  | .mixed, e => e == .rule || e.isInline
  | .inlines, e => e.isInline
  | .codeText, .text _ | .htmlText, .text _ | .htmlText, .html _ => true
  | _, _ => false

/-- Whether a construct with the tag may stand at the place. -/
def takesTag : Place → Tag → Bool
  | .blocks, t => t.isBlock
  | .items, t => t == .item
  | .mixed, t => t.isBlock || t.isInline
  | .inlines, t => t.isInline
  | _, _ => false

end Place

/-- The place inside a construct. -/
def Tag.place : Tag → Place
  | .paragraph | .heading _ | .emphasis | .strong | .link _ _ _ | .image _ _ _
  | .extension .strikethrough | .extension .superscript | .extension .subscript => .inlines
  | .codeBlock _ => .codeText
  | .htmlBlock => .htmlText
  | .blockQuote | .extension _ => .blocks
  | .list _ => .items
  | .item => .mixed

/-! ## Nesting -/

namespace Outline

/-- The event list of an outline. -/
def events : Outline → List Marked
  | .nil => []
  | .leaf start stop event next => ⟨start, stop, event⟩ :: next.events
  | .enclose tag start stop finishStart finishStop inside next =>
    ⟨start, stop, .start tag⟩ ::
      (inside.events ++ ⟨finishStart, finishStop, .finish⟩ :: next.events)

/-- Whether each event of the outline stands where one of its kind may. -/
def fits : Place → Outline → Bool
  | _, .nil => true
  | p, .leaf _ _ event next => p.takesEvent event && next.fits p
  | p, .enclose tag _ _ _ _ inside next =>
    p.takesTag tag && inside.fits tag.place && next.fits p

/-- A tight list, whose item holds a text without a paragraph. -/
example : (Outline.enclose (.list none) 0 3 0 3
    (.enclose .item 0 3 0 3 (.leaf 2 3 (.text ['a']) .nil) .nil) .nil).fits .blocks = true := by
  decide

end Outline

end MarkupTree
