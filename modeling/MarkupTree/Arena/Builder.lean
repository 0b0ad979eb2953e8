-- Building an arena from events. The builder keeps the numbers of the open
-- constructs in a stack and links each new node as the last child of the
-- innermost one. What an event carries, and when a list is loose, is decided
-- as it is for the assembly of a tree.
import MarkupTree.Arena.Edit
import MarkupTree.Event.Assembly

namespace MarkupTree

/-- An open construct. -/
structure Opening where
  id : NodeId
  /-- The offset at which the construct starts. -/
  offset : Nat
  /-- Whether it is a paragraph that no event started. -/
  implied : Bool
  deriving DecidableEq, Repr

structure Builder where
  /-- The open constructs, the innermost first. The last is the root. -/
  stack : List Opening
  /-- The end of the last inline. -/
  inlineEnd : Nat
  /-- The end of the last block that closed, without the blanks at its end. -/
  blockEnd : Nat
  deriving DecidableEq, Repr

/-- A list that is no longer tight. Other contents stay as they are. -/
def Content.loosen : Content → Content
  | .list style => .list { style with tight := false }
  | c => c

namespace Builder

open Editing

def begin : Builder where
  stack := [{ id := Document.rootId, offset := 0, implied := false }]
  inlineEnd := 0
  blockEnd := 0

/-! ## The stack -/

def top (b : Builder) : Editing Opening :=
  match b.stack with
  | o :: _ => pure o
  | [] => breakOff

def topSlot (b : Builder) : Editing Slot := do data (← b.top).id

def push (o : Opening) (b : Builder) : Builder := { b with stack := o :: b.stack }

/-- A new last child of the innermost construct. -/
def attach (content : Content) (start stop : Position) (b : Builder) : Editing NodeId := do
  let id ← alloc content start stop
  linkLast (← b.top).id id
  pure id

def close (s : Source) (id : NodeId) (start stop : Nat) : Editing Unit :=
  change id fun slot => { slot with stop := s.endPosition start stop }

/-- Closes an implied paragraph at the end of its last inline. -/
def leaveImplied (s : Source) (b : Builder) : Editing Builder := do
  let o ← b.top
  if o.implied then
    let stop := max b.inlineEnd o.offset
    close s o.id o.offset stop
    pure { b with stack := b.stack.tail, blockEnd := stop }
  else pure b

/-! ## Loose lists -/

def loosen (id : NodeId) : Editing Unit :=
  change id fun slot => slot.withContent slot.content.loosen

/-- An explicit paragraph directly in an item makes the list loose. -/
def loosenForParagraph (b : Builder) : Editing Unit := do
  let slot ← b.topSlot
  if slot.content.kind = .item then
    match slot.parent with
    | some list => loosen list
    | none => pure ()

/-- A blank line before a block that is not the first of its list or item
makes the list loose. -/
def loosenForBlank (s : Source) (start : Nat) (b : Builder) : Editing Unit := do
  let slot ← b.topSlot
  if slot.lastChild.isSome then
    let list ← match slot.content.kind with
      | .list => do pure (some (← b.top).id)
      | .item => pure slot.parent
      | _ => pure none
    match list with
    | some list => if s.blankBetween b.blockEnd start then loosen list
    | none => pure ()

/-! ## Blocks and inlines -/

/-- Opens a paragraph that no event started. -/
def enterImplied (s : Source) (start : Nat) (b : Builder) : Editing Builder := do
  b.loosenForBlank s start
  let p := s.position start
  let id ← b.attach .paragraph p p
  pure (b.push { id, offset := start, implied := true })

def enterBlock (s : Source) (content : Content) (start stop : Nat) (b : Builder) :
    Editing Builder := do
  let b ← b.leaveImplied s
  b.loosenForBlank s start
  let id ← b.attach content (s.position start) (s.endPosition start stop)
  pure (b.push { id, offset := start, implied := false })

/-- A new inline, in a paragraph of its own where the innermost construct
cannot hold it. -/
def attachInline (s : Source) (content : Content) (start stop : Nat) (b : Builder) :
    Editing (NodeId × Builder) := do
  let b ← if (← b.topSlot).content.kind.canContain content.kind then pure b
    else b.enterImplied s start
  let b := { b with inlineEnd := stop }
  let id ← b.attach content (s.position start) (s.endPosition start stop)
  pure (id, b)

def enterInline (s : Source) (content : Content) (start stop : Nat) (b : Builder) :
    Editing Builder := do
  let (id, b) ← b.attachInline s content start stop
  pure (b.push { id, offset := start, implied := false })

def leafInline (s : Source) (content : Content) (start stop : Nat) (b : Builder) :
    Editing Builder := do
  let (id, b) ← b.attachInline s content start stop
  close s id start stop
  pure b

/-- Adds to the literal of the innermost construct, or else makes a leaf. -/
def gather (s : Source) (t : Text) (content : Content) (start stop : Nat) (b : Builder) :
    Editing Builder := do
  match (← b.topSlot).content.gather? t with
  | some content =>
    change (← b.top).id (Slot.withContent content)
    pure b
  | none => b.leafInline s content start stop

/-! ## Events -/

def startTag (s : Source) (tag : Tag) (start stop : Nat) (b : Builder) : Editing Builder := do
  let content := tag.content s start
  match tag with
  | .paragraph =>
    let b ← b.leaveImplied s
    b.loosenForParagraph
    b.enterBlock s content start stop
  | _ =>
    if content.kind.isBlock then b.enterBlock s content start stop
    else b.enterInline s content start stop

def finishTag (s : Source) (stop : Nat) (b : Builder) : Editing Builder := do
  let b ← b.leaveImplied s
  match b.stack with
  | o :: o' :: os =>
    close s o.id o.offset stop
    let b := { b with stack := o' :: os }
    if (← data o.id).content.kind.isBlock then
      pure { b with blockEnd := s.trimmedEnd o.offset stop }
    else pure b
  | _ => pure b

def rule (s : Source) (start stop : Nat) (b : Builder) : Editing Builder := do
  let b ← b.leaveImplied s
  b.loosenForBlank s start
  let _ ← b.attach .thematicBreak (s.position start) (s.endPosition start stop)
  pure { b with blockEnd := s.trimmedEnd start stop }

def step (s : Source) (b : Builder) (m : Marked) : Editing Builder :=
  match m.event with
  | .start tag => b.startTag s tag m.start m.stop
  | .finish => b.finishTag s m.stop
  | .text t => b.gather s t (.text t) m.start m.stop
  | .html t => b.gather s t (.htmlInline t) m.start m.stop
  | .code t => b.leafInline s (.code t) m.start m.stop
  | .inlineHtml t => b.leafInline s (.htmlInline t) m.start m.stop
  | .softBreak => b.leafInline s .softBreak m.start m.stop
  | .hardBreak => b.leafInline s .lineBreak m.start m.stop
  | .rule => b.rule s m.start m.stop
  | .math _ t => b.leafInline s (.text t) m.start m.stop
  | .footnoteReference label =>
    b.leafInline s (.text ("[^".toList ++ label ++ "]".toList)) m.start m.stop
  -- task lists are never switched on
  | .taskMarker _ => pure b

def finish (s : Source) (b : Builder) : Editing Unit := do
  let _ ← b.leaveImplied s
  close s Document.rootId 0 s.bytes.length

def run (s : Source) (events : List Marked) (b : Builder) : Editing Builder :=
  events.foldlM (step s) b

end Builder

/-- The run that builds the events of a source, with the builder at its end. -/
def Editing.build (s : Source) (events : List Marked) : Editing Builder := do
  let b ← Builder.begin.run s events
  b.finish s
  pure b

end MarkupTree
