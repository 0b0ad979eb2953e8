-- Normalising an arena. The walk keeps the node it is at and a stack of the
-- nodes it goes on with later, and takes nodes out of the tree that it walks.
import MarkupTree.Arena.Edit

namespace MarkupTree

/-- A text with more text at its end. Other contents stay as they are. -/
def Content.lengthen (more : Text) : Content → Content
  | .text own => .text (own ++ more)
  | c => c

namespace Editing

/-- Writes what a text takes in from a follower: its literal, and its end if
that is known. -/
def takeIn (id : NodeId) (literal : Text) (stop : Position) : Editing Unit := do
  change id fun s => s.withContent (s.content.lengthen literal)
  if stop.known then change id fun s => { s with stop }

/-- In each turn the node takes in the text that follows it, until none does. -/
def merging (id : NodeId) : Loop Unit where
  turn _ := do
    match (← data id).next with
    | none => pure none
    | some next =>
      let follower ← data next
      match follower.content with
      | .text literal =>
        unlink next
        takeIn id literal follower.stop
        pure (some ())
      | _ => pure none

/-- Merges the texts that follow the node into it, one after the other. -/
def mergeFollowing (id : NodeId) : Editing Unit := (merging id).run (some ())

def mergeAt (id : NodeId) : Editing Unit := do
  if (← data id).content.kind = .text then mergeFollowing id

/-- The last node that was put on the stack, and the stack without it. -/
def popped : List NodeId → Option (NodeId × List NodeId)
  | [] => none
  | id :: stack => some (id, stack)

/-- The walk is at a node and has its stack. It goes on with the first child,
or else with the last node that was put on the stack. -/
def walking : Loop (NodeId × List NodeId) where
  turn place := do
    mergeAt place.1
    let s ← data place.1
    let stack := s.next.toList ++ place.2
    match s.firstChild with
    | some child => pure (some (child, stack))
    | none => pure (popped stack)

/-- Merges neighbouring texts everywhere under the root. -/
def normalize : Editing Unit := do
  walking.run ((← data Document.rootId).firstChild.map fun id => (id, []))

end Editing

end MarkupTree
