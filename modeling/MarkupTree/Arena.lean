-- An arena keeps the nodes of a document in one row of slots, in the order of
-- their making. A slot names its parent, its first and last child and its
-- neighbours by their numbers, and every edit is a few writes to such links.
-- So a run on an arena may break off with half of its writes done, may ask
-- for a slot that is not there, and may follow the links for ever.
import MarkupTree.Document

namespace MarkupTree

structure Slot where
  content : Content
  start : Position := .unknown
  stop : Position := .unknown
  parent : Option NodeId := none
  firstChild : Option NodeId := none
  lastChild : Option NodeId := none
  previous : Option NodeId := none
  next : Option NodeId := none
  deriving DecidableEq, Repr

namespace Slot

/-- The slot as a node, which has its number with it. -/
def label (id : NodeId) (s : Slot) : Node :=
  { id, content := s.content, start := s.start, stop := s.stop }

def withContent (content : Content) (s : Slot) : Slot := { s with content }

/-- The neighbour on that side. -/
def beside (side : Side) (s : Slot) : Option NodeId :=
  match side with
  | .before => s.previous
  | .after => s.next

def setBeside (side : Side) (id : Option NodeId) (s : Slot) : Slot :=
  match side with
  | .before => { s with previous := id }
  | .after => { s with next := id }

/-- The child at that end of the row of children. -/
def endChild (side : Side) (s : Slot) : Option NodeId :=
  match side with
  | .before => s.firstChild
  | .after => s.lastChild

def setEndChild (side : Side) (id : Option NodeId) (s : Slot) : Slot :=
  match side with
  | .before => { s with firstChild := id }
  | .after => { s with lastChild := id }

end Slot

structure Arena where
  slots : List Slot
  deriving DecidableEq, Repr

namespace Arena

/-- The arena with nothing but a root. -/
def new : Arena := ⟨[{ content := .document, start := ⟨1, 1⟩, stop := ⟨1, 1⟩ }]⟩

/-! ## Views -/

def count (a : Arena) : Nat := a.slots.length

def contains (a : Arena) (id : NodeId) : Bool := id < a.count

def slot? (a : Arena) (id : NodeId) : Option Slot := a.slots[id]?

def node? (a : Arena) (id : NodeId) : Option Node := (a.slot? id).map (Slot.label id)

def parent? (a : Arena) (id : NodeId) : Option NodeId := (a.slot? id).bind (·.parent)

def beside? (a : Arena) (side : Side) (id : NodeId) : Option NodeId :=
  (a.slot? id).bind (Slot.beside side)

def endChild? (a : Arena) (side : Side) (id : NodeId) : Option NodeId :=
  (a.slot? id).bind (Slot.endChild side)

def firstChild? (a : Arena) (id : NodeId) : Option NodeId := a.endChild? .before id

def lastChild? (a : Arena) (id : NodeId) : Option NodeId := a.endChild? .after id

def previous? (a : Arena) (id : NodeId) : Option NodeId := a.beside? .before id

def next? (a : Arena) (id : NodeId) : Option NodeId := a.beside? .after id

/-- The children from the first on, each reached from the one before it. -/
def children (a : Arena) (id : NodeId) : List NodeId :=
  Document.follow a.next? a.count (a.firstChild? id)

/-! ## Writes -/

def change (id : NodeId) (f : Slot → Slot) (a : Arena) : Arena := ⟨a.slots.modify id f⟩

def push (s : Slot) (a : Arena) : Arena := ⟨a.slots ++ [s]⟩

end Arena

/-- A run on an arena. What is written stays written when the run is refused.
There is no outcome at all if the run asks for a slot that is not there, or
if it never ends. -/
abbrev Editing := ExceptT EditError (StateT Arena Option)

namespace Editing

/-- The outcome of a run that begins with the arena, and the arena after it. -/
def on {α : Type} (m : Editing α) (a : Arena) : Option (Except EditError α × Arena) :=
  m.run.run a

/-- Breaks off for good. -/
def breakOff {α : Type} : Editing α := ExceptT.mk fun _ => none

def data (id : NodeId) : Editing Slot := do
  match (← get).slot? id with
  | some s => pure s
  | none => breakOff

def change (id : NodeId) (f : Slot → Slot) : Editing Unit := do
  let _ ← data id
  modify (Arena.change id f)

/-- A new slot without links. -/
def alloc (content : Content) (start stop : Position) : Editing NodeId := do
  let id := (← get).count
  modify (Arena.push { content, start, stop })
  pure id

/-- A loop. A turn at a place leads to the place of the next turn, or else ends
the loop. -/
structure Loop (σ : Type) where
  turn : σ → Editing (Option σ)

def Loop.run {σ : Type} (l : Loop σ) (place : Option σ) : Editing Unit :=
  match place with
  | none => pure ()
  | some s => do l |>.run (← l.turn s)
partial_fixpoint

end Editing

end MarkupTree
