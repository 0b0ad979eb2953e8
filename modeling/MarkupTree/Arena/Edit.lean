-- Edits of an arena. A move first looks whether it is allowed, then takes the
-- node out of the row it stands in and puts it into its new place. Each of
-- these is a few reads and writes of links, in a fixed order.
import MarkupTree.Arena

namespace MarkupTree

namespace Editing

/-! ## Links -/

/-- Writes the link that leads to a place in a row from that side of it. It
belongs to the neighbour there, or else to the parent. -/
def lead (side : Side) (neighbour parent target : Option NodeId) : Editing Unit :=
  match neighbour with
  | some other => change other (Slot.setBeside side.opposite target)
  | none =>
    match parent with
    | some p => change p (Slot.setEndChild side target)
    | none => pure ()

/-- Takes a node with its subtree out of its row. -/
def unlink (id : NodeId) : Editing Unit := do
  let s ← data id
  lead .before s.previous s.parent s.next
  lead .after s.next s.parent s.previous
  change id fun s => { s with parent := none, previous := none, next := none }

/-- Makes a node that stands alone the child at one end of the row. -/
def linkEnd (side : Side) (parent child : NodeId) : Editing Unit := do
  let old := (← data parent).endChild side
  change child fun s => { s with parent := some parent }.setBeside side.opposite old
  lead side.opposite old (some parent) (some child)
  change parent (Slot.setEndChild side (some child))

/-- The last child has nothing after it, whatever its slot said before. -/
def linkLast (parent child : NodeId) : Editing Unit := do
  change child fun s => { s with next := none }
  linkEnd .after parent child

/-- Makes a node that stands alone the neighbour of `anchor` on that side. -/
def linkBeside (side : Side) (parent anchor node : NodeId) : Editing Unit := do
  let far := (← data anchor).beside side
  change node fun s =>
    ({ s with parent := some parent }.setBeside side far).setBeside side.opposite (some anchor)
  change anchor (Slot.setBeside side (some node))
  lead side far (some parent) (some node)

/-! ## Whether a move is allowed -/

/-- Refuses the first of the numbers that the arena does not have. -/
def checkKnown : List NodeId → Editing Unit
  | [] => pure ()
  | id :: ids => do if (← get).contains id then checkKnown ids else throw (.unknownNode id)

/-- The way upward. It must not come to `child`. -/
def climbing (child : NodeId) : Loop NodeId where
  turn id :=
    if id = child then throw (.ownSubtree child) else do pure (← data id).parent

/-- Goes upward from `place` and refuses `child` if it is met. -/
def climb (child : NodeId) (place : Option NodeId) : Editing Unit := (climbing child).run place

/-- Whether `child` may become a child of `parent`. -/
def checkInsert (parent child : NodeId) : Editing Unit := do
  checkKnown [parent, child]
  if child = Document.rootId then throw .rootFixed
  let p := (← data parent).content.kind
  let c := (← data child).content.kind
  if !p.canContain c then throw (.cannotContain p c)
  climb child (some parent)

/-- The parent that a sibling of `anchor` gets. -/
def siblingParent (anchor node : NodeId) : Editing NodeId := do
  checkKnown [anchor, node]
  if anchor = Document.rootId ∨ node = Document.rootId then throw .rootFixed
  match (← data anchor).parent with
  | some parent => pure parent
  | none => throw (.detachedAnchor anchor)

/-! ## Moves -/

def create (kind : Kind) : Editing NodeId := do
  if kind = .document then throw (.cannotContain .document .document)
  alloc (.ofKind kind) .unknown .unknown

def appendChild (parent child : NodeId) : Editing Unit := do
  checkInsert parent child
  unlink child
  linkLast parent child

def prependChild (parent child : NodeId) : Editing Unit := do
  checkInsert parent child
  unlink child
  linkEnd .before parent child

/-- Moves `node` directly to that side of `anchor`. -/
def insertBeside (side : Side) (anchor node : NodeId) : Editing Unit := do
  let parent ← siblingParent anchor node
  if anchor ≠ node then
    checkInsert parent node
    unlink node
    linkBeside side parent anchor node

def detach (id : NodeId) : Editing Unit := do
  checkKnown [id]
  if id = Document.rootId then throw .rootFixed
  unlink id

/-! ## Properties -/

/-- Writes the part of the content that a property stands for, where there is
such a part. -/
def update (id : NodeId) (property : Property) (f : Content → Option Content) : Editing Unit := do
  let c := (← data id).content
  match f c with
  | some content => change id (Slot.withContent content)
  | none => throw (.notApplicable c.kind property)

def setHeadingLevel (id : NodeId) (level : Nat) : Editing Unit := do
  match (← data id).content with
  | .heading _ =>
    if ¬ (1 ≤ level ∧ level ≤ 6) then throw (.levelOutOfRange level)
    change id (Slot.withContent (.heading level))
  | c => throw (.notApplicable c.kind .headingLevel)

def updateStyle (id : NodeId) (property : Property) (f : ListStyle → ListStyle) : Editing Unit :=
  update id property (Content.setStyle f)

/-- Writes the kind, and then what has to go with it. -/
def setListType (id : NodeId) (kind : ListKind) : Editing Unit := do
  updateStyle id .listType fun style => { style with kind }
  match kind with
  | .bullet => updateStyle id .listType fun style => { style with delimiter := none }
  | .ordered =>
    updateStyle id .listType fun style =>
      { style with delimiter := some (style.delimiter.getD .period) }
    updateStyle id .listType fun style => if style.start = 0 then { style with start := 1 } else style

def setListDelim (id : NodeId) (delimiter : Delimiter) : Editing Unit := do
  match (← data id).content with
  | .list style =>
    if style.kind = .bullet then throw .delimiterOfBullets
    change id (Slot.withContent (.list { style with delimiter := some delimiter }))
  | c => throw (.notApplicable c.kind .listDelim)

def set (id : NodeId) (change : Change) : Editing Unit :=
  match change with
  | .literal v => update id .literal (Content.setLiteral (v.getD []))
  | .headingLevel level => setHeadingLevel id level
  | .listType kind => setListType id kind
  | .listStart start => updateStyle id .listStart fun style => { style with start }
  | .listDelim delimiter => setListDelim id delimiter
  | .listTight tight => updateStyle id .listTight fun style => { style with tight }
  | .fenceInfo v => update id .fenceInfo (Content.setFenceInfo v)
  | .url v => update id .url (Content.setUrl (v.getD []))
  | .title v => update id .title (Content.setTitle (v.getD []))
  | .onEnter v => update id .onEnter (Content.setOnEnter (v.getD []))
  | .onExit v => update id .onExit (Content.setOnExit (v.getD []))

end Editing

end MarkupTree
