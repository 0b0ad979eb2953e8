-- The stack of open constructs with all that they tell: the content of each, its
-- place in the source, and what the nodes in it tell. Only numbers are left out.
import MarkupTree.Proofs.Event.Passages
import MarkupTree.Proofs.Event.Places

namespace MarkupTree

/-- What a node tells: all but its number. -/
abbrev Told := Content × Position × Position

def Node.told (n : Node) : Told := (n.content, n.start, n.stop)

/-- What the node tells for which the passage stands. -/
def Passage.told (s : Source) (p : Passage) : Told :=
  (p.content, s.position p.start, s.endPosition p.start p.stop)

/-! ## Open constructs -/

/-- An open construct, with all that it tells so far. -/
structure Opened where
  content : Content
  start : Position
  /-- The offset at which the construct starts. -/
  offset : Nat
  /-- Whether it is a paragraph that no event started. -/
  implied : Bool
  children : List (Rose Told)

namespace Opened

def push (b : Opened) (r : Rose Told) : Opened := { b with children := b.children ++ [r] }

def loosenIf (loose : Bool) (b : Opened) : Opened :=
  { b with content := b.content.loosenIf loose }

/-- The construct once it is closed. -/
def close (stop : Position) (b : Opened) : Rose Told :=
  .node (b.content, b.start, stop) b.children

/-- A construct that starts at an offset and holds the passages. -/
def ofPassages (s : Source) (c : Content) (offset : Nat) (implied : Bool)
    (row : List (Rose Passage)) : Opened :=
  ⟨c, s.position offset, offset, implied, Rose.mapRow (Passage.told s) row⟩

theorem push_ofPassages (s : Source) (c : Content) (offset : Nat) (implied : Bool)
    (row : List (Rose Passage)) (r : Rose Passage) :
    (ofPassages s c offset implied row).push (r.map (Passage.told s)) =
      ofPassages s c offset implied (row ++ [r]) := by
  simp [ofPassages, push, Rose.mapRow_eq]

/-- The stack with the innermost construct loosened. -/
def loosenHead (loose : Bool) : List Opened → List Opened
  | [] => []
  | b :: bs => b.loosenIf loose :: bs

end Opened

namespace Content

theorem gather?_eq_taking {t : Text} {c c' : Content} (h : c.gather? t = some c') : c' = c.taking t := by
  cases c <;> simp only [gather?, Option.some.injEq, reduceCtorEq] at h <;> subst h <;> rfl

end Content

namespace Opened

theorem loosenHead_false (bs : List Opened) : loosenHead false bs = bs := by
  cases bs <;> rfl

theorem loosenHead_or (a b : Bool) (bs : List Opened) :
    loosenHead (a || b) bs = loosenHead b (loosenHead a bs) := by
  cases bs with
  | nil => rfl
  | cons x bs => simp [loosenHead, loosenIf, Content.loosenIf_or]

end Opened

namespace Frame

def opened (f : Frame) : Opened :=
  ⟨f.node.content, f.node.start, f.offset, f.implied,
    f.children.reverse.map (Tree.rose Node.told)⟩

theorem opened_push (f : Frame) (t : Tree) :
    (f.push t).opened = f.opened.push (t.rose Node.told) := by
  simp [opened, push, Opened.push]

theorem opened_loosen (f : Frame) : f.loosen.opened = f.opened.loosenIf true := by
  unfold loosen
  split
  · rename_i style hc
    simp [opened, Opened.loosenIf, Content.loosenIf, Content.loosened, hc]
  · rename_i hc
    have hsame : f.node.content.loosened = f.node.content := by
      cases h : f.node.content <;> first | rfl | exact absurd h (hc _)
    simp [opened, Opened.loosenIf, Content.loosenIf, hsame]

theorem rose_close (f : Frame) (stop : Position) :
    Tree.rose Node.told { f.tree with node := { f.node with stop } } = f.opened.close stop := by
  rw [Tree.rose, tree, Forest.roses_ofTrees]
  rfl

end Frame

namespace Assembly

/-- The open constructs, the innermost first. -/
def opened (a : Assembly) : List Opened := (a.top :: a.below).map Frame.opened

variable {a : Assembly} {b c : Opened} {bs : List Opened}

theorem top_of_opened (h : a.opened = b :: bs) :
    a.top.opened = b ∧ a.below.map Frame.opened = bs := List.cons.inj h

theorem kind_of_opened (h : a.opened = b :: bs) : a.top.kind = b.content.kind :=
  congrArg (fun o : Opened => o.content.kind) (top_of_opened h).1

theorem implied_of_opened (h : a.opened = b :: bs) : a.top.implied = b.implied :=
  congrArg Opened.implied (top_of_opened h).1

theorem offset_of_opened (h : a.opened = b :: bs) : a.top.offset = b.offset :=
  congrArg Opened.offset (top_of_opened h).1

theorem isEmpty_of_opened (h : a.opened = b :: bs) :
    a.top.children.isEmpty = b.children.isEmpty := by
  rw [← (top_of_opened h).1]
  simp [Frame.opened]

/-! ## Each operation -/

theorem opened_leaf (n : Node) (h : a.opened = b :: bs) :
    (a.leaf n).opened = b.push (.node n.told []) :: bs := by
  obtain ⟨htop, hbelow⟩ := top_of_opened h
  rw [leaf, opened, List.map_cons, hbelow, Frame.opened_push, htop]
  rfl

theorem opened_enter (n : Node) (offset : Nat) (implied : Bool) (a : Assembly) :
    (a.enter n offset implied).opened =
      ⟨n.content, n.start, offset, implied, []⟩ :: a.opened := rfl

theorem opened_leave (stop : Position) (h : a.opened = b :: c :: bs) :
    (a.leave stop).opened = c.push (b.close stop) :: bs := by
  obtain ⟨htop, hbelow⟩ := top_of_opened h
  rcases hb : a.below with _ | ⟨f, fs⟩
  · rw [hb] at hbelow
    cases hbelow
  · rw [hb, List.map_cons] at hbelow
    obtain ⟨hf, hfs⟩ := List.cons.inj hbelow
    have hclosed := Frame.rose_close a.top stop
    simp only [leave, hb, opened, List.map_cons, hfs, Frame.opened_push, hf]
    rw [← htop, ← hclosed]

theorem opened_loosenBelow (h : a.opened = b :: bs) :
    a.loosenBelow.opened = b :: Opened.loosenHead true bs := by
  obtain ⟨htop, hbelow⟩ := top_of_opened h
  unfold loosenBelow
  split
  · rename_i hb
    rw [hb] at hbelow
    rw [h, ← hbelow]
    rfl
  · rename_i f fs hb
    rw [hb, List.map_cons] at hbelow
    rw [opened, List.map_cons, List.map_cons, htop, Frame.opened_loosen, ← hbelow]
    rfl

/-- A code or HTML block takes a text into its literal. -/
theorem opened_gather (s : Source) (t : Text) (content : Content) (start stop : Nat)
    (h : a.opened = b :: bs) (hkind : b.content.kind = .codeBlock ∨ b.content.kind = .htmlBlock) :
    (a.gather s t content start stop).opened = { b with content := b.content.taking t } :: bs ∧
      (a.gather s t content start stop).blockEnd = a.blockEnd := by
  obtain ⟨htop, hbelow⟩ := top_of_opened h
  have hcontent : a.top.node.content = b.content := congrArg Opened.content htop
  unfold gather
  split
  · rename_i c hc
    rw [hcontent] at hc
    refine ⟨?_, rfl⟩
    rw [opened, List.map_cons, hbelow, ← Content.gather?_eq_taking hc]
    exact congrArg (fun x : Opened => { x with content := c } :: bs) htop
  · rename_i hc
    rw [hcontent] at hc
    exact absurd hc (Content.gather?_ne_none hkind)

end Assembly

end MarkupTree
