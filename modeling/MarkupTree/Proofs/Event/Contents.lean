-- Properties of contents that last: new nodes have them, the lists of a source
-- have them, and no change of a property takes them away. Whatever the events,
-- every node that they build has such a property, if the levels of headings
-- are in range.
import MarkupTree.Event.Assembly
import MarkupTree.Proofs.Event.Outline
import MarkupTree.Proofs.Forest.Rows

namespace MarkupTree

structure Lasting (P : Content → Prop) : Prop where
  made : ∀ k, P (.ofKind k)
  listed : ∀ s start offset, P (.list (listStyle s start offset))
  changed : ∀ {c c'} (change : Change), P c → c.apply change = .ok c' → P c'

/-- Whether the level, if the tag has one, is one of 1 to 6. -/
def Tag.isLevelled : Tag → Bool
  | .heading level => decide (1 ≤ level ∧ level ≤ 6)
  | _ => true

def Event.isLevelled : Event → Bool
  | .start tag => tag.isLevelled
  | _ => true

/-- Every node of the forest has a content with the property. -/
def Forest.Holds (P : Content → Prop) (f : Forest) : Prop := ∀ n ∈ f.nodes, P n.content

variable {P : Content → Prop}

/-! ## What has the property -/

namespace Lasting

variable (h : Lasting P)

include h

theorem setLiteral {c c' : Content} {t : Text} (hc : P c) (hset : c.setLiteral t = some c') :
    P c' := h.changed (.literal (some t)) hc (by simp [Content.apply, hset])

theorem text (t : Text) : P (.text t) := h.setLiteral (h.made .text) rfl

theorem code (t : Text) : P (.code t) := h.setLiteral (h.made .code) rfl

theorem htmlInline (t : Text) : P (.htmlInline t) := h.setLiteral (h.made .htmlInline) rfl

theorem gathered {c c' : Content} {t : Text} (hc : P c) (hg : c.gather? t = some c') : P c' := by
  cases c <;> cases hg <;> exact h.setLiteral hc rfl

theorem loosened {style : ListStyle} (hc : P (.list style)) :
    P (.list { style with tight := false }) := h.changed (.listTight false) hc rfl

/-- The content of a tag is a new one with its properties set. -/
theorem tag {t : Tag} (ht : t.isLevelled = true) (s : Source) (offset : Nat) :
    P (t.content s offset) := by
  cases t with
  | paragraph => exact h.made .paragraph
  | heading level =>
    exact h.changed (.headingLevel level) (h.made .heading) (if_pos (of_decide_eq_true ht))
  | blockQuote => exact h.made .blockQuote
  | codeBlock info => exact h.changed (.fenceInfo info) (h.made .codeBlock) rfl
  | htmlBlock => exact h.made .htmlBlock
  | list start => exact h.listed s start offset
  | item => exact h.made .item
  | emphasis => exact h.made .emphasis
  | strong => exact h.made .strong
  | link email url title =>
    exact h.changed (.title (some title)) (h.changed (.url (some (linkUrl email url)))
      (h.made .link) rfl) rfl
  | image email url title =>
    exact h.changed (.title (some title)) (h.changed (.url (some (linkUrl email url)))
      (h.made .image) rfl) rfl
  | extension e => cases e <;> first | exact h.made .customInline | exact h.made .customBlock

end Lasting

/-! ## Forests -/

namespace Forest

theorem holds_nil : Forest.nil.Holds P := by simp [Holds, nodes]

theorem holds_cons {n : Node} {cs rest : Forest} :
    (Forest.cons n cs rest).Holds P ↔ P n.content ∧ cs.Holds P ∧ rest.Holds P := by
  simp [Holds, nodes, or_imp, forall_and]

theorem holds_append {f g : Forest} : (f.append g).Holds P ↔ f.Holds P ∧ g.Holds P := by
  simp [Holds, nodes_append, or_imp, forall_and]

theorem holds_ofTrees {ts : List Tree} : (ofTrees ts).Holds P ↔ ∀ t ∈ ts, t.alone.Holds P := by
  induction ts with
  | nil => simp [ofTrees, holds_nil]
  | cons t ts ih =>
    rw [ofTrees, holds_cons, ih, List.forall_mem_cons, Tree.alone, holds_cons]
    simp [holds_nil, and_assoc]

end Forest

/-! ## The stack -/

namespace Frame

/-- The construct and what stands in it so far have the property. -/
def Holds (P : Content → Prop) (f : Frame) : Prop :=
  P f.node.content ∧ ∀ t ∈ f.children, t.alone.Holds P

variable {f : Frame}

theorem Holds.tree (h : f.Holds P) : f.tree.alone.Holds P := by
  refine Forest.holds_cons.mpr ⟨h.1, ?_, Forest.holds_nil⟩
  exact Forest.holds_ofTrees.mpr fun t ht => h.2 t (List.mem_reverse.mp ht)

theorem Holds.push (h : f.Holds P) {t : Tree} (ht : t.alone.Holds P) : (f.push t).Holds P :=
  ⟨h.1, List.forall_mem_cons.mpr ⟨ht, h.2⟩⟩

theorem Holds.loosen (hP : Lasting P) (h : f.Holds P) : f.loosen.Holds P := by
  unfold Frame.loosen
  split
  · rename_i style hstyle
    exact ⟨hP.loosened (hstyle ▸ h.1), h.2⟩
  · exact h

end Frame

namespace Assembly

structure Holds (P : Content → Prop) (a : Assembly) : Prop where
  top : a.top.Holds P
  below : ∀ f ∈ a.below, f.Holds P

variable {a : Assembly}

theorem Holds.leaf (h : a.Holds P) {n : Node} (hn : P n.content) : (a.leaf n).Holds P where
  top := h.top.push (Forest.holds_cons.mpr ⟨hn, Forest.holds_nil, Forest.holds_nil⟩)
  below := h.below

theorem Holds.enter (h : a.Holds P) {n : Node} (hn : P n.content) (offset : Nat)
    (implied : Bool) : (a.enter n offset implied).Holds P where
  top := ⟨hn, by simp [Assembly.enter]⟩
  below := List.forall_mem_cons.mpr ⟨h.top, h.below⟩

theorem Holds.leave (h : a.Holds P) (stop : Position) : (a.leave stop).Holds P := by
  unfold Assembly.leave
  split
  · exact h
  · rename_i f fs hbelow
    obtain ⟨hf, hfs⟩ := List.forall_mem_cons.mp (hbelow ▸ h.below)
    have htree := Forest.holds_cons.mp h.top.tree
    exact ⟨hf.push (Forest.holds_cons.mpr htree), hfs⟩

theorem Holds.leaveImplied (h : a.Holds P) (s : Source) : (a.leaveImplied s).Holds P := by
  unfold Assembly.leaveImplied
  split
  · exact ⟨(h.leave _).top, (h.leave _).below⟩
  · exact h

theorem Holds.loosenBelow (hP : Lasting P) (h : a.Holds P) : a.loosenBelow.Holds P := by
  unfold Assembly.loosenBelow
  split
  · exact h
  · rename_i f fs hbelow
    obtain ⟨hf, hfs⟩ := List.forall_mem_cons.mp (hbelow ▸ h.below)
    exact ⟨h.top, List.forall_mem_cons.mpr ⟨hf.loosen hP, hfs⟩⟩

theorem Holds.loosenForParagraph (hP : Lasting P) (h : a.Holds P) :
    a.loosenForParagraph.Holds P := by
  unfold Assembly.loosenForParagraph
  split
  · exact h.loosenBelow hP
  · exact h

theorem Holds.loosenForBlank (hP : Lasting P) (h : a.Holds P) (s : Source) (start : Nat) :
    (a.loosenForBlank s start).Holds P := by
  unfold Assembly.loosenForBlank
  split
  · exact h
  · split
    · exact ⟨h.top.loosen hP, h.below⟩
    · exact h.loosenBelow hP
    · exact h

/-! ## Blocks and inlines -/

theorem Holds.enterBlock (hP : Lasting P) (h : a.Holds P) (s : Source) {c : Content} (hc : P c)
    (start stop : Nat) : (a.enterBlock s c start stop).Holds P :=
  ((h.leaveImplied s).loosenForBlank hP s start).enter hc _ _

theorem Holds.forInline (hP : Lasting P) (h : a.Holds P) (s : Source) (kind : Kind)
    (start stop : Nat) : (a.forInline s kind start stop).Holds P := by
  have hready : (if a.top.kind.canContain kind then a else a.enterImplied s start).Holds P := by
    split
    · exact h
    · exact (h.loosenForBlank hP s start).enter (hP.made .paragraph) _ _
  exact ⟨hready.top, hready.below⟩

theorem Holds.enterInline (hP : Lasting P) (h : a.Holds P) (s : Source) {c : Content} (hc : P c)
    (start stop : Nat) : (a.enterInline s c start stop).Holds P :=
  (h.forInline hP s c.kind start stop).enter hc _ _

theorem Holds.leafInline (hP : Lasting P) (h : a.Holds P) (s : Source) {c : Content} (hc : P c)
    (start stop : Nat) : (a.leafInline s c start stop).Holds P :=
  (h.forInline hP s c.kind start stop).leaf hc

theorem Holds.gather (hP : Lasting P) (h : a.Holds P) (s : Source) (t : Text) {c : Content}
    (hc : P c) (start stop : Nat) : (a.gather s t c start stop).Holds P := by
  unfold Assembly.gather
  split
  · exact ⟨⟨hP.gathered h.top.1 ‹_›, h.top.2⟩, h.below⟩
  · exact h.leafInline hP s hc start stop

/-! ## Events -/

theorem Holds.startTag (hP : Lasting P) (h : a.Holds P) (s : Source) {tag : Tag}
    (ht : tag.isLevelled = true) (start stop : Nat) : (a.startTag s tag start stop).Holds P := by
  have hc := hP.tag ht s start
  unfold Assembly.startTag
  dsimp only
  split
  · exact ((h.leaveImplied s).loosenForParagraph hP).enterBlock hP s hc start stop
  · split
    · exact h.enterBlock hP s hc start stop
    · exact h.enterInline hP s hc start stop

theorem Holds.finishTag (h : a.Holds P) (s : Source) (stop : Nat) :
    (a.finishTag s stop).Holds P := by
  have hleft := (h.leaveImplied s).leave (s.endPosition (a.leaveImplied s).top.offset stop)
  unfold Assembly.finishTag
  dsimp only
  split
  · exact h.leaveImplied s
  · split
    · exact ⟨hleft.top, hleft.below⟩
    · exact hleft

theorem Holds.rule (hP : Lasting P) (h : a.Holds P) (s : Source) (start stop : Nat) :
    (a.rule s start stop).Holds P := by
  have hready := (h.leaveImplied s).loosenForBlank hP s start
  have hnew : P (newNode s .thematicBreak start stop
      ((a.leaveImplied s).loosenForBlank s start)).content := hP.made .thematicBreak
  exact ⟨(hready.leaf hnew).top, hready.below⟩

/-- One event keeps the property. -/
theorem Holds.step (hP : Lasting P) (h : a.Holds P) (s : Source) {m : Marked}
    (hm : m.event.isLevelled = true) : (step s a m).Holds P := by
  unfold Assembly.step
  cases hevent : m.event with
  | start tag =>
    rw [hevent] at hm
    exact h.startTag hP s hm m.start m.stop
  | finish => exact h.finishTag s m.stop
  | text t => exact h.gather hP s t (hP.text t) m.start m.stop
  | code t => exact h.leafInline hP s (hP.code t) m.start m.stop
  | html t => exact h.gather hP s t (hP.htmlInline t) m.start m.stop
  | inlineHtml t => exact h.leafInline hP s (hP.htmlInline t) m.start m.stop
  | softBreak => exact h.leafInline hP s (hP.made .softBreak) m.start m.stop
  | hardBreak => exact h.leafInline hP s (hP.made .lineBreak) m.start m.stop
  | rule => exact h.rule hP s m.start m.stop
  | math display t => exact h.leafInline hP s (hP.text t) m.start m.stop
  | footnoteReference label => exact h.leafInline hP s (hP.text _) m.start m.stop
  | taskMarker checked => exact h

/-- Any events keep the property. -/
theorem Holds.run (hP : Lasting P) (h : a.Holds P) (s : Source) {events : List Marked}
    (hm : ∀ m ∈ events, m.event.isLevelled = true) : (a.run s events).Holds P := by
  induction events generalizing a with
  | nil => exact h
  | cons m ms ih =>
    obtain ⟨hm, hms⟩ := List.forall_mem_cons.mp hm
    exact ih (h.step hP s hm) hms

theorem Holds.collapse {top : Frame} {below : List Frame} (htop : top.Holds P)
    (hbelow : ∀ f ∈ below, f.Holds P) : (collapse top below).alone.Holds P := by
  induction below generalizing top with
  | nil => exact htop.tree
  | cons f fs ih =>
    obtain ⟨hf, hfs⟩ := List.forall_mem_cons.mp hbelow
    exact ih (hf.push htop.tree) hfs

end Assembly

/-- The contents of a document from events have every lasting property. -/
theorem Document.holds_ofEvents (hP : Lasting P) (s : Source) {events : List Marked}
    (hm : ∀ m ∈ events, m.event.isLevelled = true) : (ofEvents s events).trees.Holds P := by
  have hbegin : Assembly.begin.Holds P := ⟨⟨hP.made .document, by simp [Assembly.begin]⟩,
    by simp [Assembly.begin]⟩
  have hend := (hbegin.run hP s hm).leaveImplied s
  have htree := Forest.holds_cons.mp (Assembly.Holds.collapse hend.top hend.below)
  exact Forest.holds_cons.mpr htree

/-- Nested events have levels in range. -/
theorem Outline.isLevelled_events {p : Place} {o : Outline} (ho : o.fits p = true) :
    ∀ m ∈ o.events, m.event.isLevelled = true := by
  induction o generalizing p with
  | nil => simp [events]
  | leaf start stop event next ih =>
    obtain ⟨hevent, hnext⟩ := Bool.and_eq_true_iff.mp ho
    refine List.forall_mem_cons.mpr ⟨?_, ih hnext⟩
    cases event with
    | start tag => cases p <;> cases hevent
    | finish | text | code | html | inlineHtml | softBreak | hardBreak | rule | math
    | footnoteReference | taskMarker => rfl
  | enclose tag start stop finishStart finishStop inside next ihi ihn =>
    simp only [fits, Bool.and_eq_true] at ho
    obtain ⟨⟨htag, hinside⟩, hnext⟩ := ho
    have hlevel : tag.isLevelled = true := by
      cases tag with
      | heading level => cases p <;> simp_all [Place.takesTag, Tag.isBlock, Tag.isInline, Tag.isLevelled]
      | paragraph | blockQuote | codeBlock | htmlBlock | list | item | emphasis | strong | link
      | image | extension => rfl
    refine List.forall_mem_cons.mpr ⟨hlevel, List.forall_mem_append.mpr ⟨ihi hinside, ?_⟩⟩
    exact List.forall_mem_cons.mpr ⟨rfl, ihn hnext⟩

end MarkupTree
