-- Building an arena beside assembling a tree. After each event the builder has
-- the same constructs open as the assembly, and the arena shows the tree of
-- the stack. So the building of any events ends, and no event is refused.
import MarkupTree.Arena.Builder
import MarkupTree.Proofs.Arena.Stacks

namespace MarkupTree

open Document (rootId)

def Frame.opening (f : Frame) : Opening := ⟨f.node.id, f.offset, f.implied⟩

theorem Frame.ids_relabel {f : Frame} {n : Node} (hn : n.id = f.node.id) :
    Frame.ids { f with node := n } = f.ids := by
  rw [Frame.ids_eq, Frame.ids_eq, hn]

theorem Frame.loosen_eq (f : Frame) :
    f.loosen = { f with node := { f.node with content := f.node.content.loosen } } := by
  unfold Frame.loosen Content.loosen
  split <;> simp_all

/-- The builder with its arena stands where the assembly stands. -/
structure Builds (m : Assembly) (b : Builder) (a : Arena) : Prop where
  stack : b.stack = (m.top :: m.below).map Frame.opening
  ground : b.stack.getLast? = some ⟨rootId, 0, false⟩
  inlineEnd : b.inlineEnd = m.inlineEnd
  blockEnd : b.blockEnd = m.blockEnd
  numbered : m.Numbered
  chart : ∃ K, a.Shows K ∧ K.count = m.size ∧ K.HasStack m ∧ ∀ p, rootId ∉ K.children p

/-- The run ends, is not refused, and stands where the assembly stands. -/
def Yields (r : Option (Except EditError Builder × Arena)) (m : Assembly) : Prop :=
  ∃ b a, r = some (.ok b, a) ∧ Builds m b a

namespace Builds

open Editing

variable {m : Assembly} {b : Builder} {a : Arena} (h : Builds m b a) {s : Source}

include h

/-! ## The innermost construct -/

theorem on_top (a' : Arena) : b.top.on a' = some (.ok m.top.opening, a') := by
  rw [Builder.top, h.stack]
  rfl

theorem slot_top : ∃ t, a.slot? m.top.node.id = some t ∧ t.label m.top.node.id = m.top.node := by
  obtain ⟨K, hshows, -, hstack, -⟩ := h.chart
  exact Option.map_eq_some_iff.mp ((hshows.node _).trans hstack.node)

theorem slot_closed {n : Node} (hn : n ∈ m.top.closed.roots) :
    ∃ t, a.slot? n.id = some t ∧ t.label n.id = n := by
  obtain ⟨K, hshows, -, hstack, -⟩ := h.chart
  exact Option.map_eq_some_iff.mp ((hshows.node _).trans (hstack.closed.root hn))

theorem on_topSlot {t : Slot} (ht : a.slot? m.top.node.id = some t) :
    b.topSlot.on a = some (.ok t, a) := by
  rw [Builder.topSlot, on_bind (h.on_top _)]
  exact on_data ht

theorem top_lt : m.top.node.id < a.count := by
  obtain ⟨t, ht, -⟩ := h.slot_top
  exact Arena.lt_of_slot ht

/-- The construct around the innermost one is its parent. -/
theorem parent_top : a.parent? m.top.node.id = m.below.head?.map (·.node.id) := by
  obtain ⟨K, hshows, -, hstack, hroot⟩ := h.chart
  cases hb : m.below with
  | nil =>
    have hground := h.ground
    rw [h.stack, hb] at hground
    have hid : m.top.node.id = rootId := congrArg Opening.id (Option.some.inj hground)
    rw [hid]
    exact hshows.parent?_eq_none_iff.mpr hroot
  | cons f fs =>
    have haround := hstack.around
    rw [hb] at haround
    apply hshows.parent
    rw [haround.1.2.1]
    simp

theorem lastChild_top {t : Slot} (ht : a.slot? m.top.node.id = some t) :
    t.lastChild.isSome = !m.top.children.isEmpty := by
  obtain ⟨K, hshows, -, hstack, -⟩ := h.chart
  have hend := hshows.endChild .after m.top.node.id
  rw [Arena.endChild?, ht, Side.toward, hstack.children] at hend
  rw [show t.lastChild = _ from hend, Frame.closed_isEmpty]
  cases m.top.closed.roots using List.reverseRecOn <;> simp

/-! ## Labels -/

theorem relabelTop {a' : Arena} {g : Node → Node} (hg : (g m.top.node).id = m.top.node.id)
    (hshows : ∀ K, a.Shows K → a'.Shows (K.relabel m.top.node.id g)) :
    Builds { m with top := { m.top with node := g m.top.node } } b a' := by
  obtain ⟨K, hK, hcount, hstack, hroot⟩ := h.chart
  refine ⟨?_, h.ground, h.inlineEnd, h.blockEnd, h.numbered.of_same ?_ rfl,
    _, hshows K hK, hcount, hstack.relabelTop h.numbered hg, hroot⟩
  · rw [h.stack, List.map_cons, List.map_cons, Frame.opening, Frame.opening, hg]
  · rw [Assembly.ids, Assembly.ids, Frame.ids_relabel hg]

theorem relabelBelow {f : Frame} {fs : List Frame} (hb : m.below = f :: fs) {a' : Arena}
    {g : Node → Node} (hg : (g f.node).id = f.node.id)
    (hshows : ∀ K, a.Shows K → a'.Shows (K.relabel f.node.id g)) :
    Builds { m with below := { f with node := g f.node } :: fs } b a' := by
  obtain ⟨K, hK, hcount, hstack, hroot⟩ := h.chart
  refine ⟨?_, h.ground, h.inlineEnd, h.blockEnd, h.numbered.of_same ?_ rfl,
    _, hshows K hK, hcount, hstack.relabelBelow h.numbered hb hg, hroot⟩
  · rw [h.stack, hb]
    simp [Frame.opening, hg]
  · rw [Assembly.ids, Assembly.ids, hb, List.reverse_cons, List.reverse_cons, List.flatMap_append,
      List.flatMap_append, List.flatMap_singleton, List.flatMap_singleton, Frame.ids_relabel hg]

theorem below_lt {f : Frame} {fs : List Frame} (hb : m.below = f :: fs) : f.node.id < a.count := by
  obtain ⟨K, hshows, -, hstack, -⟩ := h.chart
  have haround := hstack.around
  rw [hb] at haround
  exact Arena.node?_isSome_iff.mp (by rw [hshows.node, haround.1.1]; rfl)

/-! ## Offsets -/

theorem withBlockEnd (offset : Nat) :
    Builds { m with blockEnd := offset } { b with blockEnd := offset } a := by
  obtain ⟨K, hK, hcount, hstack, hroot⟩ := h.chart
  exact ⟨h.stack, h.ground, h.inlineEnd, rfl, h.numbered, K, hK, hcount,
    ⟨hstack.node, hstack.children, hstack.closed, hstack.around⟩, hroot⟩

theorem withInlineEnd (offset : Nat) :
    Builds { m with inlineEnd := offset } { b with inlineEnd := offset } a := by
  obtain ⟨K, hK, hcount, hstack, hroot⟩ := h.chart
  exact ⟨h.stack, h.ground, rfl, h.blockEnd, h.numbered, K, hK, hcount,
    ⟨hstack.node, hstack.children, hstack.closed, hstack.around⟩, hroot⟩

/-! ## Closing -/

/-- The innermost construct closes, with its end written into its slot. -/
theorem on_close {f : Frame} {fs : List Frame} (hb : m.below = f :: fs) (start stop : Nat) :
    ∃ a', (Builder.close s m.top.node.id start stop).on a = some (.ok (), a') ∧
      Builds (m.leave (s.endPosition start stop)) { b with stack := b.stack.tail } a' := by
  refine ⟨_, Editing.on_change h.top_lt _, ?_⟩
  have hclosed := h.relabelTop (g := fun n => { n with stop := s.endPosition start stop }) rfl
    fun K hK => hK.withStop m.top.node.id _
  obtain ⟨K, hK, hcount, hstack, hroot⟩ := hclosed.chart
  have hleave : m.leave (s.endPosition start stop) =
      { m with
        top := f.push { m.top.tree with node := { m.top.node with stop := s.endPosition start stop } }
        below := fs } := by
    rw [Assembly.leave, hb]
  have hstacks := h.stack
  have hground := h.ground
  rw [hb] at hstacks
  rw [hstacks, List.map_cons, List.map_cons, List.getLast?_cons_cons] at hground
  refine ⟨?_, ?_, h.inlineEnd.trans ?_, h.blockEnd.trans ?_,
    Assembly.numbered_leave _ h.numbered, K, hK, hcount.trans ?_, ?_, hroot⟩
  · rw [hleave, hstacks]
    rfl
  · rw [hstacks]
    exact hground
  · rw [hleave]
  · rw [hleave]
  · rw [hleave]
  · rw [hleave]
    exact hstack.pop hb

theorem on_leaveImplied : Yields ((b.leaveImplied s).on a) (m.leaveImplied s) := by
  rw [Builder.leaveImplied, on_bind (h.on_top _), Assembly.leaveImplied]
  by_cases hi : m.top.implied = true
  · -- the root was not implied, so there is a construct below
    obtain ⟨f, fs, hb⟩ : ∃ f fs, m.below = f :: fs := by
      cases hb : m.below with
      | nil =>
        have hground := h.ground
        rw [h.stack, hb] at hground
        have hnot : m.top.implied = false := congrArg Opening.implied (Option.some.inj hground)
        rw [hi] at hnot
        cases hnot
      | cons f fs => exact ⟨f, fs, rfl⟩
    obtain ⟨a', ha, hleft⟩ := h.on_close (s := s) hb m.top.offset (max m.inlineEnd m.top.offset)
    have hstop : max b.inlineEnd m.top.opening.offset = max m.inlineEnd m.top.offset := by
      rw [h.inlineEnd]
      rfl
    rw [if_pos hi, if_pos (show m.top.opening.implied = true from hi), hstop]
    exact ⟨_, a', on_bind ha, hleft.withBlockEnd _⟩
  · rw [if_neg hi, if_neg (show ¬ m.top.opening.implied = true from hi)]
    exact ⟨b, a, rfl, h⟩

/-! ## Loose lists -/

omit h in
theorem on_loosen {id : NodeId} (hid : id < a.count) :
    ∃ a', (Builder.loosen id).on a = some (.ok (), a') ∧
      ∀ K, a.Shows K → a'.Shows (K.relabel id fun n => { n with content := n.content.loosen }) :=
  ⟨_, Editing.on_change hid _, fun _ hK => hK.withContent id Content.loosen⟩

theorem on_loosenTop :
    ∃ a', (Builder.loosen m.top.node.id).on a = some (.ok (), a') ∧
      Builds { m with top := m.top.loosen } b a' := by
  obtain ⟨a', ha, hshows⟩ := on_loosen h.top_lt
  refine ⟨a', ha, ?_⟩
  rw [Frame.loosen_eq]
  exact h.relabelTop (g := fun n => { n with content := n.content.loosen }) rfl hshows

/-- The list of the innermost item, which is its parent, is loosened. -/
theorem on_loosenParent {t : Slot} (ht : a.slot? m.top.node.id = some t) :
    ∃ a', (match t.parent with
        | some list => Builder.loosen list
        | none => pure ()).on a = some (.ok (), a') ∧ Builds m.loosenBelow b a' := by
  have hup : t.parent = m.below.head?.map (·.node.id) := by
    rw [← h.parent_top, Arena.parent?, ht]
    rfl
  rw [hup, Assembly.loosenBelow]
  cases hb : m.below with
  | nil => exact ⟨a, rfl, by simpa [hb] using h⟩
  | cons f fs =>
    obtain ⟨a', ha, hshows⟩ := on_loosen (h.below_lt hb)
    refine ⟨a', ha, ?_⟩
    dsimp only
    rw [Frame.loosen_eq]
    exact h.relabelBelow hb (g := fun n => { n with content := n.content.loosen }) rfl hshows

theorem on_loosenForParagraph :
    ∃ a', b.loosenForParagraph.on a = some (.ok (), a') ∧ Builds m.loosenForParagraph b a' := by
  obtain ⟨t, ht, hlabel⟩ := h.slot_top
  have hkind : t.content.kind = m.top.kind := congrArg Node.kind hlabel
  rw [Builder.loosenForParagraph, on_bind (h.on_topSlot ht), Assembly.loosenForParagraph, hkind]
  by_cases hk : m.top.kind = .item
  · rw [if_pos hk, if_pos hk]
    exact h.on_loosenParent ht
  · rw [if_neg hk, if_neg hk]
    exact ⟨a, rfl, h⟩

theorem on_loosenForBlank (start : Nat) :
    ∃ a', (b.loosenForBlank s start).on a = some (.ok (), a') ∧
      Builds (m.loosenForBlank s start) b a' := by
  obtain ⟨t, ht, hlabel⟩ := h.slot_top
  have hkind : t.content.kind = m.top.kind := congrArg Node.kind hlabel
  rw [Builder.loosenForBlank, on_bind (h.on_topSlot ht), Assembly.loosenForBlank,
    h.lastChild_top ht, hkind, h.blockEnd]
  by_cases he : m.top.children.isEmpty = true
  · rw [if_neg (by simp [he]), if_pos (by simp [he])]
    exact ⟨a, rfl, h⟩
  · rw [if_pos (by simpa using he)]
    by_cases hs : s.blankBetween m.blockEnd start = true
    · rw [if_neg (by simp [he, hs]), hs]
      cases hk : m.top.kind with
      | list =>
        rw [on_bind (h.on_top _)]
        exact h.on_loosenTop
      | item =>
        rw [on_bind (on_pure _)]
        exact h.on_loosenParent ht
      | _ => exact ⟨a, rfl, h⟩
    · rw [if_pos (by simp [hs])]
      have hs' : s.blankBetween m.blockEnd start = false := by simpa using hs
      refine ⟨a, ?_, h⟩
      rw [hs']
      cases m.top.kind with
      | list => rw [on_bind (h.on_top _)]; rfl
      | item =>
        rw [on_bind (on_pure _)]
        cases t.parent <;> rfl
      | _ => rfl

/-! ## New nodes -/

/-- A new node becomes the last child of the innermost construct. It is a leaf,
or else the next construct that is open. -/
theorem on_attach (content : Content) (start stop : Position) :
    let n : Node := { id := m.size, content, start, stop }
    ∃ a', (b.attach content start stop).on a = some (.ok m.size, a') ∧ Builds (m.leaf n) b a' ∧
      ∀ offset implied, Builds (m.enter n offset implied) (b.push ⟨m.size, offset, implied⟩) a' := by
  intro n
  obtain ⟨K, hK, hcount, hstack, hroot⟩ := h.chart
  have hsize : a.count = m.size := hK.count.trans hcount
  have hnone : K.children m.size = [] := by
    refine List.eq_nil_iff_forall_not_mem.mpr fun c hc => ?_
    exact absurd (hK.parent_lt hc) (hsize ▸ Nat.lt_irrefl _)
  have hpush := hK.push content start stop
  have hlt : ∀ {id}, id < a.count → id < (a.push { content, start, stop }).count := by
    intro id hid
    rw [hpush.count, Chart.push, ← hK.count]
    exact Nat.lt_succ_of_lt hid
  have hnew : m.size < (a.push { content, start, stop }).count := by
    rw [hpush.count, Chart.push, hcount]
    exact Nat.lt_succ_self _
  have hall : ∀ q, m.size ∉ (K.push content start stop).children q := by
    intro q hq
    exact absurd (hK.child_lt hq) (hsize ▸ Nat.lt_irrefl _)
  obtain ⟨a', ha, hshows⟩ := Arena.on_linkLast hpush (hlt h.top_lt) hnew hall
  have hroot' : ∀ p, rootId ∉ ((K.push content start stop).setChildren m.top.node.id
      (K.children m.top.node.id ++ [m.size])).children p := by
    intro p
    rw [Chart.children_setChildren]
    split
    · rw [List.mem_append, List.mem_singleton, not_or]
      exact ⟨hroot _, Nat.ne_of_lt h.numbered.size_pos⟩
    · exact hroot p
  obtain ⟨hleaf, henter⟩ := hstack.attach h.numbered hcount hnone content start stop
  have hcount' := congrArg (· + 1) hcount
  refine ⟨a', ?_, ?_, fun offset implied => ?_⟩
  · have ha' : (linkLast m.top.opening.id m.size).on _ = _ := ha
    rw [Builder.attach, on_bind (on_alloc _ _ _), hsize, on_bind (h.on_top _), on_bind ha', on_pure]
  · exact ⟨h.stack, h.ground, h.inlineEnd, h.blockEnd, Assembly.numbered_leaf h.numbered rfl, _,
      hshows, hcount', hleaf, hroot'⟩
  · refine ⟨?_, ?_, h.inlineEnd, h.blockEnd, Assembly.numbered_enter offset implied h.numbered rfl,
      _, hshows, hcount', henter offset implied, hroot'⟩
    · rw [Builder.push, h.stack]
      rfl
    · have hground := h.ground
      rw [h.stack, List.map_cons] at hground
      rw [Builder.push, h.stack, List.map_cons, List.getLast?_cons_cons]
      exact hground

theorem on_enterImplied (start : Nat) :
    Yields ((b.enterImplied s start).on a) (m.enterImplied s start) := by
  obtain ⟨a', ha, hloose⟩ := h.on_loosenForBlank (s := s) start
  obtain ⟨c, hc, -, henter⟩ := hloose.on_attach .paragraph (s.position start) (s.position start)
  rw [Builder.enterImplied, on_bind ha, on_bind hc, on_pure]
  exact ⟨_, c, rfl, henter start true⟩

theorem on_enterBlock (content : Content) (start stop : Nat) :
    Yields ((b.enterBlock s content start stop).on a) (m.enterBlock s content start stop) := by
  obtain ⟨b₁, a₁, h₁, hleft⟩ := h.on_leaveImplied (s := s)
  obtain ⟨a₂, h₂, hloose⟩ := hleft.on_loosenForBlank (s := s) start
  obtain ⟨a₃, h₃, -, henter⟩ :=
    hloose.on_attach content (s.position start) (s.endPosition start stop)
  rw [Builder.enterBlock, on_bind h₁, on_bind h₂, on_bind h₃, on_pure]
  exact ⟨_, a₃, rfl, henter start false⟩

/-- The new inline, and the stack that it stands in. -/
theorem on_attachInline (content : Content) (start stop : Nat) :
    let m' := m.forInline s content.kind start stop
    ∃ b' a', (b.attachInline s content start stop).on a = some (.ok (m'.size, b'), a') ∧
      Builds (m.leafInline s content start stop) b' a' ∧
      Builds (m.enterInline s content start stop) (b'.push ⟨m'.size, start, false⟩) a' := by
  obtain ⟨t, ht, hlabel⟩ := h.slot_top
  have hkind : t.content.kind = m.top.kind := congrArg Node.kind hlabel
  have hready : Yields ((if t.content.kind.canContain content.kind then pure b
      else b.enterImplied s start : Editing Builder).on a)
      (if m.top.kind.canContain content.kind then m else m.enterImplied s start) := by
    rw [hkind]
    split
    · exact ⟨b, a, rfl, h⟩
    · exact h.on_enterImplied start
  obtain ⟨b₁, a₁, h₁, hb₁⟩ := hready
  have hfor : Builds (m.forInline s content.kind start stop) { b₁ with inlineEnd := stop } a₁ :=
    hb₁.withInlineEnd stop
  obtain ⟨a₂, h₂, hleaf, henter⟩ :=
    hfor.on_attach content (s.position start) (s.endPosition start stop)
  refine ⟨_, a₂, ?_, hleaf, henter start false⟩
  rw [Builder.attachInline, on_bind (h.on_topSlot ht)]
  by_cases hfit : t.content.kind.canContain content.kind = true
  · rw [if_pos hfit] at h₁ ⊢
    rw [on_bind h₁, on_bind h₂, on_pure]
  · rw [if_neg hfit] at h₁ ⊢
    rw [on_bind h₁, on_bind h₂, on_pure]

theorem on_enterInline (content : Content) (start stop : Nat) :
    Yields ((b.enterInline s content start stop).on a) (m.enterInline s content start stop) := by
  obtain ⟨b', a', ha, -, henter⟩ := h.on_attachInline (s := s) content start stop
  rw [Builder.enterInline, on_bind ha]
  exact ⟨_, a', rfl, henter⟩

/-- The end of the leaf is written twice, and is the same both times. -/
theorem on_leafInline (content : Content) (start stop : Nat) :
    Yields ((b.leafInline s content start stop).on a) (m.leafInline s content start stop) := by
  obtain ⟨b', a', ha, hleaf, -⟩ := h.on_attachInline (s := s) content start stop
  obtain ⟨t, ht, hlabel⟩ := hleaf.slot_closed (Frame.mem_closed_push _ _)
  have hstop : t.stop = s.endPosition start stop := congrArg Node.stop hlabel
  have hclose : (Builder.close s (m.forInline s content.kind start stop).size start stop).on a' =
      some (.ok (), a') := by
    refine (Editing.on_change (Arena.lt_of_slot ht) _).trans ?_
    rw [Arena.change_eq_self ht (by rw [← hstop])]
  rw [Builder.leafInline, on_bind ha]
  exact ⟨b', a', on_bind hclose, hleaf⟩

theorem on_gather (t : Text) (content : Content) (start stop : Nat) :
    Yields ((b.gather s t content start stop).on a) (m.gather s t content start stop) := by
  obtain ⟨slot, hslot, hlabel⟩ := h.slot_top
  have hcontent : slot.content = m.top.node.content := congrArg Node.content hlabel
  rw [Builder.gather, on_bind (h.on_topSlot hslot), hcontent, Assembly.gather]
  cases m.top.node.content.gather? t with
  | none => exact h.on_leafInline content start stop
  | some c =>
    have hchange : (change m.top.opening.id (Slot.withContent c)).on a = _ :=
      Editing.on_change h.top_lt _
    dsimp only
    rw [on_bind (h.on_top _), on_bind hchange, on_pure]
    exact ⟨b, _, rfl, h.relabelTop (g := fun n => { n with content := c }) rfl
      fun K hK => hK.withContent m.top.node.id fun _ => c⟩

/-! ## Events -/

theorem on_startTag (tag : Tag) (start stop : Nat) :
    Yields ((b.startTag s tag start stop).on a) (m.startTag s tag start stop) := by
  have hother : Yields ((if (tag.content s start).kind.isBlock then
        b.enterBlock s (tag.content s start) start stop
      else b.enterInline s (tag.content s start) start stop).on a)
      (if (tag.content s start).kind.isBlock then m.enterBlock s (tag.content s start) start stop
      else m.enterInline s (tag.content s start) start stop) := by
    split
    · exact h.on_enterBlock _ start stop
    · exact h.on_enterInline _ start stop
  cases tag with
  | paragraph =>
    obtain ⟨b₁, a₁, h₁, hleft⟩ := h.on_leaveImplied (s := s)
    obtain ⟨a₂, h₂, hloose⟩ := hleft.on_loosenForParagraph
    rw [Builder.startTag, on_bind h₁, on_bind h₂]
    exact hloose.on_enterBlock _ start stop
  | _ => exact hother

theorem on_finishTag (stop : Nat) :
    Yields ((b.finishTag s stop).on a) (m.finishTag s stop) := by
  obtain ⟨b₁, a₁, h₁, hleft⟩ := h.on_leaveImplied (s := s)
  rw [Builder.finishTag, on_bind h₁, Assembly.finishTag, hleft.stack]
  generalize m.leaveImplied s = m₁ at hleft ⊢
  cases hb : m₁.below with
  | nil => exact ⟨b₁, a₁, rfl, hleft⟩
  | cons f fs =>
    obtain ⟨a₂, h₂, hclosed⟩ := hleft.on_close (s := s) hb m₁.top.offset stop
    have hmem : { m₁.top.node with stop := s.endPosition m₁.top.offset stop } ∈
        (m₁.leave (s.endPosition m₁.top.offset stop)).top.closed.roots := by
      rw [Assembly.leave, hb]
      exact Frame.mem_closed_push _ _
    obtain ⟨t, ht, hlabel⟩ := hclosed.slot_closed hmem
    have hkind : t.content.kind = m₁.top.kind := congrArg Node.kind hlabel
    have hclose : (Builder.close s m₁.top.opening.id m₁.top.opening.offset stop).on a₁ = _ := h₂
    have hdata : (data m₁.top.opening.id).on a₂ = _ := Editing.on_data ht
    rw [hleft.stack, hb] at hclosed
    rw [List.map_cons, List.map_cons]
    dsimp only [List.isEmpty_cons]
    rw [on_bind hclose, on_bind hdata, hkind, if_neg Bool.false_ne_true]
    split
    · exact ⟨_, a₂, rfl, hclosed.withBlockEnd _⟩
    · exact ⟨_, a₂, rfl, hclosed⟩

theorem on_rule (start stop : Nat) :
    Yields ((b.rule s start stop).on a) (m.rule s start stop) := by
  obtain ⟨b₁, a₁, h₁, hleft⟩ := h.on_leaveImplied (s := s)
  obtain ⟨a₂, h₂, hloose⟩ := hleft.on_loosenForBlank (s := s) start
  obtain ⟨a₃, h₃, hleaf, -⟩ :=
    hloose.on_attach .thematicBreak (s.position start) (s.endPosition start stop)
  rw [Builder.rule, on_bind h₁, on_bind h₂, on_bind h₃, on_pure]
  exact ⟨_, a₃, rfl, hleaf.withBlockEnd _⟩

/-- An event is taken as the assembly takes it. -/
theorem on_step (e : Marked) : Yields ((Builder.step s b e).on a) (m.step s e) := by
  unfold Builder.step Assembly.step
  cases e.event with
  | start tag => exact h.on_startTag tag e.start e.stop
  | finish => exact h.on_finishTag e.stop
  | text t => exact h.on_gather t (.text t) e.start e.stop
  | html t => exact h.on_gather t (.htmlInline t) e.start e.stop
  | code | inlineHtml | softBreak | hardBreak | math | footnoteReference =>
    exact h.on_leafInline _ e.start e.stop
  | rule => exact h.on_rule e.start e.stop
  | taskMarker => exact ⟨b, a, rfl, h⟩

theorem on_run (events : List Marked) : Yields ((b.run s events).on a) (m.run s events) := by
  unfold Builder.run Assembly.run
  induction events generalizing m b a with
  | nil => exact ⟨b, a, rfl, h⟩
  | cons e es ih =>
    obtain ⟨b₁, a₁, h₁, hstep⟩ := h.on_step (s := s) e
    rw [List.foldlM_cons, on_bind h₁]
    exact ih hstep

/-! ## The whole run -/

/-- At the end the arena shows the document of the assembly. -/
theorem on_finish : ∃ a', (b.finish s).on a = some (.ok (), a') ∧ a'.Shows (m.finish s).chart := by
  obtain ⟨b₁, a₁, h₁, hleft⟩ := h.on_leaveImplied (s := s)
  obtain ⟨K, hK, hcount, hstack, -⟩ := hleft.chart
  have hout : ∀ id, K.count ≤ id → K.node? id = none ∧ K.children id = [] := by
    intro id hid
    rw [← hK.count] at hid
    rw [← hK.node]
    refine ⟨Option.not_isSome_iff_eq_none.mp fun hs => ?_,
      List.eq_nil_iff_forall_not_mem.mpr fun c hc => ?_⟩
    · exact Nat.not_lt.mpr hid (Arena.node?_isSome_iff.mp hs)
    · exact Nat.not_lt.mpr hid (hK.parent_lt hc)
  have hlt : rootId < a₁.count := by
    rw [hK.count, hcount]
    exact hleft.numbered.size_pos
  refine ⟨_, (on_bind h₁).trans (Editing.on_change hlt _), ?_⟩
  refine (hK.withStop rootId (s.endPosition 0 s.bytes.length)).congr ?_
  exact hstack.relabel_root hleft.numbered hcount hout _

end Builds

namespace Arena

theorem builds_begin : Builds .begin .begin .new := by
  refine ⟨rfl, rfl, rfl, rfl, rfl, Document.new.chart, shows_new, rfl, ?_, fun p hp => ?_⟩
  · exact ⟨rfl, rfl, Chart.has_nil, trivial⟩
  · rw [children_new] at hp
    cases hp

/-- Any events at all can be built, and the arena shows the document that they
describe. -/
theorem on_build (s : Source) (events : List Marked) :
    ∃ b a, (Editing.build s events).on .new = some (.ok b, a) ∧
      a.Shows (Document.ofEvents s events).chart ∧
      b.stack.getLast? = some ⟨rootId, 0, false⟩ ∧
      b.stack.length = (Assembly.begin.run s events).below.length + 1 := by
  obtain ⟨b, a, hrun, hb⟩ := builds_begin.on_run (s := s) events
  obtain ⟨a', hfinish, hshows⟩ := hb.on_finish (s := s)
  refine ⟨b, a', ?_, hshows, hb.ground, ?_⟩
  · rw [Editing.build, Editing.on_bind hrun, Editing.on_bind hfinish, Editing.on_pure]
  · rw [hb.stack, List.length_map, List.length_cons]

end Arena

end MarkupTree
