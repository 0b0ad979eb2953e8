-- Reading nested events makes the nodes that the passages of the outline tell
-- of. While an outline is read, the innermost construct holds the passages read
-- so far, and the list around it is loose as soon as they say so.
import MarkupTree.Proofs.Event.Opened

namespace MarkupTree

/-! ## Where an outline stands -/

namespace Opened

/-- The paragraph around the inlines, while it is open. -/
def ofRun (s : Source) : List (Rose Passage) → List Opened
  | [] => []
  | r :: rs => [ofPassages s .paragraph r.label.start true (r :: rs)]

end Opened

/-- The state while an outline at the place `p` is read. The construct has the
content `c`, starts at `offset` and holds the passages `kids`. In an item, the
inlines `pending` may stand after them in a paragraph that is still open.
Before the construct, the last inline ended at `reach`. -/
structure Telling (s : Source) (p : Place) (c : Content) (offset reach : Nat)
    (kids pending : List (Rose Passage)) (outer : List Opened) (a : Assembly) : Prop where
  inside : p.isIn c.kind = true
  inlines : ∀ r ∈ pending, r.label.isInline = true
  mixed : pending ≠ [] → p = .mixed
  opened : a.opened =
    Opened.ofRun s pending ++
      .ofPassages s (c.loosenIf (p.isLoose s (kids ++ Rose.paragraphOf pending))) offset false kids ::
        Opened.loosenHead (p = .mixed && p.isLoose s (kids ++ Rose.paragraphOf pending)) outer
  inlineEnd : p = .inlines → a.inlineEnd = Rose.reachOf reach kids
  pendingEnd : ∀ r, pending.getLast? = some r → a.inlineEnd = r.label.reach
  blockEnd : pending = [] → p ≠ .inlines → ∀ r, kids.getLast? = some r →
    a.blockEnd = r.label.bottom s

namespace Telling

open Assembly

variable {s : Source} {p : Place} {c : Content} {offset reach : Nat}
  {kids pending : List (Rose Passage)} {outer : List Opened} {a : Assembly}

/-- With no paragraph open, the construct itself is the innermost one. -/
theorem kind_top (h : Telling s p c offset reach kids [] outer a) : a.top.kind = c.kind := by
  rw [kind_of_opened h.opened]
  exact Content.kind_loosenIf _ c

theorem leaveImplied_eq (h : Telling s p c offset reach kids [] outer a) :
    a.leaveImplied s = a := by
  have hexplicit : a.top.implied = false := implied_of_opened h.opened
  exact if_neg (by simp [hexplicit])

/-- Once the open paragraph closes, it is one of the passages. -/
theorem leaveImplied (h : Telling s p c offset reach kids pending outer a) :
    Telling s p c offset reach (kids ++ Rose.paragraphOf pending) [] outer (a.leaveImplied s) := by
  have hopened := h.opened
  unfold Assembly.leaveImplied
  cases pending with
  | nil =>
    rw [← Assembly.leaveImplied, h.leaveImplied_eq]
    simpa [Rose.paragraphOf] using h
  | cons q qs =>
    obtain rfl := h.mixed (List.cons_ne_nil q qs)
    have hoffset : a.top.offset = q.label.start := offset_of_opened hopened
    have hend : a.inlineEnd = Rose.reachOf q.label.reach (q :: qs) := by
      rw [h.pendingEnd _ (List.getLast?_eq_some_getLast (List.cons_ne_nil q qs))]
      simp [Rose.reachOf, List.getLast?_eq_some_getLast (List.cons_ne_nil q qs)]
    have himplied : a.top.implied = true := implied_of_opened hopened
    rw [if_pos himplied, hoffset, hend]
    refine ⟨h.inside, by simp, by simp, ?_, by simp, by simp, ?_⟩
    · rw [show Rose.paragraphOf [] = [] from rfl, List.append_nil]
      refine (opened_leave _ hopened).trans (congrArg (· :: _) ?_)
      exact Opened.push_ofPassages s _ offset false kids (.node (.ofInlines q.label.start _) (q :: qs))
    · intro _ _ r hr
      simp only [Rose.paragraphOf, List.getLast?_concat, Option.some.injEq] at hr
      rw [← hr]
      rfl

/-- With nothing more to come, only the open paragraph is laid out. -/
theorem lay_nil (h : Telling s p c offset reach kids pending outer a) :
    p.lay pending [] = Rose.paragraphOf pending := by
  cases pending with
  | nil => cases p <;> rfl
  | cons q qs =>
    rw [h.mixed (List.cons_ne_nil q qs)]
    rfl

/-! ## Adding a node -/

/-- What is still to be laid out after `row` was added to the passages `kids`
and the inlines `pending`. -/
def Added (s : Source) (p : Place) (c : Content) (offset reach : Nat)
    (kids pending : List (Rose Passage)) (outer : List Opened) (row : List (Rose Passage))
    (a : Assembly) : Prop :=
  ∃ kids' pending', Telling s p c offset reach kids' pending' outer a ∧
    ∀ rest, kids' ++ p.lay pending' rest = kids ++ p.lay pending (row ++ rest)

theorem added_nil (h : Telling s p c offset reach kids pending outer a) :
    Added s p c offset reach kids pending outer [] a :=
  ⟨kids, pending, h, fun _ => rfl⟩

theorem Added.trans {c' : Content} {row row' : List (Rose Passage)} {a' : Assembly}
    (h : Added s p c offset reach kids pending outer row a)
    (next : ∀ kids' pending', Telling s p c offset reach kids' pending' outer a →
      Added s p c' offset reach kids' pending' outer row' a') :
    Added s p c' offset reach kids pending outer (row ++ row') a' := by
  obtain ⟨kids₁, pending₁, h₁, heq₁⟩ := h
  obtain ⟨kids₂, pending₂, h₂, heq₂⟩ := next kids₁ pending₁ h₁
  refine ⟨kids₂, pending₂, h₂, fun rest => ?_⟩
  rw [heq₂, heq₁, List.append_assoc]

/-- A block goes after the passages, once the open paragraph is closed. -/
theorem added_block {r : Rose Passage} (h : Telling s p c offset reach kids pending outer a)
    (hp : p = .blocks ∨ p = .items ∨ p = .mixed) (hr : r.label.isInline = false) {a' : Assembly}
    (hopened : a'.opened =
      .ofPassages s (c.loosenIf (p.isLoose s (kids ++ Rose.paragraphOf pending ++ [r]))) offset
          false (kids ++ Rose.paragraphOf pending ++ [r]) ::
        Opened.loosenHead (p = .mixed && p.isLoose s (kids ++ Rose.paragraphOf pending ++ [r]))
          outer)
    (hend : a'.blockEnd = r.label.bottom s) :
    Added s p c offset reach kids pending outer [r] a' := by
  have hinline : p ≠ .inlines := by rcases hp with rfl | rfl | rfl <;> simp
  refine ⟨kids ++ Rose.paragraphOf pending ++ [r], [], ⟨h.inside, by simp, by simp, ?_,
    fun hi => absurd hi hinline, by simp, ?_⟩, fun rest => ?_⟩
  · rw [hopened, Rose.paragraphOf, List.append_nil]
    rfl
  · intro _ _ q hq
    rw [List.getLast?_concat, Option.some.injEq] at hq
    rw [← hq, hend]
  · cases pending with
    | nil => rcases hp with rfl | rfl | rfl <;> simp [Place.lay, Rose.gather, hr, Rose.paragraphOf]
    | cons q qs =>
      obtain rfl := h.mixed (List.cons_ne_nil q qs)
      simp [Place.lay, Rose.gather, hr]

/-! ## Blank lines -/

/-- What stands before a block and its start tell of a blank line if there is one. -/
theorem blank_iff (h : Telling s p c offset reach kids [] outer a) (hp : p ≠ .inlines)
    (start : Nat) :
    (a.top.children.isEmpty || !s.blankBetween a.blockEnd start) =
      !Rose.blankAfter s kids start := by
  rw [isEmpty_of_opened h.opened]
  rcases hlast : kids.getLast? with _ | r
  · rw [List.getLast?_eq_none_iff] at hlast
    subst hlast
    rfl
  · have hne : kids ≠ [] := by
      rintro rfl
      cases hlast
    have hchildren : (Rose.mapRow (Passage.told s) kids).isEmpty = false := by
      cases kids with
      | nil => exact absurd rfl hne
      | cons r rs => rfl
    rw [h.blockEnd rfl hp r hlast, Rose.blankAfter, hlast]
    simp [Opened.ofPassages, hchildren]

/-- A blank line before a block that starts here loosens the list. -/
theorem loosenForBlank (h : Telling s p c offset reach kids [] outer a) (hp : p ≠ .inlines)
    (start : Nat) :
    (a.loosenForBlank s start).opened =
      .ofPassages s (c.loosenIf (p.isLoose s kids || p.blankBefore s kids start)) offset false
          kids ::
        Opened.loosenHead (p = .mixed && (p.isLoose s kids || p.blankBefore s kids start))
          outer := by
  have hopened := h.opened
  rw [Rose.paragraphOf, List.append_nil, Opened.ofRun, List.nil_append] at hopened
  have hkind := h.kind_top
  have hinside := h.inside
  unfold Assembly.loosenForBlank
  rw [h.blank_iff hp start]
  cases hblank : Rose.blankAfter s kids start with
  | false => simp [hopened, Place.blankBefore, hblank]
  | true =>
    simp only [Bool.not_true, Bool.false_eq_true, if_false, hkind, Place.blankBefore, hblank]
    cases p with
    | items =>
      have hc : c.kind = .list := by simpa [Place.isIn] using hinside
      simp only [hc]
      rw [Assembly.opened, List.map_cons, Frame.opened_loosen, (top_of_opened hopened).1,
        (top_of_opened hopened).2]
      simp [Opened.loosenIf, Opened.ofPassages, ← Content.loosenIf_or]
    | mixed =>
      have hc : c.kind = .item := by simpa [Place.isIn] using hinside
      have hplain : ∀ loose, c.loosenIf loose = c :=
        Content.loosenIf_of_kind (by rw [hc]; simp)
      simp only [hc]
      rw [opened_loosenBelow hopened]
      simp [hplain, ← Opened.loosenHead_or]
    | blocks =>
      have hc : (c.kind = .document ∨ c.kind = .blockQuote) ∨ c.kind = .customBlock := by
        simpa [Place.isIn] using hinside
      rcases hc with (hc | hc) | hc <;> simp [hc, hopened]
    | inlines => exact absurd rfl hp
    | codeText =>
      have hc : c.kind = .codeBlock := by simpa [Place.isIn] using hinside
      simp [hc, hopened]
    | htmlText =>
      have hc : c.kind = .htmlBlock := by simpa [Place.isIn] using hinside
      simp [hc, hopened]

/-! ## Inlines -/

/-- Where a construct holds inlines, one more goes after its passages. -/
theorem added_inline {r : Rose Passage} (h : Telling s .inlines c offset reach kids [] outer a)
    {a' : Assembly}
    (hopened : a'.opened = .ofPassages s (c.loosenIf false) offset false (kids ++ [r]) ::
      Opened.loosenHead false outer)
    (hend : a'.inlineEnd = r.label.reach) :
    Added s .inlines c offset reach kids [] outer [r] a' := by
  refine ⟨kids ++ [r], [], ⟨h.inside, by simp, by simp, hopened, fun _ => ?_, by simp, by simp⟩,
    fun rest => ?_⟩
  · rw [hend, Rose.reachOf_append_singleton]
  · simp [Place.lay]

/-- In an item, an inline goes after those in the open paragraph, or into a new one. What
is loose is so already when the paragraph opens. -/
theorem added_pending {r : Rose Passage} (h : Telling s .mixed c offset reach kids pending outer a)
    (hr : r.label.isInline = true) {a' : Assembly}
    (hopened : a'.opened =
      Opened.ofRun s (pending ++ [r]) ++
        .ofPassages s
            (c.loosenIf (Place.isLoose s (kids ++ Rose.paragraphOf (pending ++ [r])) .mixed)) offset
            false kids ::
          Opened.loosenHead (Place.isLoose s (kids ++ Rose.paragraphOf (pending ++ [r])) .mixed)
            outer)
    (hend : a'.inlineEnd = r.label.reach) :
    Added s .mixed c offset reach kids pending outer [r] a' := by
  have hinlines : ∀ x ∈ pending ++ [r], x.label.isInline = true :=
    List.forall_mem_append.mpr ⟨h.inlines, List.forall_mem_singleton.mpr hr⟩
  refine ⟨kids, pending ++ [r], ⟨h.inside, hinlines, fun _ => rfl, hopened, by simp, fun x hx => ?_,
    by simp⟩, fun rest => ?_⟩
  · rw [List.getLast?_concat, Option.some.injEq] at hx
    rw [← hx, hend]
  · simp [Place.lay, Rose.gather, hr]

/-- A paragraph in an item loosens its list by where it starts, not by how it goes on. -/
theorem isLoose_paragraphOf (s : Source) (kids : List (Rose Passage)) (q : Rose Passage)
    (qs : List (Rose Passage)) :
    Place.isLoose s (kids ++ Rose.paragraphOf (q :: qs)) .mixed =
      (Place.isLoose s kids .mixed || Place.blankBefore s kids q.label.start .mixed) := by
  rw [Rose.paragraphOf, Place.isLoose_append_singleton]
  exact Bool.or_false _

/-- Before an inline, the innermost construct is one to which the inline may go. -/
theorem forInline {j : Kind} (start stop : Nat)
    (h : Telling s p c offset reach kids pending outer a) (hp : p = .mixed ∨ p = .inlines)
    (hj : j.isInline = true) :
    ∃ b bs, (a.forInline s j start stop).opened = b :: bs ∧
      (a.forInline s j start stop).inlineEnd = stop ∧
      ∀ r : Rose Passage, r.label.isInline = true → r.label.start = start →
        ∀ a' : Assembly, a'.opened = b.push (r.map (Passage.told s)) :: bs →
          a'.inlineEnd = r.label.reach →
          Added s p c offset reach kids pending outer [r] a' := by
  have hopened := h.opened
  unfold Assembly.forInline
  cases pending with
  | nil =>
    rcases hp with rfl | rfl
    · -- directly in an item: a paragraph opens for the inline
      have hk : a.top.kind = .item := h.kind_top.trans (by simpa [Place.isIn] using h.inside)
      have hnot : a.top.kind.canContain j = false := by
        rw [hk]
        revert hj
        cases j <;> decide
      have hblank := h.loosenForBlank (by simp) start
      rw [if_neg (by simp [hnot])]
      refine ⟨.ofPassages s .paragraph start true [], _, congrArg (_ :: ·) hblank, rfl, ?_⟩
      rintro r hr rfl a' ha' hend
      refine h.added_pending hr ?_ hend
      rw [ha', Opened.push_ofPassages, List.nil_append, isLoose_paragraphOf]
      rfl
    · have hc : a.top.kind.canContain j = true := by
        rw [h.kind_top]
        exact Place.canContain_inline h.inside hj
      rw [if_pos hc]
      refine ⟨_, _, hopened, rfl, fun r _ _ a' ha' hend => h.added_inline ?_ hend⟩
      rw [ha', Opened.push_ofPassages]
      rfl
  | cons q qs =>
    obtain rfl := h.mixed (List.cons_ne_nil q qs)
    have hc : a.top.kind.canContain j = true := by
      rw [kind_of_opened hopened]
      exact Place.canContain_inline rfl hj
    rw [if_pos hc]
    refine ⟨_, _, hopened, rfl, fun r hr _ a' ha' hend => h.added_pending hr ?_ hend⟩
    rw [ha', Opened.push_ofPassages, List.cons_append, isLoose_paragraphOf, isLoose_paragraphOf]
    rfl

theorem leafInline {content : Content} (start stop : Nat)
    (h : Telling s p c offset reach kids pending outer a) (hp : p = .mixed ∨ p = .inlines)
    (hj : content.kind.isInline = true) :
    Added s p c offset reach kids pending outer [.node ⟨content, start, stop, stop, false⟩ []]
      (a.leafInline s content start stop) := by
  obtain ⟨b, bs, hb, hend, hadded⟩ := h.forInline start stop hp hj
  exact hadded (.node ⟨content, start, stop, stop, false⟩ []) hj rfl _ (opened_leaf _ hb) hend

/-! ## Events without anything inside -/

theorem taking_eq (h : Telling s p c offset reach kids pending outer a)
    (hp : p ≠ .codeText ∧ p ≠ .htmlText) (t : Text) : c.taking t = c := by
  have hin := h.inside
  cases p <;> cases c <;> simp_all [Place.isIn, Content.kind, Content.taking]

/-- In a code or HTML block a text goes into the literal. -/
theorem gather_text (t : Text) {content : Content} (start stop : Nat)
    (h : Telling s p c offset reach kids pending outer a) (hp : p = .codeText ∨ p = .htmlText)
    (row : List (Rose Passage)) :
    Added s p (c.taking t) offset reach kids pending outer row (a.gather s t content start stop) := by
  have hopened := h.opened
  cases pending with
  | cons q qs =>
    have hmixed := h.mixed (List.cons_ne_nil q qs)
    rcases hp with rfl | rfl <;> cases hmixed
  | nil =>
    have hcalm : ∀ row, p.isLoose s row = false := by rcases hp with rfl | rfl <;> exact fun _ => rfl
    have hkind : c.kind = .codeBlock ∨ c.kind = .htmlBlock := by
      have hin := h.inside
      rcases hp with rfl | rfl
      · exact Or.inl (by simpa [Place.isIn] using hin)
      · exact Or.inr (by simpa [Place.isIn] using hin)
    rw [hcalm] at hopened
    obtain ⟨hgathered, hblock⟩ := opened_gather s t content start stop hopened hkind
    refine ⟨kids, [], ⟨?_, by simp, by simp, ?_, ?_, by simp, ?_⟩, ?_⟩
    · rw [Content.kind_taking]
      exact h.inside
    · rw [hgathered, hcalm]
      rfl
    · intro hi
      rcases hp with rfl | rfl <;> cases hi
    · rw [hblock]
      exact h.blockEnd
    · intro rest
      rcases hp with rfl | rfl <;> rfl

/-- Elsewhere it is an inline. -/
theorem gather_inline (t : Text) {content : Content} (start stop : Nat)
    (h : Telling s p c offset reach kids pending outer a) (hp : p = .mixed ∨ p = .inlines)
    (hj : content.kind.isInline = true) :
    Added s p c offset reach kids pending outer [.node ⟨content, start, stop, stop, false⟩ []]
      (a.gather s t content start stop) := by
  have hnone : a.top.node.content.gather? t = none := by
    have hkind : a.top.kind ≠ .codeBlock ∧ a.top.kind ≠ .htmlBlock := by
      have hin := h.inside
      have hopened := h.opened
      cases pending with
      | nil =>
        rw [h.kind_top]
        rcases hp with rfl | rfl <;>
          constructor <;> intro hk <;> rw [hk] at hin <;> simp [Place.isIn] at hin
      | cons q qs =>
        rw [kind_of_opened hopened]
        simp [Opened.ofPassages, Content.kind]
    unfold Frame.kind Node.kind at hkind
    cases hc : a.top.node.content <;> simp_all [Content.gather?, Content.kind]
  unfold Assembly.gather
  rw [hnone]
  exact h.leafInline start stop hp hj

theorem rule (start stop : Nat) (h : Telling s p c offset reach kids pending outer a)
    (hp : p = .blocks ∨ p = .mixed) :
    Added s p c offset reach kids pending outer [.node ⟨.thematicBreak, start, stop, stop, false⟩ []]
      (a.rule s start stop) := by
  have hinline : p ≠ .inlines := by rcases hp with rfl | rfl <;> simp
  have hloosened : p.loosenedBy s (.node ⟨.thematicBreak, start, stop, stop, false⟩ []) = false := by
    rcases hp with rfl | rfl <;> rfl
  refine h.added_block (by tauto) rfl ?_ rfl
  rw [Place.isLoose_append_singleton, hloosened, Bool.or_false, ← Opened.push_ofPassages]
  exact opened_leaf _ (h.leaveImplied.loosenForBlank hinline start)

/-- An event that may stand alone adds its passage. -/
theorem step_leaf (start stop : Nat) {e : Event}
    (h : Telling s p c offset reach kids pending outer a) (he : p.takesEvent e = true) :
    Added s p (c.taking e.literal) offset reach kids pending outer
      (e.plan.map fun r => .node ⟨r.label, start, stop, stop, false⟩ [])
      (a.step s ⟨start, stop, e⟩) := by
  rcases Place.of_takesEvent he with ⟨rfl, hp⟩ | ⟨hi, hp⟩ | ⟨hp, t, ht⟩
  · rw [h.taking_eq (by rcases hp with rfl | rfl <;> simp)]
    exact h.rule start stop hp
  · rw [h.taking_eq (by rcases hp with rfl | rfl <;> simp)]
    cases e with
    | start | finish | rule | math | footnoteReference | taskMarker => cases hi
    | text t => exact h.gather_inline t start stop hp rfl
    | html t => exact h.gather_inline t start stop hp rfl
    | code t => exact h.leafInline start stop hp rfl
    | inlineHtml t => exact h.leafInline start stop hp rfl
    | softBreak => exact h.leafInline start stop hp rfl
    | hardBreak => exact h.leafInline start stop hp rfl
  · rcases ht with rfl | rfl
    · exact h.gather_text t start stop hp _
    · exact h.gather_text t start stop hp _

/-! ## Constructs -/

/-- An explicit paragraph loosens the list around its item. -/
theorem loosenForParagraph (h : Telling s p c offset reach kids [] outer a) :
    Telling s p c offset reach kids [] (Opened.loosenHead (p = .mixed) outer)
      a.loosenForParagraph := by
  have hinside := h.inside
  have hopened := h.opened
  unfold Assembly.loosenForParagraph
  by_cases hp : p = .mixed
  · subst hp
    have hk : a.top.kind = .item := h.kind_top.trans (by simpa [Place.isIn] using hinside)
    have hend : a.loosenBelow.inlineEnd = a.inlineEnd ∧ a.loosenBelow.blockEnd = a.blockEnd := by
      unfold loosenBelow
      split <;> exact ⟨rfl, rfl⟩
    rw [if_pos hk]
    refine ⟨hinside, h.inlines, h.mixed, ?_, by simp, by simp, ?_⟩
    · refine (opened_loosenBelow hopened).trans (congrArg (_ :: ·) ?_)
      rw [← Opened.loosenHead_or, ← Opened.loosenHead_or, Bool.or_comm]
      rfl
    · rw [hend.2]
      exact h.blockEnd
  · have hk : a.top.kind ≠ .item := by
      intro hk
      rw [← h.kind_top, hk] at hinside
      refine hp ?_
      revert hinside
      cases p <;> decide
    rw [if_neg hk, decide_eq_false hp, Opened.loosenHead_false]
    exact h

/-- A block that is entered stands after the passages, and a blank line before
it counts. -/
theorem enterBlock {content : Content} (start stop : Nat)
    (h : Telling s p c offset reach kids [] outer a) (hp : p ≠ .inlines) :
    (a.enterBlock s content start stop).opened =
      .ofPassages s content start false [] ::
        .ofPassages s (c.loosenIf (p.isLoose s kids || p.blankBefore s kids start)) offset false
            kids ::
          Opened.loosenHead (p = .mixed && (p.isLoose s kids || p.blankBefore s kids start))
            outer := by
  rw [Assembly.enterBlock, h.leaveImplied_eq, opened_enter, h.loosenForBlank hp start]
  rfl

/-- The start of a block opens it, and the blank line before it, or a
paragraph in an item, loosens the list. -/
theorem startTag_block (start stop : Nat) {tag : Tag}
    (h : Telling s p c offset reach kids pending outer a) (hp : p ≠ .inlines)
    (hb : tag.kind.isBlock = true) :
    let row := kids ++ Rose.paragraphOf pending
    let loose := p.isLoose s row || p.blankBefore s row start
    (a.startTag s tag start stop).opened =
      .ofPassages s (tag.content s start) start false [] ::
        .ofPassages s (c.loosenIf loose) offset false row ::
          Opened.loosenHead (p = .mixed && (loose || tag = .paragraph)) outer := by
  intro row loose
  by_cases ht : tag = .paragraph
  · subst ht
    refine (h.leaveImplied.loosenForParagraph.enterBlock start stop hp).trans ?_
    rw [← Opened.loosenHead_or]
    cases p <;> simp [loose, row]
  · have hstart : a.startTag s tag start stop =
        (a.leaveImplied s).enterBlock s (tag.content s start) start stop := by
      rw [startTag.eq_def]
      split
      · exact absurd rfl ht
      · simp only [Tag.kind_content, if_pos hb, Assembly.enterBlock, h.leaveImplied.leaveImplied_eq]
    rw [hstart, h.leaveImplied.enterBlock start stop hp]
    simp [ht, loose, row]

/-- What a closed construct adds to the looseness of its list. -/
theorem loosenedBy_eq {tag : Tag} {r : Rose Passage} (ht : p.takesTag tag = true)
    (hb : tag.kind.isBlock = true) (hkind : r.label.content.kind = tag.kind)
    (himplied : r.label.implied = false) :
    (p = .items → p.loosenedBy s r = tag.place.isLoose s r.children ∧ tag.place = .mixed) ∧
      (p = .mixed → p.loosenedBy s r = (tag = .paragraph : Bool) ∧ tag.place ≠ .mixed) ∧
        (p = .blocks → tag.place ≠ .mixed) := by
  refine ⟨?_, ?_, ?_⟩
  · rintro rfl
    have htag : tag = .item := by simpa [Place.takesTag] using ht
    subst htag
    exact ⟨rfl, rfl⟩
  · rintro rfl
    refine ⟨?_, ?_⟩
    · rw [Place.loosenedBy, Passage.isParagraph, hkind, himplied]
      cases tag with
      | extension => cases ht
      | _ => simp [Tag.kind]
    · rintro hplace
      rw [Tag.eq_item_of_place hplace] at ht
      cases ht
  · rintro rfl hplace
    rw [Tag.eq_item_of_place hplace] at ht
    cases ht

/-- To start an inline is to enter it. -/
theorem startTag_inline (s : Source) (start stop : Nat) {tag : Tag}
    (hb : tag.kind.isBlock = false) (a : Assembly) :
    a.startTag s tag start stop = a.enterInline s (tag.content s start) start stop := by
  cases tag with
  | extension e =>
    rw [startTag]
    · rw [if_neg (by rw [Tag.kind_content, hb]; exact Bool.false_ne_true)]
    · exact Tag.noConfusion
  | _ => first | rfl | cases hb

/-- Nothing is told yet in a construct that has just been opened. -/
theorem of_entered {tag : Tag} {start : Nat} {b : Opened} {bs : List Opened}
    (ha : a.opened = .ofPassages s (tag.content s start) start false [] :: b :: bs) :
    Telling s tag.place (tag.content s start) start a.inlineEnd [] [] (b :: bs) a := by
  have hplace : tag.place.isIn (tag.content s start).kind = true := by
    rw [tag.kind_content]
    exact tag.place_isIn
  refine ⟨hplace, by simp, by simp, ?_, fun _ => rfl, by simp, by simp⟩
  rw [ha, Rose.paragraphOf, List.append_nil, Place.isLoose_nil, Bool.and_false,
    Opened.loosenHead_false]
  rfl

/-- The start of an inline opens it where an inline may go. -/
theorem step_start_inline (start stop : Nat) {tag : Tag}
    (h : Telling s p c offset reach kids pending outer a) (ht : p.takesTag tag = true)
    (hb : tag.kind.isBlock = false) :
    ∃ b bs, Telling s tag.place (tag.content s start) start stop [] [] (b :: bs)
        (a.step s ⟨start, stop, .start tag⟩) ∧
      ∀ r : Rose Passage, r.label.content.kind = tag.kind → r.label.start = start →
        ∀ a' : Assembly, a'.opened = b.push (r.map (Passage.told s)) :: bs →
          a'.inlineEnd = r.label.reach → Added s p c offset reach kids pending outer [r] a' := by
  have hinline : tag.kind.isInline = true := by
    rw [Kind.isInline, hb]
    rfl
  obtain ⟨b, bs, hs, hend, hadded⟩ :=
    h.forInline start stop (Place.of_takesTag_inline ht hb) ((tag.kind_content s start).symm ▸ hinline)
  have hstep : a.step s ⟨start, stop, .start tag⟩ =
      a.enterInline s (tag.content s start) start stop := startTag_inline s start stop hb a
  have hopened : (a.step s ⟨start, stop, .start tag⟩).opened =
      .ofPassages s (tag.content s start) start false [] :: b :: bs := by
    rw [hstep, Assembly.enterInline, opened_enter, hs]
    rfl
  have hreach : (a.step s ⟨start, stop, .start tag⟩).inlineEnd = stop := by
    rw [hstep]
    exact hend
  have hin := of_entered hopened
  rw [hreach] at hin
  refine ⟨b, bs, hin, fun r hkind hstart => hadded r ?_ hstart⟩
  rw [Passage.isInline, hkind]
  exact hinline

/-- The start of a block opens it after the passages. What the block holds, and what it
is, can make the list around it loose. -/
theorem step_start_block (start stop : Nat) {tag : Tag}
    (h : Telling s p c offset reach kids pending outer a) (ht : p.takesTag tag = true)
    (hb : tag.kind.isBlock = true) :
    ∃ b bs reach', Telling s tag.place (tag.content s start) start reach' [] [] (b :: bs)
        (a.step s ⟨start, stop, .start tag⟩) ∧
      ∀ r : Rose Passage, r.label.content.kind = tag.kind → r.label.start = start →
        r.label.implied = false → ∀ a' : Assembly,
        a'.opened =
          (b.loosenIf (tag.place = .mixed && tag.place.isLoose s r.children)).push
            (r.map (Passage.told s)) :: bs →
        a'.blockEnd = r.label.bottom s → Added s p c offset reach kids pending outer [r] a' := by
  have hp := Place.of_takesTag_block ht hb
  have hinline : p ≠ .inlines := by rcases hp with rfl | rfl | rfl <;> simp
  refine ⟨_, _, _, of_entered (h.startTag_block start stop hinline hb), ?_⟩
  intro r hkind hstart himplied a' ha' hend
  refine h.added_block hp (by rw [Passage.isInline, hkind, Kind.isInline, hb]; rfl) ?_ hend
  obtain ⟨hitems, hmixed, hblocks⟩ := loosenedBy_eq (s := s) ht hb hkind himplied
  rw [ha', Place.isLoose_append_singleton, hstart, ← Opened.push_ofPassages]
  rcases hp with rfl | rfl | rfl
  · simp [hblocks rfl, Place.isLoose, Place.blankBefore, Place.loosenedBy, Opened.loosenIf,
      Opened.ofPassages, Content.loosenIf_false, Opened.loosenHead_false]
  · simp [(hitems rfl).1, (hitems rfl).2, Opened.loosenIf, Opened.ofPassages,
      ← Content.loosenIf_or, Opened.loosenHead_false]
  · have hc : c.kind = .item := by simpa [Place.isIn] using h.inside
    have hplain := Content.loosenIf_of_kind (c := c) (by rw [hc]; simp)
    simp [(hmixed rfl).1, (hmixed rfl).2, Opened.loosenIf, Opened.ofPassages, hplain]

/-- The start of a construct opens it. When the construct is closed, it is one
passage more at the place. -/
theorem step_start (start stop : Nat) {tag : Tag}
    (h : Telling s p c offset reach kids pending outer a) (ht : p.takesTag tag = true) :
    ∃ b bs reach', (tag.kind.isBlock = false → reach' = stop) ∧
      Telling s tag.place (tag.content s start) start reach' [] [] (b :: bs)
        (a.step s ⟨start, stop, .start tag⟩) ∧
      ∀ r : Rose Passage, r.label.content.kind = tag.kind → r.label.start = start →
        r.label.implied = false → ∀ a' : Assembly,
        a'.opened =
          (b.loosenIf (tag.place = .mixed && tag.place.isLoose s r.children)).push
            (r.map (Passage.told s)) :: bs →
        (tag.kind.isBlock = true → a'.blockEnd = r.label.bottom s) →
        (tag.kind.isBlock = false → a'.inlineEnd = r.label.reach) →
        Added s p c offset reach kids pending outer [r] a' := by
  rcases hb : tag.kind.isBlock with _ | _
  · obtain ⟨b, bs, hin, hadded⟩ := h.step_start_inline start stop ht hb
    refine ⟨b, bs, stop, fun _ => rfl, hin, fun r hkind hstart _ a' ha' _ hreach => ?_⟩
    rw [tag.place_of_inline hb] at ha'
    exact hadded r hkind hstart a' ha' (hreach rfl)
  · obtain ⟨b, bs, reach', hin, hadded⟩ := h.step_start_block start stop ht hb
    exact ⟨b, bs, reach', by simp, hin, fun r hkind hstart himplied a' ha' hend _ =>
      hadded r hkind hstart himplied a' ha' (hend rfl)⟩

/-- The finish of a construct closes it. -/
theorem step_finish (finishStart finishStop : Nat) {b : Opened} {bs : List Opened}
    (h : Telling s p c offset reach kids pending (b :: bs) a) :
    let row := kids ++ Rose.paragraphOf pending
    let a' := a.step s ⟨finishStart, finishStop, .finish⟩
    a'.opened = (b.loosenIf (p = .mixed && p.isLoose s row)).push
        (Opened.close (s.endPosition offset finishStop)
          (.ofPassages s (c.loosenIf (p.isLoose s row)) offset false row)) :: bs ∧
      (c.kind.isBlock = true → a'.blockEnd = s.trimmedEnd offset finishStop) ∧
      (p = .inlines → a'.inlineEnd = Rose.reachOf reach row) := by
  intro row
  have hleft := h.leaveImplied
  have hopened := hleft.opened
  rw [Rose.paragraphOf, List.append_nil, Opened.ofRun, List.nil_append] at hopened
  have hbelow : (a.leaveImplied s).below.isEmpty = false := by
    have hmap := (top_of_opened hopened).2
    rcases hb : (a.leaveImplied s).below with _ | ⟨f, fs⟩
    · rw [hb] at hmap
      cases hmap
    · rfl
  have hoffset : (a.leaveImplied s).top.offset = offset := offset_of_opened hopened
  have hkind := hleft.kind_top
  have hclosed := opened_leave (s.endPosition offset finishStop) hopened
  have hinlineEnd : ∀ q, ((a.leaveImplied s).leave q).inlineEnd = (a.leaveImplied s).inlineEnd := by
    intro q
    unfold leave
    split <;> rfl
  unfold step finishTag
  simp only [hbelow, Bool.false_eq_true, if_false, hoffset, hkind]
  split
  · exact ⟨hclosed, fun _ => rfl, fun hp => (hinlineEnd _).trans (hleft.inlineEnd hp)⟩
  · rename_i hblock
    exact ⟨hclosed, fun h => absurd h hblock,
      fun hp => (hinlineEnd _).trans (hleft.inlineEnd hp)⟩

/-- Reading an outline adds its passages at the place where it stands. -/
theorem run {o : Outline} (h : Telling s p c offset reach kids pending outer a)
    (ho : o.fits p = true) :
    Added s p (c.taking o.literal) offset reach kids pending outer (o.passages s)
      (a.run s o.events) := by
  induction o generalizing p c offset reach kids pending outer a with
  | nil =>
    rw [Outline.literal, Content.taking_nil]
    exact h.added_nil
  | leaf start stop event next ih =>
    obtain ⟨he, hnext⟩ := Bool.and_eq_true_iff.mp ho
    rw [Outline.literal, ← Content.taking_taking]
    exact (h.step_leaf start stop he).trans fun kids' pending' h' => ih h' hnext
  | enclose tag start stop finishStart finishStop inside next ihinside ihnext =>
    obtain ⟨hboth, hnext⟩ := Bool.and_eq_true_iff.mp ho
    obtain ⟨ht, hinside⟩ := Bool.and_eq_true_iff.mp hboth
    obtain ⟨b, bs, reach', hreach, hin, hadded⟩ := h.step_start start stop ht
    obtain ⟨kids', pending', hin', heq⟩ := ihinside hin hinside
    have hrow : kids' ++ Rose.paragraphOf pending' = tag.place.lay [] (inside.passages s) := by
      rw [← hin'.lay_nil]
      simpa using heq []
    obtain ⟨hopened, hblock, hinline⟩ := hin'.step_finish finishStart finishStop
    rw [hrow] at hopened hinline
    rw [Content.kind_taking, tag.kind_content] at hblock
    rw [Outline.events, Assembly.run, List.foldl_cons, List.foldl_append, List.foldl_cons]
    refine (hadded _ ?_ rfl rfl _ hopened hblock fun hb => ?_).trans
      fun kids' pending' h' => ihnext h' hnext
    · exact (Content.kind_loosenIf _ _).trans ((Content.kind_taking _ _).trans (tag.kind_content s start))
    · rw [hreach hb] at hinline
      exact hinline (tag.place_of_inline hb)

end Telling

end MarkupTree
