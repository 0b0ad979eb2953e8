-- Edits of an arena beside edits of the document that it shows. Each edit of
-- the arena comes to an end. It is refused when the document refuses it, for
-- the same reason, and then no slot has changed. Otherwise the arena shows the
-- document after the edit.
import MarkupTree.Proofs.Arena.Documents
import MarkupTree.Proofs.Arena.Links

namespace MarkupTree

namespace Arena

open Document (rootId Grounded chart)

variable {a b : Arena} {d d' : Document} {p c : NodeId}

/-! ## What the arena knows of the document -/

section

variable (h : a.Shows d.chart) (hd : Grounded d)

include h

theorem Shows.slot_of_node {n : Node} (hn : d.node? p = some n) :
    ∃ s, a.slot? p = some s ∧ s.label p = n := by
  have hnode := (h.node p).trans hn
  rwa [node?, Option.map_eq_some_iff] at hnode

include hd

theorem Shows.contains_eq (id : NodeId) : a.contains id = d.contains id := by
  rw [hd.contains_eq, contains, h.count]
  rfl

theorem Shows.mem_ids_iff {id : NodeId} : id ∈ d.trees.ids ↔ id < a.count := by
  rw [hd.mem_ids_iff, h.count]
  rfl

theorem Shows.parent?_eq (id : NodeId) : a.parent? id = d.parent? id :=
  Option.ext fun _ => h.parent_iff.trans (Document.parent?_eq_some_iff hd.distinct).symm

/-! ## The checks -/

theorem on_checkKnown (ids : List NodeId) :
    (Editing.checkKnown ids).on a = some (d.checkKnown ids, a) := by
  induction ids with
  | nil => rfl
  | cons id ids ih =>
    rw [Editing.checkKnown, Document.checkKnown, Editing.on_bind Editing.on_get,
      h.contains_eq hd]
    split
    · exact ih
    · rfl

omit h hd in
/-- The way upward from a place, where it ends. -/
theorem on_climb (child : NodeId) {place : Option NodeId} {l : List NodeId}
    (hl : Document.Leads a.parent? place l) (hlt : ∀ id ∈ l, id < a.count) :
    (Editing.climb child place).on a =
      some (if child ∈ l then .error (.ownSubtree child) else .ok (), a) := by
  induction hl with
  | stop => rw [Editing.climb, Editing.Loop.run, if_neg (by simp)]; rfl
  | @step id l _ ih =>
    by_cases hid : id = child
    · rw [if_pos (by simp [hid])]
      refine Editing.on_loop_refused ?_
      simp only [Editing.climbing, if_pos hid]
      rfl
    · obtain ⟨s, hs⟩ := exists_slot (hlt id (by simp))
      have hup : a.parent? id = s.parent := by rw [parent?, hs]; rfl
      have hturn : ((Editing.climbing child).turn id).on a = some (.ok (a.parent? id), a) := by
        simp only [Editing.climbing, if_neg hid, hup]
        exact Editing.on_bind (Editing.on_data hs)
      refine (Editing.on_loop hturn).trans ?_
      rw [← Editing.climb, ih fun x hx => hlt x (List.mem_cons_of_mem _ hx)]
      simp [Ne.symm hid]

/-- The way upward from a node is its lineage. -/
theorem leads_lineage (hp : p < a.count) :
    Document.Leads a.parent? (some p) (d.lineage p) ∧ ∀ id ∈ d.lineage p, id < a.count := by
  have hmem := (h.mem_ids_iff hd).mpr hp
  constructor
  · rw [show a.parent? = d.parent? from funext (h.parent?_eq hd)]
    exact Document.leads_upward hd.distinct hmem
  · intro id hid
    rw [Document.mem_lineage_iff hd.distinct hmem] at hid
    rcases Relation.ReflTransGen.cases_head hid with rfl | ⟨c, hc, -⟩
    · exact hp
    · exact h.parent_lt hc

theorem on_checkInsert (p c : NodeId) :
    (Editing.checkInsert p c).on a = some (d.checkInsert p c, a) := by
  have hknown := on_checkKnown h hd [p, c]
  rw [Document.checkKnown_pair] at hknown
  by_cases hk : p ∉ d.trees.ids ∨ c ∉ d.trees.ids
  · rw [Document.checkInsert_unknown hk]
    refine Editing.on_bind_refused (hknown.trans ?_)
    by_cases hp : p ∈ d.trees.ids
    · simp [hp, hk.resolve_left (not_not_intro hp)]
    · simp [hp]
  · simp only [not_or, not_not] at hk
    obtain ⟨m, hm⟩ := Document.exists_node? hk.1
    obtain ⟨n, hn⟩ := Document.exists_node? hk.2
    obtain ⟨s, hs, rfl⟩ := h.slot_of_node hm
    obtain ⟨t, ht, rfl⟩ := h.slot_of_node hn
    obtain ⟨hup, hlt⟩ := leads_lineage h hd (lt_of_slot hs)
    rw [if_neg (not_not_intro hk.1), if_neg (not_not_intro hk.2)] at hknown
    rw [Document.checkInsert_eq hm hn, Editing.checkInsert, Editing.on_bind hknown]
    by_cases hroot : c = rootId
    · rw [if_pos hroot, if_pos hroot]
      exact Editing.on_bind_refused rfl
    · rw [if_neg hroot, if_neg hroot]
      dsimp only
      rw [Editing.on_bind (Editing.on_data hs), Editing.on_bind (Editing.on_data ht)]
      have hp : (s.label p).kind = s.content.kind := rfl
      have hc : (t.label c).kind = t.content.kind := rfl
      rw [hp, hc]
      by_cases hfit : s.content.kind.canContain t.content.kind = true
      · rw [if_neg (by simp [hfit]), if_neg (not_not_intro hfit), on_climb _ hup hlt]
      · rw [if_pos (by simpa using hfit), if_pos hfit]
        exact Editing.on_bind_refused rfl

theorem on_siblingParent (anchor node : NodeId) :
    (Editing.siblingParent anchor node).on a = some (d.siblingParent anchor node, a) := by
  have hknown := on_checkKnown h hd [anchor, node]
  rw [Document.checkKnown_pair] at hknown
  rw [Document.siblingParent_eq, Editing.siblingParent]
  by_cases ha : anchor ∈ d.trees.ids
  · by_cases hn : node ∈ d.trees.ids
    · rw [if_neg (not_not_intro ha), if_neg (not_not_intro hn)] at hknown ⊢
      rw [Editing.on_bind hknown]
      by_cases hroot : anchor = rootId ∨ node = rootId
      · rw [if_pos hroot, if_pos hroot]
        exact Editing.on_bind_refused rfl
      · obtain ⟨s, hs⟩ := exists_slot ((h.mem_ids_iff hd).mp ha)
        have hup : s.parent = d.parent? anchor := by
          rw [← h.parent?_eq hd, parent?, hs]
          rfl
        rw [if_neg hroot, if_neg hroot]
        dsimp only
        rw [Editing.on_bind (Editing.on_data hs), hup]
        cases d.parent? anchor <;> rfl
    · simp only [ha, hn, not_true_eq_false, not_false_eq_true, if_false, if_true] at hknown ⊢
      exact Editing.on_bind_refused hknown
  · simp only [ha, not_false_eq_true, if_true] at hknown ⊢
    exact Editing.on_bind_refused hknown

end

/-! ## Edits -/

/-- The run goes as the document says: where the document refuses, so does the
run, and no slot has changed. Otherwise the arena shows the new document. -/
def Follows (a : Arena) (m : Editing Unit) : Except EditError Document → Prop
  | .ok d' => ∃ b, m.on a = some (.ok (), b) ∧ b.Shows d'.chart
  | .error e => m.on a = some (.error e, a)

theorem Shows.unlink (h : a.Shows d.chart) (hc : c < a.count) :
    ∃ b, (Editing.unlink c).on a = some (.ok (), b) ∧ b.Shows (d.chart.without c) ∧
      b.count = a.count ∧ ∀ q, c ∉ (d.chart.without c).children q := by
  obtain ⟨b, hb, hun⟩ := on_unlink h hc
  exact ⟨b, hb, hun.shows h, hun.count, fun q hq => by simp at hq⟩

section

variable (h : a.Shows d.chart) (hd : Grounded d)

include h hd

theorem Shows.lt_of_insertable {m n : Node} (hi : Document.Insertable d p c m n) :
    p < a.count ∧ c < a.count :=
  ⟨(h.mem_ids_iff hd).mp (Document.mem_ids_of_node? hi.parent),
    (h.mem_ids_iff hd).mp (Document.mem_ids_of_node? hi.child)⟩

/-- A node that may become a child of `p` is taken out and put in. -/
theorem follows_insertInto (side : Side) {p c : NodeId} {link : Editing Unit}
    (hlink : ∀ {b K}, Shows b K → p < b.count → c < b.count → (∀ q, c ∉ K.children q) →
      ∃ b', link.on b = some (.ok (), b') ∧
        b'.Shows (K.setChildren p (Siblings.around side c (K.children p)))) :
    Follows a (do Editing.checkInsert p c; Editing.unlink c; link) (d.insertInto side p c) := by
  have hcheck := on_checkInsert h hd p c
  rcases hr : d.checkInsert p c with e | u
  · rw [hr] at hcheck
    rw [Document.insertInto_eq, hr]
    exact Editing.on_bind_refused hcheck
  · rw [hr] at hcheck
    obtain ⟨m, n, hi⟩ := Document.insertable_of_checkInsert hr
    have hok : ∃ d', d.insertInto side p c = .ok d' := by
      rw [Document.insertInto_eq, hr]
      exact ⟨_, rfl⟩
    obtain ⟨d', hok⟩ := hok
    obtain ⟨hp, hc⟩ := h.lt_of_insertable hd hi
    obtain ⟨b, hb, hshows, hcount, hall⟩ := h.unlink hc
    obtain ⟨b', hb', hshows'⟩ := hlink hshows (hcount ▸ hp) (hcount ▸ hc) hall
    rw [hok]
    refine ⟨b', ?_, hshows'.congr (Document.chart_insertInto hd side hok)⟩
    rw [Editing.on_bind hcheck, Editing.on_bind hb, hb']

theorem follows_appendChild (p c : NodeId) :
    Follows a (Editing.appendChild p c) (d.appendChild p c) :=
  follows_insertInto h hd .after fun hb hp hc hall => on_linkLast hb hp hc hall

theorem follows_prependChild (p c : NodeId) :
    Follows a (Editing.prependChild p c) (d.prependChild p c) :=
  follows_insertInto h hd .before fun hb hp hc hall => on_linkEnd hb .before hp hc hall

theorem follows_insertBeside (side : Side) (anchor node : NodeId) :
    Follows a (Editing.insertBeside side anchor node) (d.insertBeside side anchor node) := by
  have hparent := on_siblingParent h hd anchor node
  rcases hp : d.siblingParent anchor node with e | p
  · rw [hp] at hparent
    rw [Document.insertBeside_eq, hp]
    exact Editing.on_bind_refused hparent
  · rw [hp] at hparent
    by_cases hne : anchor = node
    · subst hne
      have hr : d.insertBeside side anchor anchor = .ok d := by
        rw [Document.insertBeside_eq, hp]
        simp [bind, Except.bind, pure, Except.pure]
      rw [hr]
      refine ⟨a, ?_, h⟩
      rw [Editing.insertBeside, Editing.on_bind hparent, if_neg (not_not_intro rfl)]
      rfl
    · have hcheck := on_checkInsert h hd p node
      rcases hi : d.checkInsert p node with e | u
      · rw [hi] at hcheck
        have hr : d.insertBeside side anchor node = .error e := by
          rw [Document.insertBeside_eq, hp]
          simp [bind, Except.bind, hne, hi]
        rw [hr, Follows, Editing.insertBeside, Editing.on_bind hparent, if_pos hne]
        exact Editing.on_bind_refused hcheck
      · rw [hi] at hcheck
        have hr : ∃ d', d.insertBeside side anchor node = .ok d' := by
          rw [Document.insertBeside_eq, hp]
          simp [bind, Except.bind, pure, Except.pure, hne, hi]
        obtain ⟨d', hok⟩ := hr
        obtain ⟨m, n, hi⟩ := Document.insertable_of_checkInsert hi
        obtain ⟨-, hc⟩ := h.lt_of_insertable hd hi
        obtain ⟨q, us, vs, hq, hsplit, hchart⟩ := Document.chart_insertBeside hd side hne hok
        rw [(Document.siblingParent_ok hp).2, Option.some.injEq] at hq
        subst hq
        obtain ⟨b, hb, hshows, hcount, hall⟩ := h.unlink hc
        obtain ⟨b', hb', hshows'⟩ := on_linkBeside hshows side hsplit (hcount ▸ hc) hall
        rw [hok]
        refine ⟨b', ?_, hshows'.congr hchart⟩
        rw [Editing.insertBeside, Editing.on_bind hparent, if_pos hne, Editing.on_bind hcheck,
          Editing.on_bind hb, hb']

theorem follows_detach (c : NodeId) : Follows a (Editing.detach c) (d.detach c) := by
  have hknown := on_checkKnown h hd [c]
  have hlt : c ∈ d.trees.ids ↔ c < a.count := h.mem_ids_iff hd
  rw [Document.checkKnown, Document.checkKnown] at hknown
  by_cases hc : c ∈ d.trees.ids
  · rw [if_pos (Document.contains_iff.mpr hc)] at hknown
    by_cases hroot : c = rootId
    · rw [Document.detach_eq, if_neg (not_not_intro hc), if_pos hroot, Follows, Editing.detach,
        Editing.on_bind hknown, if_pos hroot]
      exact Editing.on_bind_refused rfl
    · obtain ⟨b, hb, hshows, -⟩ := h.unlink (hlt.mp hc)
      have hok : d.detach c = .ok (d.move c fun t f => f.append t.alone) := by
        rw [Document.detach_eq, if_neg (not_not_intro hc), if_neg hroot]
      have hchart := Document.chart_detach hd hok
      rw [hok]
      refine ⟨b, ?_, hshows.congr hchart⟩
      rw [Editing.detach, Editing.on_bind hknown, if_neg hroot]
      exact hb
  · rw [if_neg fun hm => hc (Document.contains_iff.mp hm)] at hknown
    rw [Document.detach_eq, if_pos hc]
    exact Editing.on_bind_refused hknown

end

/-! ## New nodes -/

theorem on_create (k : Kind) :
    (Editing.create k).on a =
      if k = .document then some (.error (.cannotContain .document .document), a)
      else some (.ok a.count, a.push { content := .ofKind k }) := by
  rw [Editing.create]
  by_cases hk : k = .document
  · rw [if_pos hk, if_pos hk]
    exact Editing.on_bind_refused rfl
  · rw [if_neg hk, if_neg hk]
    exact Editing.on_alloc _ _ _

/-! ## Properties -/

/-- Of two contents that are written one after the other, the second stays. -/
theorem change_withContent (a : Arena) (id : NodeId) (c c' : Content) :
    (a.change id (Slot.withContent c)).change id (Slot.withContent c') =
      a.change id (Slot.withContent c') := by
  rw [change, change, change]
  congr 1
  exact List.modify_modify_eq _ _ _ _

/-- What comes of a change of a property of the slot `s`. -/
def outcome (a : Arena) (id : NodeId) (s : Slot) (change : Change) :
    Option (Except EditError Unit × Arena) :=
  match s.content.apply change with
  | .ok content => some (.ok (), a.change id (Slot.withContent content))
  | .error e => some (.error e, a)

section

variable {id : NodeId} {s : Slot} (hs : a.slot? id = some s)

include hs

theorem slot_withContent (content : Content) :
    (a.change id (Slot.withContent content)).slot? id = some (s.withContent content) := by
  rw [slot?_change_self, hs]
  rfl

theorem on_update (property : Property) (f : Content → Option Content) :
    (Editing.update id property f).on a =
      match f s.content with
      | some content => some (.ok (), a.change id (Slot.withContent content))
      | none => some (.error (.notApplicable s.content.kind property), a) := by
  rw [Editing.update, Editing.on_bind (Editing.on_data hs)]
  cases hf : f s.content with
  | some content =>
    simp only [hf]
    exact Editing.on_change (lt_of_slot hs) _
  | none =>
    simp only [hf]
    rfl

theorem on_updateStyle {style : ListStyle} (hc : s.content = .list style) (property : Property)
    (f : ListStyle → ListStyle) :
    (Editing.updateStyle id property f).on a =
      some (.ok (), a.change id (Slot.withContent (.list (f style)))) := by
  rw [Editing.updateStyle, on_update hs, hc]
  rfl

theorem on_setHeadingLevel (level : Nat) :
    (Editing.setHeadingLevel id level).on a = a.outcome id s (.headingLevel level) := by
  rw [Editing.setHeadingLevel, Editing.on_bind (Editing.on_data hs), outcome]
  cases hc : s.content with
  | heading old =>
    by_cases hl : 1 ≤ level ∧ level ≤ 6
    · simp only [Content.apply, hl, and_self, if_true, not_true_eq_false, if_false]
      exact Editing.on_change (lt_of_slot hs) _
    · simp only [Content.apply, hl, if_false, not_false_eq_true, if_true]
      exact Editing.on_bind_refused rfl
  | _ => rfl

theorem on_setListDelim (delimiter : Delimiter) :
    (Editing.setListDelim id delimiter).on a = a.outcome id s (.listDelim delimiter) := by
  rw [Editing.setListDelim, Editing.on_bind (Editing.on_data hs), outcome]
  cases hc : s.content with
  | list style =>
    by_cases hk : style.kind = .bullet
    · simp only [Content.apply, hk, if_true]
      exact Editing.on_bind_refused rfl
    · simp only [Content.apply, hk, if_false]
      exact Editing.on_change (lt_of_slot hs) _
  | _ => rfl

/-- The writes to the style of a list come to one write. -/
theorem on_setListType (kind : ListKind) :
    (Editing.setListType id kind).on a = a.outcome id s (.listType kind) := by
  rw [outcome]
  cases hc : s.content with
  | list style =>
    have hkind := on_updateStyle hs hc .listType fun style => { style with kind }
    have hs' := slot_withContent hs (.list { style with kind })
    cases kind with
    | bullet =>
      rw [Editing.setListType.eq_def, Editing.on_bind hkind]
      dsimp only
      rw [on_updateStyle hs' rfl, change_withContent]
      rfl
    | ordered =>
      have hdelim := on_updateStyle hs' rfl .listType fun style =>
        { style with delimiter := some (style.delimiter.getD .period) }
      rw [change_withContent] at hdelim
      have hs'' := slot_withContent hs
        (.list { style with kind := .ordered, delimiter := some (style.delimiter.getD .period) })
      rw [Editing.setListType.eq_def, Editing.on_bind hkind]
      dsimp only
      rw [Editing.on_bind hdelim, on_updateStyle hs'' rfl, change_withContent]
      simp only [Content.apply, Content.setStyle, ListStyle.ofKind]
      split <;> rfl
  | _ =>
    rw [Editing.setListType.eq_def]
    refine Editing.on_bind_refused ?_
    rw [Editing.updateStyle, on_update hs, hc]
    rfl

theorem on_set (change : Change) : (Editing.set id change).on a = a.outcome id s change := by
  have hupdate : ∀ {property f}, s.content.apply change = (match f s.content with
        | some c => .ok c
        | none => .error (.notApplicable s.content.kind property)) →
      (Editing.update id property f).on a = a.outcome id s change := by
    intro property f happly
    rw [on_update hs, outcome, happly]
    cases f s.content <;> rfl
  cases change with
  | headingLevel level => exact on_setHeadingLevel hs level
  | listType kind => exact on_setListType hs kind
  | listDelim delimiter => exact on_setListDelim hs delimiter
  | _ => exact hupdate rfl

end

end Arena

end MarkupTree
