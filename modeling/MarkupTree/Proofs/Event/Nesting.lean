-- Nested events make a tree in which every node fits into its parent. The passages of an
-- outline fit where the outline stands, and the nodes have the kinds of the passages.
import MarkupTree.Proofs.Document.Sound
import MarkupTree.Proofs.Document.Told
import MarkupTree.Proofs.Event.Numbering

namespace MarkupTree

/-! ## Passages that fit -/

/-- What stands in the passage fits there. -/
def Rose.Fits (r : Rose Passage) : Prop :=
  ∀ c ∈ r.children, r.label.content.kind.canContain c.label.content.kind = true

theorem Event.isInline_of_mem_plan {e : Event} (he : e.isInline = true) {r : Rose Content}
    (hr : r ∈ e.plan) : r.label.kind.isInline = true := by
  cases e with
  | start | finish | rule | math | footnoteReference | taskMarker => cases he
  | text | code | html | inlineHtml | softBreak | hardBreak =>
    rw [List.mem_singleton.mp hr]
    rfl

namespace Outline

variable {s : Source} {o : Outline} {p : Place} {k : Kind}

/-- What is told at a place fits into the construct there. In an item, inlines need a
paragraph, and blocks that gather text hold nothing. -/
theorem fits_or_inline (ho : o.fits p = true) (hk : p.isIn k = true) :
    ∀ r ∈ o.passages s, k.canContain r.label.content.kind = true ∨
      p = .mixed ∧ r.label.isInline = true ∨ p = .codeText ∨ p = .htmlText := by
  have hinline : ∀ {j : Kind}, p = .mixed ∨ p = .inlines → j.isInline = true →
      k.canContain j = true ∨ p = .mixed ∧ j.isInline = true := by
    rintro j (rfl | rfl) hj
    · exact Or.inr ⟨rfl, hj⟩
    · exact Or.inl (Place.canContain_inline hk hj)
  induction o with
  | nil => exact fun r hr => absurd hr List.not_mem_nil
  | leaf start stop event next ih =>
    obtain ⟨he, hnext⟩ := Bool.and_eq_true_iff.mp ho
    refine List.forall_mem_append.mpr ⟨fun r hr => ?_, ih hnext⟩
    rcases Place.of_takesEvent he with ⟨rfl, hp⟩ | ⟨hi, hp⟩ | ⟨hp, -⟩
    · rw [List.mem_singleton.mp hr]
      exact Or.inl (Place.canContain_rule hp hk)
    · obtain ⟨q, hq, rfl⟩ := List.mem_map.mp hr
      exact (hinline hp (Event.isInline_of_mem_plan hi hq)).imp_right Or.inl
    · exact Or.inr (Or.inr hp)
  | enclose tag start stop finishStart finishStop inside next _ ihnext =>
    obtain ⟨hboth, hnext⟩ := Bool.and_eq_true_iff.mp ho
    obtain ⟨ht, -⟩ := Bool.and_eq_true_iff.mp hboth
    refine List.forall_mem_cons.mpr ⟨?_, ihnext hnext⟩
    rw [Rose.label, Passage.isInline, Content.kind_loosenIf, Content.kind_taking, tag.kind_content]
    rcases hb : tag.kind.isBlock with _ | _
    · refine (hinline (Place.of_takesTag_inline ht hb) ?_).imp_right Or.inl
      rw [Kind.isInline, hb]
      rfl
    · exact Or.inl (Place.canContain_block ht hb hk)

/-- What a construct holds fits into it. -/
theorem canContain_lay (ho : o.fits p = true) (hk : p.isIn k = true) :
    ∀ r ∈ p.lay [] (o.passages s), k.canContain r.label.content.kind = true := by
  have htold := fits_or_inline (s := s) ho hk
  cases p with
  | mixed =>
    obtain rfl : k = .item := by simpa [Place.isIn] using hk
    intro r hr
    rcases Rose.mem_gather (by simp) hr with ⟨hr, hblock⟩ | ⟨qs, -, hr⟩
    · rcases htold r hr with hfit | ⟨-, hinline⟩ | h | h
      · exact hfit
      · exact absurd hinline (by simp [hblock])
      · cases h
      · cases h
    · cases qs with
      | nil => cases hr
      | cons q qs =>
        rw [List.mem_singleton.mp hr]
        rfl
  | codeText | htmlText => exact fun r hr => absurd hr List.not_mem_nil
  | blocks | items | inlines => exact fun r hr => by simpa using htold r hr

/-- Each passage of an outline fits into the one around it. -/
theorem fits_passages (ho : o.fits p = true) :
    ∀ r ∈ Rose.subrosesRow (o.passages s), r.Fits := by
  induction o generalizing p with
  | nil => exact fun r hr => absurd hr List.not_mem_nil
  | leaf start stop event next ih =>
    rw [passages, Rose.subrosesRow_append]
    refine List.forall_mem_append.mpr ⟨fun r hr => ?_, ih (Bool.and_eq_true_iff.mp ho).2⟩
    obtain ⟨c, -, rfl⟩ := mem_subrosesRow_plan hr
    exact fun c hc => absurd hc List.not_mem_nil
  | enclose tag start stop finishStart finishStop inside next ihinside ihnext =>
    obtain ⟨hboth, hnext⟩ := Bool.and_eq_true_iff.mp ho
    obtain ⟨-, hinside⟩ := Bool.and_eq_true_iff.mp hboth
    rw [passages, Rose.subrosesRow, Rose.subroses]
    refine List.forall_mem_append.mpr ⟨List.forall_mem_cons.mpr ⟨?_, ?_⟩, ihnext hnext⟩
    · have hkind : tag.place.isIn (((tag.content s start).taking inside.literal).loosenIf
          (tag.place.isLoose s (tag.place.lay [] (inside.passages s)))).kind = true := by
        rw [Content.kind_loosenIf, Content.kind_taking, tag.kind_content]
        exact tag.place_isIn
      exact canContain_lay hinside hkind
    · exact Rose.forall_lay _ (ihinside hinside) fun _ q qs hrun c hc =>
        Place.canContain_inline rfl (hrun.inlines c hc)

theorem fits_document (ho : o.fits .blocks = true) : ∀ r ∈ (o.document s).subroses, r.Fits :=
  List.forall_mem_cons.mpr ⟨canContain_lay ho rfl, fits_passages ho⟩

end Outline

/-! ## Documents from nested events -/

/-- A node that tells of a passage holds what fits if the passage does. -/
theorem Tree.Tells.fits {s : Source} {t : Tree} {r : Rose Passage} (h : t.Tells s r) (hr : r.Fits) :
    ∀ c ∈ t.row.children, t.row.node.kind.canContain c.kind = true := by
  intro c hc
  have hmem := List.mem_map_of_mem (f := Node.told) hc
  rw [h.children] at hmem
  obtain ⟨q, hq, heq⟩ := List.mem_map.mp hmem
  have hkind : c.kind = q.label.content.kind := congrArg (fun u : Told => u.1.kind) heq.symm
  have htop : t.row.node.kind = r.label.content.kind := congrArg Content.kind h.content
  rw [hkind, htop]
  exact hr q hq

namespace Document

/-- A document from nested events is sound. -/
theorem sound_ofEvents (s : Source) {o : Outline} (ho : o.fits .blocks = true) :
    Sound (ofEvents s o.events) := by
  obtain ⟨t, htrees, hroot⟩ := trees_ofEvents s o.events
  have hids := ids_ofEvents s o.events
  have hfit : ∀ r ∈ (ofEvents s o.events).trees.rows, ∀ c ∈ r.children,
      r.node.kind.canContain c.kind = true := by
    intro row hrow
    obtain ⟨u, hu, rfl⟩ := List.mem_map.mp hrow
    obtain ⟨r, hr, htells⟩ := exists_told ho hu
    exact htells.fits (Outline.fits_document ho r hr)
  have hkind : t.node.kind = .document := by
    have htold := roses_told_ofEvents s ho
    rw [htrees] at htold
    have hdocument : t.Tells s (o.document s) := (List.cons.inj htold).1
    exact congrArg Content.kind hdocument.content
  refine ⟨List.Perm.of_eq hids, ⟨t.node, by rw [htrees]; rfl, hroot, hkind⟩, ?_, hfit⟩
  intro n hn hk
  rcases List.mem_append.mp ((Forest.nodes_perm _).subset hn) with hn | hn
  · rw [htrees] at hn
    rw [List.mem_singleton.mp hn]
    exact hroot
  · -- a child is no document, since nothing holds one
    obtain ⟨r, hr, hc⟩ := List.mem_flatMap.mp hn
    have hfit' := hfit r hr n hc
    rw [hk, Kind.not_canContain_document] at hfit'
    cases hfit'

end Document

end MarkupTree
