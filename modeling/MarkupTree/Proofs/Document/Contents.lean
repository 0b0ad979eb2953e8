-- Lasting properties of contents hold in every document of every session. The
-- level of a heading is one of 1 to 6 for this reason, and the bullet of a list
-- one of three signs.
import MarkupTree.Proofs.Document.Effects
import MarkupTree.Proofs.Event.Contents

namespace MarkupTree

variable {P : Content → Prop}

/-! ## Merging texts -/

namespace Forest

theorem Holds.joinText (hP : Lasting P) {n : Node} {cs f : Forest}
    (h : (Forest.cons n cs f).Holds P) : (Forest.joinText n cs f).Holds P := by
  unfold Forest.joinText
  split
  · exact h
  · obtain ⟨hn, hcs, hf⟩ := holds_cons.mp h
    split
    · exact holds_cons.mpr ⟨hP.text _, hcs, (holds_cons.mp hf).2.2⟩
    · exact h

theorem Holds.mergeTexts (hP : Lasting P) {f : Forest} (h : f.Holds P) : f.mergeTexts.Holds P := by
  induction f with
  | nil => exact h
  | cons n cs rest ihc ihr =>
    obtain ⟨hn, hcs, hrest⟩ := holds_cons.mp h
    exact Holds.joinText hP (holds_cons.mpr ⟨hn, ihc hcs, ihr hrest⟩)

theorem Holds.absorbed {f : Forest} (h : f.Holds P) (afterText : Bool) :
    (f.absorbed afterText).Holds P := by
  induction f generalizing afterText with
  | nil => exact h
  | cons n cs rest ihc ihr =>
    obtain ⟨hn, hcs, hrest⟩ := holds_cons.mp h
    unfold Forest.absorbed
    split
    · exact holds_cons.mpr ⟨hn, hcs, ihr hrest true⟩
    · exact holds_append.mpr ⟨ihc hcs false, ihr hrest n.isText⟩

theorem Holds.modify {f : Forest} {g : Node → Node} (h : f.Holds P) (id : NodeId)
    (hg : ∀ n ∈ f.nodes, n.id = id → P (g n).content) : (f.modify id g).Holds P := by
  induction f with
  | nil => exact h
  | cons n cs rest ihc ihr =>
    obtain ⟨hn, hcs, hrest⟩ := holds_cons.mp h
    simp only [nodes, List.forall_mem_cons, List.forall_mem_append] at hg
    refine holds_cons.mpr ⟨?_, ihc hcs hg.2.1, ihr hrest hg.2.2⟩
    split
    · exact hg.1 ‹_›
    · exact hn

end Forest

/-! ## Sessions -/

namespace Document

variable {d d' : Document}

theorem holds_origin (hP : Lasting P) (o : Origin) : o.document.trees.Holds P := by
  cases o with
  | new => exact Forest.holds_cons.mpr ⟨hP.made .document, Forest.holds_nil, Forest.holds_nil⟩
  | events source outline hfits =>
    exact holds_ofEvents hP source (Outline.isLevelled_events hfits)

theorem holds_rearranged {edit : Row → Row} (h : d.trees.Holds P) (hr : Rearranged edit d d') :
    d'.trees.Holds P := fun n hn => h n (hr.nodes.subset hn)

theorem holds_normalize (hP : Lasting P) (h : d.trees.Holds P) : d.normalize.trees.Holds P := by
  unfold normalize
  split
  · exact h
  · rename_i root body rest htrees
    rw [htrees] at h
    obtain ⟨hroot, hbody, hrest⟩ := Forest.holds_cons.mp h
    exact Forest.holds_cons.mpr
      ⟨hroot, hbody.mergeTexts hP, Forest.holds_append.mpr ⟨hrest, hbody.absorbed false⟩⟩

theorem holds_set (hP : Lasting P) (hd : d.trees.Distinct) (h : d.trees.Holds P) {id : NodeId}
    {change : Change} (hok : d.set id change = .ok d') : d'.trees.Holds P := by
  obtain ⟨n, content, hn, hc, htrees⟩ := set_ok hok
  rw [htrees]
  refine h.modify id fun m hm hid => ?_
  have hmn : d.node? id = some m := (node?_eq_some_iff hd).mpr ⟨hm, hid⟩
  rw [hn, Option.some.injEq] at hmn
  exact hP.changed change (h m hm) (hmn ▸ hc)

/-- No effect of an edit takes the property away. -/
theorem Effect.holds {e : Edit} (he : Effect d e d') (hP : Lasting P) (hd : d.trees.Distinct)
    (h : d.trees.Holds P) : d'.trees.Holds P := by
  cases he with
  | move edit hr => exact holds_rearranged h hr
  | create hc =>
    rw [(create_ok hc).2.2]
    refine Forest.holds_append.mpr ⟨h, Forest.holds_cons.mpr ?_⟩
    exact ⟨hP.made _, Forest.holds_nil, Forest.holds_nil⟩
  | normalize => exact holds_normalize hP h
  | set hs => exact holds_set hP hd h hs

/-- Any edits keep the property. -/
theorem holds_edits (hP : Lasting P) (hd : Grounded d) (h : d.trees.Holds P) (es : List Edit) :
    (es.foldl after d).trees.Holds P := by
  induction es generalizing d with
  | nil => exact h
  | cons e es ih => exact ih (grounded_after hd e) ((effect_after hd e).holds hP hd.distinct h)

theorem Session.holds (hP : Lasting P) (x : Session) : x.document.trees.Holds P :=
  holds_edits hP (sound_origin x.origin).grounded (holds_origin hP x.origin) x.edits

end Document

/-! ## Levels -/

/-- A heading has one of the levels 1 to 6. -/
def Content.IsLevelled (c : Content) : Prop := ∀ level, c = .heading level → 1 ≤ level ∧ level ≤ 6

theorem Content.lasting_isLevelled : Lasting Content.IsLevelled where
  made k level h := by
    cases k <;> cases h
    exact ⟨Nat.le_refl 1, by decide⟩
  listed s start offset level h := by cases h
  changed {c c'} change _ hok level h := by
    subst h
    have hkind := kind_apply hok
    cases c with
    | heading old =>
      cases change with
      | headingLevel new =>
        simp only [apply] at hok
        split at hok
        · cases hok
          assumption
        · cases hok
      | literal | listType | listStart | listDelim | listTight | fenceInfo | url | title
      | onEnter | onExit => cases hok
    | document | blockQuote | list | item | codeBlock | htmlBlock | customBlock | paragraph
    | thematicBreak | text | softBreak | lineBreak | code | htmlInline | customInline | emphasis
    | strong | link | image => cases hkind

/-! ## Bullets -/

/-- The bullet of a list is a dash, a plus sign or a star, also where it does not show. -/
def Content.IsBulleted (c : Content) : Prop :=
  ∀ style, c = .list style → style.bullet ∈ ['-', '+', '*']

theorem bullet_listStyle (s : Source) (start : Option Nat) (offset : Nat) :
    (listStyle s start offset).bullet ∈ ['-', '+', '*'] := by
  unfold listStyle
  cases start with
  | some number => simp
  | none =>
    dsimp only
    split <;> simp

theorem Content.lasting_isBulleted : Lasting Content.IsBulleted where
  made k style h := by
    cases k <;> cases h
    simp
  listed s start offset style h := by
    cases h
    exact bullet_listStyle s start offset
  changed {c c'} change hc hok style h := by
    subst h
    have hkind := kind_apply hok
    cases c with
    | list old =>
      -- no change has a bullet as its value
      have hsame : style.bullet = old.bullet := by
        cases change with
        | listType kind =>
          cases hok
          cases kind <;> rfl
        | listStart | listTight =>
          cases hok
          rfl
        | listDelim =>
          simp only [apply] at hok
          split at hok
          · cases hok
          · cases hok
            rfl
        | literal | headingLevel | fenceInfo | url | title | onEnter | onExit => cases hok
      rw [hsame]
      exact hc old rfl
    | document | blockQuote | item | codeBlock | htmlBlock | customBlock | paragraph | heading
    | thematicBreak | text | softBreak | lineBreak | code | htmlInline | customInline | emphasis
    | strong | link | image => cases hkind

end MarkupTree
