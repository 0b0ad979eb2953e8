-- What the kinds of nodes say about places: which constructs hold an outline
-- of a place, and that they hold whatever the place takes.
import MarkupTree.Event.Assembly
import MarkupTree.Proofs.Event.Outline

namespace MarkupTree

/-- The kinds of constructs that hold outlines of the place. -/
def Place.isIn : Place → Kind → Bool
  | .blocks, k => k = .document || k = .blockQuote || k = .customBlock
  | .items, k => k = .list
  | .mixed, k => k = .item
  | .inlines, k =>
    k = .paragraph || k = .heading || k = .emphasis || k = .strong || k = .link || k = .image ||
      k = .customInline
  | .codeText, k => k = .codeBlock
  | .htmlText, k => k = .htmlBlock

/-- The kind of the node that a tag starts. -/
def Tag.kind : Tag → Kind
  | .paragraph => .paragraph
  | .heading _ => .heading
  | .blockQuote => .blockQuote
  | .codeBlock _ => .codeBlock
  | .htmlBlock => .htmlBlock
  | .list _ => .list
  | .item => .item
  | .emphasis => .emphasis
  | .strong => .strong
  | .link _ _ _ => .link
  | .image _ _ _ => .image
  | .extension e => e.content.kind

theorem Tag.kind_content (s : Source) (offset : Nat) (tag : Tag) :
    (tag.content s offset).kind = tag.kind := by
  cases tag <;> rfl

theorem Tag.place_isIn (tag : Tag) : tag.place.isIn tag.kind = true := by
  cases tag with
  | extension e => cases e <;> rfl
  | _ => rfl

/-- Only an item mixes blocks and inlines. -/
theorem Tag.eq_item_of_place {tag : Tag} (h : tag.place = .mixed) : tag = .item := by
  cases tag with
  | item => rfl
  | extension e => cases e <;> cases h
  | _ => cases h

/-- An inline holds inlines. -/
theorem Tag.place_of_inline {tag : Tag} (h : tag.kind.isBlock = false) : tag.place = .inlines := by
  cases tag with
  | extension e => cases e <;> first | rfl | cases h
  | _ => first | rfl | cases h

theorem Kind.not_canContain_document (k : Kind) : k.canContain .document = false := by
  cases k <;> rfl

namespace Place

variable {p : Place} {k : Kind}

/-! ## Alone -/

/-- Where an event may stand alone. -/
theorem of_takesEvent {e : Event} (he : p.takesEvent e = true) :
    (e = .rule ∧ (p = .blocks ∨ p = .mixed)) ∨
      (e.isInline = true ∧ (p = .mixed ∨ p = .inlines)) ∨
        ((p = .codeText ∨ p = .htmlText) ∧ ∃ t, e = .text t ∨ e = .html t) := by
  cases p <;> cases e <;> simp_all [takesEvent, Event.isInline]

/-- What holds inlines takes every inline. -/
theorem canContain_inline {j : Kind} (hk : inlines.isIn k = true) (hj : j.isInline = true) :
    k.canContain j = true := by
  revert hk hj
  cases k <;> cases j <;> decide

/-- What holds blocks takes a rule. -/
theorem canContain_rule (hp : p = .blocks ∨ p = .mixed) (hk : p.isIn k = true) :
    k.canContain .thematicBreak = true := by
  revert hk
  rcases hp with rfl | rfl <;> cases k <;> decide

/-! ## With a tag -/

/-- A block may stand where the place takes its tag. -/
theorem canContain_block {tag : Tag} (ht : p.takesTag tag = true)
    (hb : tag.kind.isBlock = true) (hk : p.isIn k = true) :
    k.canContain tag.kind = true := by
  revert hk
  cases p <;> cases tag <;>
    simp_all [takesTag, Tag.isBlock, Tag.isInline, Tag.kind, Kind.isBlock] <;>
    cases k <;> decide

/-- Where a block may stand. -/
theorem of_takesTag_block {tag : Tag} (ht : p.takesTag tag = true)
    (hb : tag.kind.isBlock = true) : p = .blocks ∨ p = .items ∨ p = .mixed := by
  cases p <;> cases tag <;>
    simp_all [takesTag, Tag.isInline, Tag.kind, Kind.isBlock]

theorem of_takesTag_inline {tag : Tag} (ht : p.takesTag tag = true)
    (hb : tag.kind.isBlock = false) : p = .mixed ∨ p = .inlines := by
  cases p <;> cases tag <;>
    simp_all [takesTag, Tag.isBlock, Tag.isInline, Tag.kind, Kind.isBlock]

end Place

/-! ## Gathered texts -/

namespace Content

theorem gather?_ne_none {t : Text} {c : Content} (h : c.kind = .codeBlock ∨ c.kind = .htmlBlock) :
    c.gather? t ≠ none := by
  cases c <;> simp_all [kind, gather?]

end Content

end MarkupTree
