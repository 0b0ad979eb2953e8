-- A session with a document: it begins with a new document or one from
-- events, and goes on with any edits in any order. An edit that is refused
-- leaves the document as it is. Every document of every session is sound.
import MarkupTree.Proofs.Document.Normalizing
import MarkupTree.Proofs.Event.Nesting

namespace MarkupTree

namespace Document

inductive Edit
  | create (kind : Kind)
  | appendChild (parent child : NodeId)
  | prependChild (parent child : NodeId)
  | insertBefore (anchor node : NodeId)
  | insertAfter (anchor node : NodeId)
  | detach (id : NodeId)
  | normalize
  | set (id : NodeId) (change : Change)
  deriving DecidableEq, Repr

/-- The document that an edit makes, or why it is refused. -/
def perform (d : Document) : Edit → Except EditError Document
  | .create kind => (d.create kind).map (·.2)
  | .appendChild parent child => d.appendChild parent child
  | .prependChild parent child => d.prependChild parent child
  | .insertBefore anchor node => d.insertBefore anchor node
  | .insertAfter anchor node => d.insertAfter anchor node
  | .detach id => d.detach id
  | .normalize => .ok d.normalize
  | .set id change => d.set id change

/-- The document after an edit, whether it succeeds or is refused. -/
def after (d : Document) (e : Edit) : Document :=
  match d.perform e with
  | .ok d' => d'
  | .error _ => d

/-- Where a session begins. -/
inductive Origin
  | new
  | events (source : Source) (outline : Outline) (fits : outline.fits .blocks = true)

def Origin.document : Origin → Document
  | .new => Document.new
  | .events source outline _ => ofEvents source outline.events

structure Session where
  origin : Origin
  edits : List Edit

/-- The document at the end of a session. -/
def Session.document (x : Session) : Document := x.edits.foldl after x.origin.document

/-! ## Every session keeps its document sound -/

theorem sound_new : Sound Document.new where
  numbered := List.Perm.refl _
  rooted := ⟨_, rfl, rfl, rfl⟩
  one_document := by
    intro n hn _
    rw [List.mem_singleton.mp hn]
  fits := by
    intro r hr c hc
    rw [List.mem_singleton.mp hr] at hc
    cases hc

theorem sound_origin (o : Origin) : Sound o.document := by
  cases o with
  | new => exact sound_new
  | events source outline hfits => exact sound_ofEvents source hfits

theorem sound_perform {d d' : Document} {e : Edit} (h : Sound d) (hok : d.perform e = .ok d') :
    Sound d' := by
  cases e with
  | create kind =>
    rcases hc : d.create kind with err | ⟨id, c⟩
    · rw [perform, hc] at hok
      cases hok
    · rw [perform, hc] at hok
      cases hok
      exact sound_create h hc
  | appendChild parent child => exact sound_insertInto h .after hok
  | prependChild parent child => exact sound_insertInto h .before hok
  | insertBefore anchor node => exact sound_insertBeside h .before hok
  | insertAfter anchor node => exact sound_insertBeside h .after hok
  | detach id => exact sound_detach h hok
  | normalize =>
    cases hok
    exact sound_normalize h
  | set id change => exact sound_set h hok

/-- An edit keeps a document sound. -/
theorem sound_after {d : Document} (h : Sound d) (e : Edit) : Sound (d.after e) := by
  unfold after
  rcases he : d.perform e with err | d'
  · exact h
  · exact sound_perform h he

/-- Any edits keep a document sound. -/
theorem sound_edits {d : Document} (h : Sound d) (es : List Edit) : Sound (es.foldl after d) := by
  induction es generalizing d with
  | nil => exact h
  | cons e es ih => exact ih (sound_after h e)

theorem Session.sound (x : Session) : Sound x.document := sound_edits (sound_origin x.origin) x.edits

end Document

end MarkupTree
