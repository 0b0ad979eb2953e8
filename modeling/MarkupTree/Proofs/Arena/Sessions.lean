-- A session on an arena. Each edit runs on the arena as the edit before left
-- it, and what a run has written stays, whether the run was refused or not.
-- The arena of a session is always there, and it shows the document of the
-- session. So what is known of documents is known of arenas.
import MarkupTree.Proofs.Arena.Building
import MarkupTree.Proofs.Document.Runs

namespace MarkupTree

open Document (Edit Grounded Origin Session Beginning Run)

/-- The run of an edit. A new number goes to nobody. -/
def Editing.perform : Edit → Editing Unit
  | .create kind => do let _ ← create kind
  | .appendChild parent child => appendChild parent child
  | .prependChild parent child => prependChild parent child
  | .insertBefore anchor node => insertBeside .before anchor node
  | .insertAfter anchor node => insertBeside .after anchor node
  | .detach id => detach id
  | .normalize => normalize
  | .set id change => do
    checkKnown [id]
    set id change

namespace Arena

/-- The run is refused, and the arena is as it was. -/
def Refuses (a : Arena) (m : Editing Unit) (e : EditError) : Prop := m.on a = some (.error e, a)

/-- The run succeeds. -/
def Succeeds (a : Arena) (m : Editing Unit) : Prop := ∃ b, m.on a = some (.ok (), b)

/-- The arena after an edit, whether it succeeds or is refused. -/
def after (a : Arena) (e : Edit) : Option Arena := ((Editing.perform e).on a).map (·.2)

/-- The arena after any edits. -/
def edits (a : Arena) (es : List Edit) : Option Arena := es.foldlM after a

/-- The arena with what the events of a source build. -/
def built (source : Source) (events : List Marked) : Option Arena :=
  ((Editing.build source events).on .new).map (·.2)

end Arena

def Document.Origin.arena : Origin → Option Arena
  | .new => some .new
  | .events source outline _ => Arena.built source outline.events

/-- The arena at the end of a session. -/
def Document.Session.arena (x : Session) : Option Arena := x.origin.arena.bind (·.edits x.edits)

def Document.Beginning.arena : Beginning → Option Arena
  | .new => some .new
  | .events source marks _ => Arena.built source marks

/-- The arena at the end of a run. -/
def Document.Run.arena (x : Run) : Option Arena := x.beginning.arena.bind (·.edits x.edits)

namespace Arena

variable {a : Arena} {d : Document}

/-! ## Any edit -/

section

variable (h : a.Shows d.chart) (hd : Grounded d)

include h hd

theorem follows_create (k : Kind) :
    Follows a (Editing.perform (.create k)) ((d.create k).map (·.2)) := by
  have hrun := on_create (a := a) k
  rcases hr : d.create k with e | ⟨id, d'⟩
  · rw [Document.create] at hr
    split at hr
    · cases hr
      rw [if_pos ‹_›] at hrun
      exact Editing.on_bind_refused hrun
    · cases hr
  · obtain ⟨hk, -⟩ := Document.create_ok hr
    rw [if_neg hk] at hrun
    refine ⟨_, Editing.on_bind hrun, ?_⟩
    exact (h.push (.ofKind k) .unknown .unknown).congr (Document.chart_create hd hr)

theorem follows_set (id : NodeId) (change : Change) :
    Follows a (Editing.perform (.set id change)) (d.set id change) := by
  have hknown := on_checkKnown h hd [id]
  rw [Document.checkKnown, Document.checkKnown] at hknown
  rcases hn : d.node? id with _ | n
  · have hid : id ∉ d.trees.ids := fun hm => by
      obtain ⟨n, hn'⟩ := Document.exists_node? hm
      rw [hn] at hn'
      cases hn'
    rw [if_neg fun hc => hid (Document.contains_iff.mp hc)] at hknown
    simp only [Document.set, hn]
    exact Editing.on_bind_refused hknown
  · rw [if_pos (Document.contains_iff.mpr (Document.mem_ids_of_node? hn))] at hknown
    obtain ⟨s, hs, rfl⟩ := h.slot_of_node hn
    have hrun := on_set hs change
    rw [outcome] at hrun
    have hcontent : (s.label id).content = s.content := rfl
    cases hc : s.content.apply change with
    | error e =>
      rw [hc] at hrun
      simp only [Document.set, hn, hcontent, hc]
      exact (Editing.on_bind hknown).trans hrun
    | ok content =>
      rw [hc] at hrun
      simp only [Document.set, hn, hcontent, hc]
      refine ⟨_, (Editing.on_bind hknown).trans hrun, ?_⟩
      exact (h.withContent id fun _ => content).congr (Document.chart_modify (fun _ => rfl) rfl)

/-- Each edit of the arena goes as the document says. -/
theorem follows_perform (e : Edit) : Follows a (Editing.perform e) (d.perform e) := by
  cases e with
  | create k => exact follows_create h hd k
  | appendChild p c => exact follows_appendChild h hd p c
  | prependChild p c => exact follows_prependChild h hd p c
  | insertBefore b n => exact follows_insertBeside h hd .before b n
  | insertAfter b n => exact follows_insertBeside h hd .after b n
  | detach c => exact follows_detach h hd c
  | normalize => exact on_normalize h hd
  | set id change => exact follows_set h hd id change

theorem shows_after (e : Edit) : ∃ b, a.after e = some b ∧ b.Shows (d.after e).chart := by
  have hfollows := follows_perform h hd e
  rw [after, Document.after]
  rcases hr : d.perform e with err | d'
  · rw [hr] at hfollows
    exact ⟨a, by rw [show (Editing.perform e).on a = _ from hfollows]; rfl, h⟩
  · rw [hr] at hfollows
    obtain ⟨b, hb, hshows⟩ := hfollows
    exact ⟨b, by rw [hb]; rfl, hshows⟩

/-- Any edits of the arena end, and it still shows the document. -/
theorem shows_edits (es : List Edit) :
    ∃ b, a.edits es = some b ∧ b.Shows (es.foldl Document.after d).chart := by
  unfold edits
  induction es generalizing a d with
  | nil => exact ⟨a, rfl, h⟩
  | cons e es ih =>
    obtain ⟨b, hb, hshows⟩ := shows_after h hd e
    rw [List.foldlM_cons, hb]
    exact ih hshows (Document.grounded_after hd e)

end

/-! ## Sessions and runs -/

theorem shows_built (source : Source) (events : List Marked) :
    ∃ a, built source events = some a ∧ a.Shows (Document.ofEvents source events).chart := by
  obtain ⟨b, a, ha, hshows, -⟩ := on_build source events
  exact ⟨a, by rw [built, ha]; rfl, hshows⟩

end Arena

namespace Document

/-- The arena of a session is always there, and shows its document. -/
theorem Session.exists_arena (x : Session) :
    ∃ a, x.arena = some a ∧ a.Shows x.document.chart := by
  have horigin : ∃ a, x.origin.arena = some a ∧ a.Shows x.origin.document.chart := by
    cases x.origin with
    | new => exact ⟨_, rfl, Arena.shows_new⟩
    | events source outline _ => exact Arena.shows_built source outline.events
  obtain ⟨a, ha, hshows⟩ := horigin
  rw [Session.arena, ha]
  exact Arena.shows_edits hshows (sound_origin x.origin).grounded x.edits

theorem Beginning.exists_arena (o : Beginning) :
    ∃ a, o.arena = some a ∧ a.Shows o.document.chart := by
  cases o with
  | new => exact ⟨_, rfl, Arena.shows_new⟩
  | events source marks _ => exact Arena.shows_built source marks

end Document

end MarkupTree
