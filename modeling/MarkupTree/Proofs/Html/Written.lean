-- The pieces that a node writes in HTML, and the attributes of its tags: which
-- names there are, and where the values and the raw texts come from. What is
-- true of all of them is true of all HTML. The tag of an image is written in two
-- parts, and is taken here as the one tag that it prints as.
import MarkupTree.Html.Elements
import MarkupTree.Proofs.Forest.Visits
import MarkupTree.Proofs.Html.Pieces
import Mathlib.Data.List.Basic

namespace MarkupTree

namespace Html

/-- The names of the elements, those of headings apart. -/
def plainNames : List Text :=
  ["blockquote".toList, "ul".toList, "ol".toList, "li".toList, "pre".toList, "code".toList,
    "p".toList, "hr".toList, "br".toList, "strong".toList, "em".toList, "a".toList, "img".toList]

/-- The name of a tag that a node with the content may write. -/
def IsTagName (c : Content) (name : Text) : Prop :=
  name ∈ plainNames ∨ ∃ level, c = .heading level ∧ name = headingName level

inductive WrittenAttribute (e : Encoder) (o : Options) : Attribute → Prop
  | source (n : Node) : WrittenAttribute e o ⟨"data-sourcepos".toList, n.span⟩
  | start (number : Nat) : WrittenAttribute e o ⟨"start".toList, Text.ofNat number⟩
  | language (word : Text) :
    WrittenAttribute e o ⟨"class".toList, "language-".toList ++ escape word⟩
  | href (url : Text) : WrittenAttribute e o ⟨"href".toList, addressValue e o url⟩
  | src (url : Text) : WrittenAttribute e o ⟨"src".toList, addressValue e o url⟩
  | alt (below : Forest) : WrittenAttribute e o ⟨"alt".toList, description below⟩
  | title (t : Text) : WrittenAttribute e o ⟨"title".toList, escape t⟩

/-- The raw texts that a node with the content may write. -/
def IsRaw (o : Options) (c : Content) (t : Text) : Prop :=
  t = [' '] ∨ o.allowUnsafe = true ∨ c.onEnter? = some t ∨ c.onExit? = some t

inductive WrittenPiece (e : Encoder) (o : Options) (c : Content) : Piece → Prop
  | opening {name : Text} {as : List Attribute} (hname : IsTagName c name)
    (has : ∀ a ∈ as, WrittenAttribute e o a) : WrittenPiece e o c (.opening name as)
  | closing {name : Text} (hname : IsTagName c name) : WrittenPiece e o c (.closing name)
  | void {name : Text} {as : List Attribute} (hname : IsTagName c name)
    (has : ∀ a ∈ as, WrittenAttribute e o a) : WrittenPiece e o c (.void name as)
  | chars (t : Text) : WrittenPiece e o c (.chars t)
  | raw {t : Text} (ht : IsRaw o c t) : WrittenPiece e o c (.raw t)
  | omitted : WrittenPiece e o c .omitted
  | newline : WrittenPiece e o c .newline
  | freshLine : WrittenPiece e o c .freshLine

variable {e : Encoder} {o : Options}

/-! ## Images in one piece -/

def wholeEnter (e : Encoder) (o : Options) (s : Site) : List Piece :=
  match s.content with
  | .image url title =>
    [.void "img".toList
      ([⟨"src".toList, addressValue e o url⟩, ⟨"alt".toList, description s.children⟩] ++
        titleAttribute title)]
  | _ => enter e o s

def wholeExit (s : Site) : List Piece :=
  match s.content with
  | .image _ _ => []
  | _ => exit s

/-- Writes the tag of an image at once. -/
def whole (e : Encoder) (o : Options) : Visitor Piece where
  enter := wholeEnter e o
  exit := wholeExit
  descends s := s.kind != .image

theorem whole_eq {s : Site} (h : s.kind ≠ .image) :
    wholeEnter e o s = enter e o s ∧ wholeExit s = exit s := by
  have hc : s.content.kind ≠ .image := h
  unfold wholeEnter wholeExit
  cases hcontent : s.content with
  | image => exact absurd (hcontent ▸ rfl) hc
  | _ => exact ⟨rfl, rfl⟩

theorem printAlike_image {s : Site} (h : s.kind = .image) :
    PrintAlike (enter e o s ++ exit s) (wholeEnter e o s ++ wholeExit s) := by
  have hc : s.content.kind = .image := h
  unfold wholeEnter wholeExit enter exit
  cases hcontent : s.content with
  | image url title => exact printAlike_tag _ _ _
  | _ =>
    rw [hcontent] at hc
    cases hc

/-- Nothing is written between the two parts of the tag of an image. -/
theorem printAlike_visit (s : Site) : PrintAlike (s.visit (visitor e o)) (s.visit (whole e o)) := by
  refine Site.visit_related (.of_eq rfl) (fun _ _ _ _ => PrintAlike.append) fun t ps qs h => ?_
  show PrintAlike (enter e o t ++ (if t.kind != .image then ps else []) ++ exit t)
    (wholeEnter e o t ++ (if t.kind != .image then qs else []) ++ wholeExit t)
  by_cases himage : t.kind = .image
  · simpa [himage] using printAlike_image himage
  · obtain ⟨henter, hexit⟩ := whole_eq (e := e) (o := o) himage
    rw [henter, hexit, if_pos (by simpa using himage), if_pos (by simpa using himage)]
    exact (PrintAlike.append (.of_eq rfl) h).append (.of_eq rfl)

theorem render_eq_whole (s : Site) : render e o s = print true (s.visit (whole e o)) :=
  printAlike_visit s true

/-! ## Attributes -/

theorem written_source (n : Node) : ∀ a ∈ sourceAttribute o n, WrittenAttribute e o a := by
  unfold sourceAttribute
  split
  · exact List.forall_mem_singleton.mpr (.source n)
  · simp

theorem written_start (c : Content) : ∀ a ∈ startAttribute c, WrittenAttribute e o a := by
  unfold startAttribute
  split
  · split
    · exact List.forall_mem_singleton.mpr (.start _)
    · simp
  · simp

theorem written_language (info : Option Text) :
    ∀ a ∈ languageAttribute info, WrittenAttribute e o a := by
  unfold languageAttribute
  dsimp only
  split
  · simp
  · exact List.forall_mem_singleton.mpr (.language _)

theorem written_title (t : Text) : ∀ a ∈ titleAttribute t, WrittenAttribute e o a := by
  unfold titleAttribute
  split
  · simp
  · exact List.forall_mem_singleton.mpr (.title t)

/-! ## Pieces -/

theorem isTagName_listName (c d : Content) : IsTagName c (listName d) := by
  unfold listName
  split
  · exact Or.inl (by decide)
  · exact Or.inl (by decide)

theorem written_rawPiece (c : Content) (t : Text) : WrittenPiece e o c (rawPiece o t) := by
  unfold rawPiece
  split
  · exact .raw (Or.inr (Or.inl ‹_›))
  · exact .omitted

theorem written_enter (s : Site) : ∀ p ∈ wholeEnter e o s, WrittenPiece e o s.content p := by
  have hsource := written_source (e := e) (o := o) s.node
  have hnone : ∀ a ∈ ([] : List Attribute), WrittenAttribute e o a := by simp
  rw [← List.forall_iff_forall_mem]
  unfold wholeEnter enter
  cases s.content with
  | document => trivial
  | blockQuote => exact .intro .freshLine (.intro (.opening (Or.inl (by decide)) hsource) .newline)
  | list style =>
    have has := List.forall_mem_append.mpr ⟨hsource, written_start (.list style)⟩
    exact .intro .freshLine (.intro (.opening (isTagName_listName _ _) has) .newline)
  | item => exact .intro .freshLine (.opening (Or.inl (by decide)) hsource)
  | codeBlock info literal =>
    have hpre : IsTagName (.codeBlock info literal) "pre".toList := Or.inl (by decide)
    have hcode : IsTagName (.codeBlock info literal) "code".toList := Or.inl (by decide)
    exact .intro .freshLine (.intro (.opening hpre hsource) (.intro
      (.opening hcode (written_language info)) (.intro (.chars literal) (.intro (.closing hcode)
        (.intro (.closing hpre) .newline)))))
  | htmlBlock literal => exact .intro .freshLine (.intro (written_rawPiece _ literal) .freshLine)
  | customBlock onEnter onExit =>
    exact .intro .freshLine (.intro (.raw (Or.inr (Or.inr (Or.inl rfl)))) .freshLine)
  | paragraph =>
    dsimp only
    split
    · trivial
    · exact .intro .freshLine (.opening (Or.inl (by decide)) hsource)
  | heading level => exact .intro .freshLine (.opening (Or.inr ⟨level, rfl, rfl⟩) hsource)
  | thematicBreak => exact .intro .freshLine (.intro (.void (Or.inl (by decide)) hsource) .newline)
  | text literal => exact .chars literal
  | softBreak =>
    dsimp only
    split
    · exact .intro (.void (Or.inl (by decide)) hnone) .newline
    · split
      · exact .raw (Or.inl rfl)
      · exact .newline
  | lineBreak => exact .intro (.void (Or.inl (by decide)) hnone) .newline
  | code literal =>
    have hcode : IsTagName (.code literal) "code".toList := Or.inl (by decide)
    exact .intro (.opening hcode hnone) (.intro (.chars literal) (.closing hcode))
  | htmlInline literal => exact written_rawPiece _ literal
  | customInline onEnter onExit => exact .raw (Or.inr (Or.inr (Or.inl rfl)))
  | emphasis => exact .opening (Or.inl (by decide)) hnone
  | strong => exact .opening (Or.inl (by decide)) hnone
  | link url title =>
    exact .opening (Or.inl (by decide)) (List.forall_mem_cons.mpr ⟨.href url, written_title title⟩)
  | image url title =>
    refine .void (Or.inl (by decide)) (List.forall_mem_cons.mpr ⟨.src url, ?_⟩)
    exact List.forall_mem_cons.mpr ⟨.alt s.children, written_title title⟩

theorem written_exit (s : Site) : ∀ p ∈ wholeExit s, WrittenPiece e o s.content p := by
  rw [← List.forall_iff_forall_mem]
  unfold wholeExit exit
  cases s.content with
  | blockQuote => exact .intro .freshLine (.intro (.closing (Or.inl (by decide))) .newline)
  | list style => exact .intro .freshLine (.intro (.closing (isTagName_listName _ _)) .newline)
  | item => exact .intro (.closing (Or.inl (by decide))) .newline
  | customBlock onEnter onExit =>
    exact .intro .freshLine (.intro (.raw (Or.inr (Or.inr (Or.inr rfl)))) .freshLine)
  | paragraph =>
    dsimp only
    split
    · trivial
    · exact .intro (.closing (Or.inl (by decide))) .newline
  | heading level => exact .intro (.closing (Or.inr ⟨level, rfl, rfl⟩)) .newline
  | customInline onEnter onExit => exact .raw (Or.inr (Or.inr (Or.inr rfl)))
  | emphasis => exact .closing (Or.inl (by decide))
  | strong => exact .closing (Or.inl (by decide))
  | link url title => exact .closing (Or.inl (by decide))
  | document | codeBlock | htmlBlock | thematicBreak | text | softBreak | lineBreak | code
  | htmlInline | image => trivial

/-- Every piece of the HTML of a node is written by it or by a node below it. -/
theorem written_visit {s : Site} {p : Piece} (hp : p ∈ s.visit (whole e o)) :
    ∃ n ∈ s.tree.alone.nodes, WrittenPiece e o n.content p := by
  obtain ⟨t, ht, hp | hp⟩ := Site.mem_visit hp
  · exact ⟨t.node, ht, written_enter t p hp⟩
  · exact ⟨t.node, ht, written_exit t p hp⟩

end Html

end MarkupTree
