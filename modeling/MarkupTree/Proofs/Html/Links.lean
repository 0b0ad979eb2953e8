-- The links and the images of a page, as a reader finds them. Wherever the page
-- of a node shows one of them, custom nodes around it or not, the tag that stands
-- there leads to no script and to no local file. Where no custom node writes what
-- it likes, this holds of every mark that the reader finds.
import MarkupTree.Proofs.Forest.Entries
import MarkupTree.Proofs.Html.Safety

namespace MarkupTree

namespace Html

open Markup (Mark)

/-- The element of a node that has an address, and the attribute with it. -/
def holder? : Kind → Option (Text × Text)
  | .link => some ("a".toList, "href".toList)
  | .image => some ("img".toList, "src".toList)
  | _ => none

/-- Each address in the mark is harmless when it is followed. -/
def LeadsSafely (m : Mark) : Prop :=
  ∀ a ∈ m.attributes, a.1 = "href".toList ∨ a.1 = "src".toList →
    ∃ url, followed a.2 = some url ∧ Harmless url

/-- A page on which no address can do harm. -/
structure HarmlessPage (e : Encoder) (o : Options) (s : Site) : Prop where
  /-- Where a link or an image is entered, the page goes on with its tag. -/
  tags : ∀ above written t name key, s.Enters (visitor e o) above written t →
    holder? t.kind = some (name, key) →
    ∃ tag after mark, render e o s = print true written ++ tag ++ after ∧
      Markup.read? tag = some [.mark mark] ∧ mark.name? = some name ∧
      key ∈ mark.attributes.map Prod.fst ∧ LeadsSafely mark
  marks : (∀ n ∈ s.tree.alone.nodes, n.kind ≠ .customBlock ∧ n.kind ≠ .customInline) →
    ∃ tokens, Markup.read? (render e o s) = some tokens ∧
      ∀ mark ∈ Markup.marks tokens, LeadsSafely mark

variable {e : Encoder} {o : Options} {c : Content}

/-! ## Marks -/

/-- Attributes that hold addresses are written through the check. -/
theorem harmless_attribute (he : e.Documented) (ho : o.allowUnsafe = false) {a : Attribute}
    (ha : WrittenAttribute e o a) (hname : a.name = "href".toList ∨ a.name = "src".toList) :
    ∃ url, followed a.value = some url ∧ Harmless url := by
  cases ha with
  | href url => exact harmless_addressValue he ho url
  | src url => exact harmless_addressValue he ho url
  | source | start | language | alt | title => exact absurd hname (by dsimp only; decide)

theorem leadsSafely_of_written (he : e.Documented) (ho : o.allowUnsafe = false) {p : Piece}
    (h : WrittenPiece e o c p) {m : Mark} (hm : p.mark? = some m) : LeadsSafely m := by
  have hattributes : ∀ as : List Attribute, (∀ a ∈ as, WrittenAttribute e o a) →
      ∀ a ∈ as.map Attribute.pair, a.1 = "href".toList ∨ a.1 = "src".toList →
        ∃ url, followed a.2 = some url ∧ Harmless url := by
    intro as has a ha
    obtain ⟨b, hb, rfl⟩ := List.mem_map.mp ha
    exact harmless_attribute he ho (has b hb)
  cases h with
  | opening _ has =>
    cases hm
    exact hattributes _ has
  | void _ has =>
    cases hm
    exact hattributes _ has
  | closing | omitted =>
    cases hm
    exact fun a ha => absurd ha List.not_mem_nil
  | chars | raw | newline | freshLine => cases hm

/-! ## Tags -/

/-- A link or an image is written with one tag first. -/
theorem exists_tag {t : Site} {name key : Text}
    (h : holder? t.kind = some (name, key)) :
    ∃ p m, wholeEnter e o t = [p] ∧ p.mark? = some m ∧ m.name? = some name ∧
      key ∈ m.attributes.map Prod.fst := by
  have hc : holder? t.content.kind = some (name, key) := h
  unfold wholeEnter enter
  cases hcontent : t.content with
  | link url title =>
    rw [hcontent] at hc
    cases hc
    exact ⟨_, _, rfl, rfl, rfl, List.mem_cons_self⟩
  | image url title =>
    rw [hcontent] at hc
    cases hc
    exact ⟨_, _, rfl, rfl, rfl, List.mem_cons_self⟩
  | _ =>
    rw [hcontent] at hc
    cases hc

/-- Links and images are no headings and no custom nodes. -/
theorem plain_of_holder {c : Content} {r : Text × Text} (h : holder? c.kind = some r) :
    c.IsLevelled ∧ c.onEnter? = none ∧ c.onExit? = none := by
  cases c with
  | link | image =>
    refine ⟨fun level hlevel => ?_, rfl, rfl⟩
    cases hlevel
  | _ => cases h

/-- The page from where the walk enters a node on. -/
theorem render_of_enters {s t : Site} {above : List Site} {written : List Piece}
    (h : s.Enters (visitor e o) above written t) {p : Piece} (hp : wholeEnter e o t = [p])
    (hne : p ≠ .freshLine) : ∃ after, render e o s = print true written ++ p.text ++ after := by
  obtain ⟨rest, hvisit⟩ := h.visit_eq
  obtain ⟨more, hmore⟩ : ∃ more, t.visit (whole e o) = p :: more := by
    rw [Site.visit, show (whole e o).enter t = [p] from hp]
    exact ⟨_, rfl⟩
  have halike : PrintAlike (s.visit (visitor e o)) (written ++ (p :: more) ++ rest) := by
    rw [hvisit, ← hmore]
    exact (PrintAlike.append (.of_eq rfl) (printAlike_visit t)).append (.of_eq rfl)
  rw [render, halike true, List.append_assoc, print_append, List.cons_append, print_cons hne,
    ← List.append_assoc]
  exact ⟨_, rfl⟩

theorem harmlessPage (he : e.Documented) (ho : o.allowUnsafe = false) {s : Site}
    (hlevels : s.tree.alone.Holds Content.IsLevelled) : HarmlessPage e o s where
  tags above written t name key henters hholder := by
    obtain ⟨p, m, hp, hm, hname, hkey⟩ := exists_tag (e := e) (o := o) hholder
    obtain ⟨hlevel, hplain⟩ := plain_of_holder (c := t.content) hholder
    have hwritten : WrittenPiece e o t.content p := written_enter t p (hp ▸ List.mem_cons_self)
    have hne : p ≠ .freshLine := by
      rintro rfl
      cases hm
    obtain ⟨after, hpage⟩ := render_of_enters henters hp hne
    exact ⟨p.text, after, m, hpage, (isSafe_of_written he hwritten ho hlevel hplain).read?_text hm,
      hname, hkey, leadsSafely_of_written he ho hwritten hm⟩
  marks hplain := by
    obtain ⟨tokens, hread, -, -, hmarks⟩ :=
      exists_tokens he ho hlevels (Document.plain_of_kinds hplain)
    refine ⟨tokens, hread, fun m hm => ?_⟩
    rw [hmarks] at hm
    obtain ⟨p, hp, hm⟩ := List.mem_filterMap.mp hm
    obtain ⟨n, -, hwritten⟩ := written_visit hp
    exact leadsSafely_of_written he ho hwritten hm

end Html

namespace Document

/-- In every session, no link and no image on the page of a node leads to a
script or a local file, unless the options allow unsafe output. -/
theorem Session.addresses_stay_harmless {e : Html.Encoder} (he : e.Documented) (x : Session)
    {id : NodeId} {s : Site} (hs : x.document.site? id = some s) {o : Options}
    (ho : o.allowUnsafe = false) : Html.HarmlessPage e o s :=
  Html.harmlessPage he ho (x.levels_of_site hs)

/-- A link to a script behind a blank, in capital letters, around a picture in
its address with a quote and an ampersand, and a custom node beside them. -/
theorem addresses_stay_harmless_picture :
    let x : Session := ⟨.new, [.create .paragraph, .appendChild 0 1, .create .link,
      .appendChild 1 2, .set 2 (.url (some " JAVA\tscript:f('&')".toList)), .create .image,
      .appendChild 2 3, .set 3 (.url (some "Data:image/PNG;'&\t".toList)),
      .set 3 (.title (some "t".toList)), .create .customInline, .appendChild 1 4,
      .set 4 (.onEnter (some "<a href=\"".toList))]⟩
    ∃ s, x.document.site? 0 = some s ∧ Html.HarmlessPage Html.percentEncode {} s := by
  intro x
  have hs : x.document.site? 0 = some ((x.document.site? 0).get (by decide +kernel)) := by simp
  exact ⟨_, hs, x.addresses_stay_harmless Html.documented_percentEncode hs rfl⟩

end Document

end MarkupTree
