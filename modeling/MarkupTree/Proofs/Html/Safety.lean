-- Safe HTML read by a strict reader. Without unsafe output and without custom
-- nodes, whatever the document holds, the reader finds nothing but the tags of
-- the nodes, nested as the nodes are nested, and text in which each bracket,
-- quote and ampersand is written as a reference.
import MarkupTree.Proofs.Document.Contents
import MarkupTree.Proofs.Html.Addresses
import MarkupTree.Proofs.Markup.Nesting

namespace MarkupTree

namespace Html

open Markup (Mark Token)

/-! ## The tags of a tree -/

/-- The names of all elements. -/
def elementNames : List Text :=
  plainNames ++ ["h1".toList, "h2".toList, "h3".toList, "h4".toList, "h5".toList, "h6".toList]

/-- The element around a node and all below it. -/
def wrapper? (s : Site) : Option Text :=
  match s.content with
  | .blockQuote => some "blockquote".toList
  | .list style =>
    match style.kind with
    | .ordered => some "ol".toList
    | .bullet => some "ul".toList
  | .item => some "li".toList
  | .heading level => some ('h' :: Text.ofNat level)
  | .paragraph => if inTightList s then none else some "p".toList
  | .strong => some "strong".toList
  | .emphasis => some "em".toList
  | .link _ _ => some "a".toList
  | _ => none

/-- The marks that a node has apart from the element around it. -/
def ownMarks (o : Options) (s : Site) : List Mark :=
  match s.content with
  | .codeBlock _ _ =>
    [.opening "pre".toList [], .opening "code".toList [], .closing "code".toList,
      .closing "pre".toList]
  | .code _ => [.opening "code".toList [], .closing "code".toList]
  | .htmlBlock _ | .htmlInline _ => [omittedMark]
  | .thematicBreak => [.void "hr".toList []]
  | .lineBreak => [.void "br".toList []]
  | .softBreak => if o.hardBreaks then [.void "br".toList []] else []
  | .image _ _ => [.void "img".toList []]
  | _ => []

/-- The marks of a tree, in the order of the walk over it. What is below an
image has none. -/
def elements (o : Options) : Visitor Mark where
  enter s := (wrapper? s).toList.map (Mark.opening · []) ++ ownMarks o s
  exit s := (wrapper? s).toList.map Mark.closing
  descends s := s.kind != .image

/-- What the HTML `page` of a node is to the reader. -/
structure ReadsSafely (o : Options) (s : Site) (page : Text) (tokens : List Token) : Prop where
  read : Markup.read? page = some tokens
  /-- The tokens are all of the page. -/
  whole : tokens.flatMap Token.text = page
  /-- Brackets stand at the ends of marks only, and each value is between
  quotes without holding any. -/
  clean : ∀ t ∈ tokens, t.isClean = true
  known : ∀ m ∈ Markup.marks tokens, m = omittedMark ∨ ∃ name ∈ elementNames, m.name? = some name
  /-- Each ampersand begins one of the references. -/
  decoded : Decodes page
  walked : (Markup.marks tokens).map Mark.bare = s.visit (elements o)
  nested : Markup.opened [] (Markup.marks tokens) = some []

/-! ## Texts that cannot break out -/

/-- A text that may stand in an attribute value: no brackets, no quotes, and
each ampersand begins a reference. -/
structure IsHarmless (t : Text) : Prop where
  chars : ∀ c ∈ t, Markup.isValueChar c = true
  decoded : Decodes t

theorem IsHarmless.append {t u : Text} (ht : IsHarmless t) (hu : IsHarmless u) :
    IsHarmless (t ++ u) :=
  ⟨List.forall_mem_append.mpr ⟨ht.chars, hu.chars⟩, ht.decoded.append hu.decoded⟩

theorem isHarmless_nil : IsHarmless [] := ⟨by simp, decodes_nil⟩

theorem isHarmless_flatMap {α : Type} {f : α → Text} {xs : List α} (h : ∀ x ∈ xs, IsHarmless (f x)) :
    IsHarmless (xs.flatMap f) := by
  induction xs with
  | nil => exact isHarmless_nil
  | cons x xs ih =>
    obtain ⟨hx, hxs⟩ := List.forall_mem_cons.mp h
    exact hx.append (ih hxs)

/-- A text that can be seen to be harmless. -/
theorem isHarmless_of_all {t u : Text} (hchars : t.all Markup.isValueChar = true)
    (hread : Markup.decode references t = some u) : IsHarmless t :=
  ⟨List.all_eq_true.mp hchars, u, hread⟩

/-- Characters of names need no reference. -/
theorem isHarmless_of_names {t : Text} (h : ∀ c ∈ t, Markup.isNameChar c = true) :
    IsHarmless t where
  chars c hc := Markup.isValueChar_iff.mpr ⟨Markup.ne_of_isNameChar (h c hc) rfl,
    Markup.ne_of_isNameChar (h c hc) rfl, Markup.ne_of_isNameChar (h c hc) rfl⟩
  decoded := decodes_of_notMem fun hm => absurd (h '&' hm) (by decide)

theorem isHarmless_escape (t : Text) : IsHarmless (escape t) := by
  refine isHarmless_flatMap fun c _ => ?_
  unfold escapeChar
  split
  · exact isHarmless_of_all rfl rfl
  · split
    · exact isHarmless_of_all rfl rfl
    · split
      · exact isHarmless_of_all rfl rfl
      · split
        · exact isHarmless_of_all rfl rfl
        · refine ⟨List.forall_mem_singleton.mpr ?_, decodes_of_notMem ?_⟩
          · exact Markup.isValueChar_iff.mpr ⟨‹_›, ‹_›, ‹_›⟩
          · simpa using Ne.symm ‹c ≠ '&'›

/-- Brackets and quotes are among what addresses write with percent signs. -/
theorem isValueChar_of_needsPercent {c : Char} (h : needsPercent addressSpecials c = false) :
    Markup.isValueChar c = true := by
  have hne : ∀ d, needsPercent addressSpecials d = true → c ≠ d := by
    rintro d hd rfl
    rw [h] at hd
    cases hd
  exact Markup.isValueChar_iff.mpr ⟨hne _ rfl, hne _ rfl, hne _ rfl⟩

theorem isHarmless_referenceChar {c : Char} (h : needsPercent addressSpecials c = false) :
    IsHarmless (referenceChar c) := by
  refine ⟨?_, [c], decode_referenceChar rfl rfl c⟩
  unfold referenceChar
  split
  · exact (isHarmless_of_all (t := "&amp;".toList) rfl rfl).chars
  · split
    · exact (isHarmless_of_all (t := "&#x27;".toList) rfl rfl).chars
    · exact List.forall_mem_singleton.mpr (isValueChar_of_needsPercent h)

theorem isHarmless_address {e : Encoder} (he : e.Documented) (url : Text) :
    IsHarmless (address e url) := by
  rw [address, he.encode]
  exact isHarmless_flatMap fun c hc => isHarmless_referenceChar (needsPercent_encoded c hc)

theorem isHarmless_span (n : Node) : IsHarmless n.span := by
  have hposition : ∀ p : Position, ∀ c ∈ p.text, Markup.isNameChar c = true := by
    intro p
    refine List.forall_mem_append.mpr ⟨Markup.isNameChar_ofNat _, ?_⟩
    exact List.forall_mem_cons.mpr ⟨by decide, Markup.isNameChar_ofNat _⟩
  refine isHarmless_of_names (List.forall_mem_append.mpr ⟨hposition _, ?_⟩)
  exact List.forall_mem_cons.mpr ⟨by decide, hposition _⟩

/-- The description of an image holds no markup. -/
theorem isHarmless_description (below : Forest) : IsHarmless (description below) := by
  refine isHarmless_flatMap fun n _ => ?_
  unfold plainText
  split
  · exact isHarmless_escape _
  · exact isHarmless_escape _
  · exact isHarmless_escape _
  · exact isHarmless_of_all rfl rfl
  · exact isHarmless_of_all rfl rfl
  · exact isHarmless_nil

theorem isName_attribute {e : Encoder} {o : Options} {a : Attribute} (h : WrittenAttribute e o a) :
    Markup.isName a.name = true := by
  cases h <;> rfl

/-- No attribute value ends before its quote. -/
theorem isHarmless_attribute {e : Encoder} (he : e.Documented) {o : Options} {a : Attribute}
    (h : WrittenAttribute e o a) : IsHarmless a.value := by
  have haddress : ∀ url, IsHarmless (addressValue e o url) := by
    intro url
    unfold addressValue
    split
    · exact isHarmless_address he url
    · exact isHarmless_nil
  cases h with
  | source n => exact isHarmless_span n
  | start number => exact isHarmless_of_names (Markup.isNameChar_ofNat number)
  | language word => exact (isHarmless_of_all rfl rfl).append (isHarmless_escape word)
  | href url => exact haddress url
  | src url => exact haddress url
  | alt below => exact isHarmless_description below
  | title t => exact isHarmless_escape t

/-! ## Pieces that cannot break out -/

variable {e : Encoder} {o : Options} {c : Content}

/-- The tags of a node with a level in range are among the known ones. -/
theorem mem_elementNames {name : Text} (h : IsTagName c name) (hc : c.IsLevelled) :
    name ∈ elementNames := by
  rcases h with h | ⟨level, hlevel, rfl⟩
  · exact List.mem_append_left _ h
  · have hnames : ∀ level ≤ 6, 1 ≤ level → headingName level ∈ elementNames := by decide
    obtain ⟨hlow, hhigh⟩ := hc level hlevel
    exact hnames level hhigh hlow

theorem isName_of_mem {name : Text} (h : name ∈ elementNames) : Markup.isName name = true := by
  have hnames : ∀ name ∈ elementNames, Markup.isName name = true := by decide
  exact hnames name h

theorem isNameChar_of_isName {name : Text} (h : Markup.isName name = true) :
    ∀ c ∈ name, Markup.isNameChar c = true :=
  List.all_eq_true.mp (Bool.and_eq_true_iff.mp h).2

/-- Attributes as the reader sees them. -/
theorem clean_attributes (he : e.Documented) {as : List Attribute} (has : ∀ a ∈ as, WrittenAttribute e o a) :
    (as.map Attribute.pair).all Markup.isAttribute = true := by
  rw [List.all_map]
  refine List.all_eq_true.mpr fun a ha => Bool.and_eq_true_iff.mpr ⟨?_, ?_⟩
  · exact (Bool.and_eq_true_iff.mp (isName_attribute (has a ha))).2
  · exact List.all_eq_true.mpr (isHarmless_attribute he (has a ha)).chars

theorem decodes_attributes (he : e.Documented) {as : List Attribute} (has : ∀ a ∈ as, WrittenAttribute e o a) :
    Decodes (as.flatMap Attribute.text) := by
  induction as with
  | nil => exact decodes_nil
  | cons a as ih =>
    obtain ⟨ha, has⟩ := List.forall_mem_cons.mp has
    have hname := isHarmless_of_names (isNameChar_of_isName (isName_attribute ha))
    have hspace : Decodes [' '] := decodes_of_notMem (by decide)
    have hquote : Decodes "=\"".toList := decodes_of_notMem (by decide)
    have hend : Decodes "\"".toList := decodes_of_notMem (by decide)
    refine Decodes.append ?_ (ih has)
    exact (((hspace.append hname.decoded).append hquote).append
      (isHarmless_attribute he ha).decoded).append hend

/-- A tag with a known name is read as such. -/
theorem decodes_name {name : Text} (h : name ∈ elementNames) : Decodes name :=
  (isHarmless_of_names (isNameChar_of_isName (isName_of_mem h))).decoded

theorem isSafe_of_chars {p : Piece} (hmark : p.mark? = none)
    (hchars : p.text.all Markup.isTextChar = true) (hdecoded : Decodes p.text) : p.IsSafe where
  clean := by
    unfold Piece.tokens
    rw [hmark]
    intro t ht
    obtain ⟨c, hc, rfl⟩ := List.mem_map.mp ht
    exact List.all_eq_true.mp hchars c hc
  decoded := hdecoded

/-- The marks that a node writes are known ones. -/
theorem known_of_written {p : Piece} (h : WrittenPiece e o c p) (hc : c.IsLevelled) {m : Mark}
    (hm : p.mark? = some m) : m = omittedMark ∨ ∃ name ∈ elementNames, m.name? = some name := by
  cases h with
  | opening hname => cases hm; exact Or.inr ⟨_, mem_elementNames hname hc, rfl⟩
  | closing hname => cases hm; exact Or.inr ⟨_, mem_elementNames hname hc, rfl⟩
  | void hname => cases hm; exact Or.inr ⟨_, mem_elementNames hname hc, rfl⟩
  | omitted => cases hm; exact Or.inl rfl
  | chars | raw | newline | freshLine => cases hm

/-- Nothing that a node writes breaks out, unless it is a custom node. -/
theorem isSafe_of_written (he : e.Documented) {p : Piece} (h : WrittenPiece e o c p) (ho : o.allowUnsafe = false)
    (hc : c.IsLevelled) (hcustom : c.onEnter? = none ∧ c.onExit? = none) : p.IsSafe := by
  have hbegin : Decodes ['<'] := decodes_of_notMem (by decide)
  have hend : Decodes ['>'] := decodes_of_notMem (by decide)
  cases h with
  | opening hname has =>
    have hknown := mem_elementNames hname hc
    refine ⟨List.forall_mem_singleton.mpr ?_, ?_⟩
    · exact Bool.and_eq_true_iff.mpr ⟨isName_of_mem hknown, clean_attributes he has⟩
    · exact ((hbegin.append (decodes_name hknown)).append (decodes_attributes he has)).append hend
  | closing hname =>
    have hknown := mem_elementNames hname hc
    have hslash : Decodes "</".toList := decodes_of_notMem (by decide)
    refine ⟨List.forall_mem_singleton.mpr (isName_of_mem hknown), ?_⟩
    exact (hslash.append (decodes_name hknown)).append hend
  | void hname has =>
    have hknown := mem_elementNames hname hc
    have hslash : Decodes " />".toList := decodes_of_notMem (by decide)
    refine ⟨List.forall_mem_singleton.mpr ?_, ?_⟩
    · exact Bool.and_eq_true_iff.mpr ⟨isName_of_mem hknown, clean_attributes he has⟩
    · exact ((hbegin.append (decodes_name hknown)).append (decodes_attributes he has)).append hslash
  | chars t =>
    refine isSafe_of_chars rfl (List.all_eq_true.mpr fun d hd => ?_) (isHarmless_escape t).decoded
    exact (Bool.and_eq_true_iff.mp ((isHarmless_escape t).chars d hd)).1
  | raw ht =>
    obtain ⟨henter, hexit⟩ := hcustom
    rcases ht with rfl | ht | ht | ht
    · exact isSafe_of_chars rfl rfl (decodes_of_notMem (by decide))
    · rw [ho] at ht
      cases ht
    · rw [henter] at ht
      cases ht
    · rw [hexit] at ht
      cases ht
  | omitted =>
    exact ⟨by decide +kernel, decodes_of_notMem (by decide +kernel)⟩
  | newline => exact isSafe_of_chars rfl rfl (decodes_of_notMem (by decide))
  | freshLine => exact isSafe_of_chars rfl rfl decodes_nil

/-! ## Nesting -/

/-- The mark that a piece is, without its attributes. -/
def bareMark? (p : Piece) : Option Mark := p.mark?.map Mark.bare

theorem bareMark?_rawPiece (ho : o.allowUnsafe = false) (t : Text) :
    bareMark? (rawPiece o t) = some omittedMark := by
  simp only [rawPiece, ho, Bool.false_eq_true, if_false]
  rfl

theorem listName_list (style : ListStyle) :
    some (listName (.list style)) =
      match style.kind with
      | .ordered => some "ol".toList
      | .bullet => some "ul".toList := by
  obtain ⟨kind, start, delimiter, bullet, tight⟩ := style
  cases kind <;> rfl

theorem bareMark?_enter (ho : o.allowUnsafe = false) (s : Site) :
    (wholeEnter e o s).filterMap bareMark? = (elements o).enter s := by
  show (wholeEnter e o s).filterMap bareMark? =
    (wrapper? s).toList.map (Mark.opening · []) ++ ownMarks o s
  unfold wholeEnter enter wrapper? ownMarks
  cases s.content with
  | list style =>
    dsimp only
    rw [← listName_list]
    rfl
  | htmlBlock literal =>
    simp only [List.filterMap_cons, List.filterMap_nil, bareMark?_rawPiece ho]
    rfl
  | htmlInline literal =>
    simp only [List.filterMap_cons, List.filterMap_nil, bareMark?_rawPiece ho]
    rfl
  | paragraph =>
    dsimp only
    split <;> rfl
  | softBreak =>
    dsimp only
    split
    · rfl
    · split <;> rfl
  | _ => rfl

theorem bareMark?_exit (s : Site) :
    (wholeExit s).filterMap bareMark? = (elements o).exit s := by
  show (wholeExit s).filterMap bareMark? = (wrapper? s).toList.map Mark.closing
  unfold wholeExit exit wrapper?
  cases s.content with
  | list style =>
    dsimp only
    rw [← listName_list]
    rfl
  | paragraph =>
    dsimp only
    split <;> rfl
  | _ => rfl

theorem translates_bareMark? (ho : o.allowUnsafe = false) :
    (whole e o).Translates (List.filterMap bareMark?) (elements o) where
  nil := rfl
  append _ _ := List.filterMap_append
  enter := bareMark?_enter ho
  exit := bareMark?_exit
  descends _ := rfl

/-- The marks of the pieces are those of the tree. -/
theorem bareMark?_visit (ho : o.allowUnsafe = false) (s : Site) :
    (s.visit (whole e o)).filterMap bareMark? = s.visit (elements o) :=
  Site.visit_translated (translates_bareMark? ho)

theorem balanced_ownMarks (o : Options) (s : Site) : Markup.Balanced (ownMarks o s) := by
  have hcode : Markup.Balanced [.opening "code".toList [], .closing "code".toList] :=
    Markup.balanced_nil.enclose _ _
  unfold ownMarks
  split
  · exact hcode.enclose _ _
  · exact hcode
  · exact Markup.balanced_comment _
  · exact Markup.balanced_comment _
  · exact Markup.balanced_void _ _
  · exact Markup.balanced_void _ _
  · split
    · exact Markup.balanced_void _ _
    · exact Markup.balanced_nil
  · exact Markup.balanced_void _ _
  · exact Markup.balanced_nil

/-- The marks of a tree are properly nested. -/
theorem balanced_visit (s : Site) : Markup.Balanced (s.visit (elements o)) := by
  refine Site.visit_induction Markup.balanced_nil (fun _ _ => Markup.Balanced.append) ?_
  intro t inner hinner
  have hbody := (balanced_ownMarks o t).append hinner
  show Markup.Balanced ((((wrapper? t).toList.map (Mark.opening · []) ++ ownMarks o t) ++ inner) ++
    (wrapper? t).toList.map Mark.closing)
  cases wrapper? t with
  | none => simpa using hbody
  | some name => simpa using hbody.enclose name []

/-! ## The page -/

section

variable (he : e.Documented) {s : Site} (ho : o.allowUnsafe = false)
  (hlevels : s.tree.alone.Holds Content.IsLevelled)
  (hplain : ∀ n ∈ s.tree.alone.nodes, n.content.onEnter? = none ∧ n.content.onExit? = none)

include he ho hlevels hplain

theorem isSafe_of_mem_visit {p : Piece} (hp : p ∈ s.visit (whole e o)) : p.IsSafe := by
  obtain ⟨n, hn, hwritten⟩ := written_visit hp
  exact isSafe_of_written he hwritten ho (hlevels n hn) (hplain n hn)

/-- Where every heading has a level in range and no node is custom, the page
of a node is read as clean tokens, and their marks are those of the pieces. -/
theorem exists_tokens :
    ∃ tokens, Markup.read? (render e o s) = some tokens ∧
      tokens.flatMap Token.text = render e o s ∧ (∀ t ∈ tokens, t.isClean = true) ∧
      Markup.marks tokens = (s.visit (whole e o)).filterMap Piece.mark? := by
  obtain ⟨tokens, htext, hmarks, htokens⟩ := print_tokens true (s.visit (whole e o))
  have hclean : ∀ t ∈ tokens, t.isClean = true := by
    intro t ht
    rcases htokens t ht with rfl | ⟨p, hp, ht⟩
    · rfl
    · exact (isSafe_of_mem_visit he ho hlevels hplain hp).clean t ht
  refine ⟨tokens, ?_, htext.trans (render_eq_whole s).symm, hclean, hmarks⟩
  rw [render_eq_whole, ← htext]
  exact Markup.read?_flatMap_text hclean

/-- Such a page is read safely. -/
theorem exists_readsSafely : ∃ tokens, ReadsSafely o s (render e o s) tokens := by
  obtain ⟨tokens, hread, htext, hclean, hmarks⟩ := exists_tokens he ho hlevels hplain
  have hwalked : (Markup.marks tokens).map Mark.bare = s.visit (elements o) := by
    rw [hmarks, List.map_filterMap]
    exact bareMark?_visit ho s
  refine ⟨tokens, hread, htext, hclean, ?_, ?_, hwalked, ?_⟩
  · intro m hm
    rw [hmarks] at hm
    obtain ⟨p, hp, hm⟩ := List.mem_filterMap.mp hm
    obtain ⟨n, hn, hwritten⟩ := written_visit hp
    exact known_of_written hwritten (hlevels n hn) hm
  · rw [render_eq_whole]
    exact decodes_print true fun p => isSafe_of_mem_visit he ho hlevels hplain
  · rw [← Markup.opened_bare, hwalked]
    exact balanced_visit s []

end

end Html

namespace Document

theorem Session.levels_of_site (x : Session) {id : NodeId} {s : Site}
    (hs : x.document.site? id = some s) : s.tree.alone.Holds Content.IsLevelled := fun n hn =>
  x.holds Content.lasting_isLevelled n (Forest.nodes_subset (mem_subtrees_of_site? hs) hn)

/-- Nodes that are not custom have nothing of their own to write. -/
theorem plain_of_kinds {f : Forest}
    (h : ∀ n ∈ f.nodes, n.kind ≠ .customBlock ∧ n.kind ≠ .customInline) :
    ∀ n ∈ f.nodes, n.content.onEnter? = none ∧ n.content.onExit? = none := by
  intro n hn
  obtain ⟨hblock, hinline⟩ := h n hn
  unfold Node.kind at hblock hinline
  cases hcontent : n.content <;> simp_all [Content.kind, Content.onEnter?, Content.onExit?]

/-- In every session, the page of a node without custom nodes is read safely,
unless the options allow unsafe output. -/
theorem Session.pages_read_safely {e : Html.Encoder} (he : e.Documented) (x : Session)
    {id : NodeId} {s : Site} (hs : x.document.site? id = some s)
    (hplain : ∀ n ∈ s.tree.alone.nodes, n.kind ≠ .customBlock ∧ n.kind ≠ .customInline)
    {o : Options} (ho : o.allowUnsafe = false) :
    ∃ tokens, Html.ReadsSafely o s (Html.render e o s) tokens :=
  Html.exists_readsSafely he ho (x.levels_of_site hs) (plain_of_kinds hplain)

/-- A page with an image whose description and title try to end their quotes,
and raw HTML beside it. -/
theorem pages_read_safely_image :
    let x : Session := ⟨.new, [.create .paragraph, .appendChild 0 1, .create .image,
      .appendChild 1 2, .set 2 (.url (some "a&'\"b".toList)),
      .set 2 (.title (some "\"><b>".toList)), .create .text, .appendChild 2 3,
      .set 3 (.literal (some "\"&lt;<".toList)), .create .htmlInline, .appendChild 1 4,
      .set 4 (.literal (some "<b>".toList))]⟩
    ∃ s, x.document.site? 0 = some s ∧
      (∀ n ∈ s.tree.alone.nodes, n.kind ≠ .customBlock ∧ n.kind ≠ .customInline) ∧
      ∃ tokens, Html.ReadsSafely {} s (Html.render Html.percentEncode {} s) tokens := by
  intro x
  have hs : x.document.site? 0 = some ((x.document.site? 0).get (by decide +kernel)) := by simp
  have hplain : ∀ n ∈ ((x.document.site? 0).get (by decide +kernel)).tree.alone.nodes,
      n.kind ≠ .customBlock ∧ n.kind ≠ .customInline := by decide +kernel
  exact ⟨_, hs, hplain, x.pages_read_safely Html.documented_percentEncode hs hplain rfl⟩

end Document

end MarkupTree
