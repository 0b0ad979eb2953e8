-- The XML of a node as tokens. They are clean and their text is what is
-- written, whatever the literals and the attributes hold: the spaces in front of
-- the tags are counted up and down, and there are always two for each element
-- around.
import MarkupTree.Proofs.Forest.Entries
import MarkupTree.Proofs.Forest.Visits
import MarkupTree.Proofs.Xml.Escaping

namespace MarkupTree

namespace Xml

open Markup (Mark Token)

/-! ## The tokens of a tree -/

/-- The attributes of an element as they are written. -/
def escaped (attributes : List (Text × Text)) : List (Text × Text) :=
  attributes.map fun a => (a.1, escape a.2)

def indentTokens (depth : Nat) : List Token := (indent depth).map Token.char

/-- What entering a node writes, as tokens. -/
def enterTokens (s : Site) : List Token :=
  let name := s.kind.name
  let attributes := escaped (element s.content).attributes
  indentTokens s.depth ++
    match s.content.literal? with
    | some t =>
      .mark (.opening name attributes) :: ((escape t).map Token.char ++
        [.mark (.closing name), .char '\n'])
    | none =>
      if s.children.isEmpty then [.mark (.void name attributes), .char '\n']
      else [.mark (.opening name attributes), .char '\n']

def exitTokens (s : Site) : List Token :=
  if s.children.isEmpty then []
  else indentTokens s.depth ++ [.mark (.closing s.kind.name), .char '\n']

def tokens : Visitor Token := ⟨enterTokens, exitTokens, fun _ => true⟩

/-! ## Attributes -/

theorem decodeAttributes_escaped (as : List (Text × Text)) :
    decodeAttributes (escaped as) = some as := by
  induction as with
  | nil => rfl
  | cons a as ih =>
    rw [escaped, List.map_cons, decodeAttributes, decode_escape, Option.bind_some, ← escaped, ih]
    rfl

theorem flatMap_attributeText (as : List (Text × Text)) :
    (escaped as).flatMap Markup.attributeText = as.flatMap fun a => property escape a.1 a.2 := by
  rw [escaped, List.flatMap_map]
  rfl

theorem listAttributes_eq (style : ListStyle) :
    listAttributes style =
      (properties (.list style)).flatMap fun a => property escape a.1 a.2 := by
  obtain ⟨kind, start, delimiter, bullet, tight⟩ := style
  have hstart : property escape "start".toList (Text.ofNat start) =
      plain "start".toList (Text.ofNat start) :=
    property_of_names (Markup.isNameChar_ofNat start)
  have htight : property escape "tight".toList (boolName tight) =
      plain "tight".toList (boolName tight) := by cases tight <;> rfl
  cases kind with
  | bullet =>
    show plain _ _ ++ plain _ _ = property _ _ _ ++ (property _ _ _ ++ [])
    rw [List.append_nil, htight]
    rfl
  | ordered =>
    rcases delimiter with _ | d
    · show (plain _ _ ++ plain _ _ ++ []) ++ plain _ _ =
        property _ _ _ ++ (property _ _ _ ++ (property _ _ _ ++ []))
      rw [List.append_nil, List.append_nil, hstart, htight, List.append_assoc]
      rfl
    · have hdelimiter : property escape "delim".toList d.name = plain "delim".toList d.name := by
        cases d <;> rfl
      show (plain _ _ ++ plain _ _ ++ plain _ _) ++ plain _ _ =
        property _ _ _ ++ (property _ _ _ ++ (property _ _ _ ++ (property _ _ _ ++ [])))
      rw [List.append_nil, hstart, htight, hdelimiter, List.append_assoc, List.append_assoc]
      rfl

theorem attributes_eq (c : Content) :
    attributes escape c = (properties c).flatMap fun a => property escape a.1 a.2 := by
  have hone : ∀ a : Text, a = a ++ [] := fun a => (List.append_nil a).symm
  cases c with
  | list style => exact listAttributes_eq style
  | codeBlock info literal =>
    rcases info with _ | _ | ⟨c, cs⟩
    · rfl
    · rfl
    · exact hone _
  | document => exact hone _
  | heading level =>
    show plain _ _ = property _ _ _ ++ []
    rw [List.append_nil, property_of_names (Markup.isNameChar_ofNat level)]
  | customBlock onEnter onExit =>
    exact congrArg (property escape "on_enter".toList onEnter ++ ·) (hone _)
  | customInline onEnter onExit =>
    exact congrArg (property escape "on_enter".toList onEnter ++ ·) (hone _)
  | link url title => exact congrArg (property escape "destination".toList url ++ ·) (hone _)
  | image url title => exact congrArg (property escape "destination".toList url ++ ·) (hone _)
  | _ => rfl

/-- The attributes of an element, with the one that keeps the blanks of a literal
after those of the content. -/
theorem flatMap_element (c : Content) :
    (escaped (element c).attributes).flatMap Markup.attributeText =
      attributes escape c ++ (keepBlanks c.literal?).flatMap fun a => property escape a.1 a.2 := by
  rw [flatMap_attributeText, element, List.flatMap_append, attributes_eq]

/-! ## Indents -/

section

variable {e : Escaper} {o : Options}

theorem spacesAfter_enter (n : Nat) (s : Site) :
    spacesAfter n (enter e o s) = if s.children.isEmpty then n else n + 2 := by
  unfold enter
  cases s.children.isEmpty <;> cases s.content.literal?.isNone <;> rfl

theorem spacesAfter_exit (n : Nat) (s : Site) :
    spacesAfter n (exit s) = if s.children.isEmpty then n else n - 2 := by
  unfold exit
  cases s.children.isEmpty <;> rfl

/-- What is between the tags of a node leaves the indent as it was after the first. -/
theorem spacesAfter_node (n : Nat) (s : Site) {inner : List Piece}
    (hinner : ∀ n, spacesAfter n inner = n) :
    spacesAfter n (enter e o s ++ inner ++ exit s) = n := by
  rw [spacesAfter_append, spacesAfter_append, spacesAfter_enter, hinner, spacesAfter_exit]
  cases s.children.isEmpty <;> rfl

/-- A row of nodes with all below them leaves the indent as it was. -/
theorem spacesAfter_row (n : Nat) (f : Forest) (ancestors before : List Node) (depth : Nat) :
    spacesAfter n (f.visit (visitor e o) ancestors before depth) = n := by
  have hall : ∀ n, spacesAfter n (f.visit (visitor e o) ancestors before depth) = n := by
    refine Forest.visit_induction (P := fun ps => ∀ n, spacesAfter n ps = n) (fun _ => rfl) ?_ ?_
    · intro ps qs hps hqs n
      rw [spacesAfter_append, hps, hqs]
    · exact fun t inner hinner n => spacesAfter_node n t hinner
  exact hall n

theorem spacesAfter_visit (n : Nat) (s : Site) : spacesAfter n (s.visit (visitor e o)) = n :=
  spacesAfter_node n s fun n => spacesAfter_row n _ _ _ _

/-- Where a node is entered, the indent is two spaces for each element around it. -/
theorem spacesAfter_enters {s t : Site} {above : List Site} {written : List Piece}
    (h : s.Enters (visitor e o) above written t) : spacesAfter 0 written = 2 * above.length := by
  induction h with
  | start => rfl
  | @child above us ws written t u _ _ hbelow ih =>
    have hbeside : spacesAfter (2 * above.length + 2) (us.flatMap (Site.visit (visitor e o))) =
        2 * above.length + 2 := by
      clear hbelow
      induction us with
      | nil => rfl
      | cons v us ihv => rw [List.flatMap_cons, spacesAfter_append, spacesAfter_visit, ihv]
    have hchildren : t.children.isEmpty = false := by
      cases hc : t.children with
      | nil => simp [Site.below, hc, Forest.sites] at hbelow
      | cons => rfl
    rw [spacesAfter_append, spacesAfter_append, ih]
    show spacesAfter (spacesAfter (2 * above.length) (enter e o t)) _ = _
    rw [spacesAfter_enter, hchildren]
    exact hbeside

theorem print_enter (n : Nat) (s : Site) :
    print n (enter e o s) = Text.spaces n ++ (startTag e o s ++
      ((if s.children.isEmpty && s.content.literal?.isNone then " /".toList else []) ++
        ">\n".toList)) := by
  unfold enter
  cases s.children.isEmpty <;> cases s.content.literal?.isNone <;> rfl

theorem print_exit (n : Nat) (s : Site) :
    print n (exit s) = if s.children.isEmpty then []
      else Text.spaces (n - 2) ++ ("</".toList ++ s.kind.name ++ ">\n".toList) := by
  unfold exit
  cases s.children.isEmpty
  · exact congrArg (Text.spaces (n - 2) ++ ·) (List.append_nil _)
  · rfl

end

/-! ## The tokens are what is written -/

theorem text_exitTokens (s : Site) :
    (exitTokens s).flatMap Token.text =
      print (if s.children.isEmpty then 2 * s.depth else 2 * s.depth + 2) (exit s) := by
  have hslash : "</".toList = ['<', '/'] := rfl
  have hend : ">\n".toList = ['>', '\n'] := rfl
  rw [print_exit]
  unfold exitTokens indentTokens indent
  split
  · rfl
  · rw [List.flatMap_append, Markup.flatMap_text_chars, hslash, hend, Nat.add_sub_cancel]
    simp only [List.flatMap_cons, List.flatMap_nil, Token.text, Mark.inner, List.append_assoc,
      List.cons_append, List.nil_append, List.append_nil]

section

variable {o : Options} (ho : o.sourcePos = false)

include ho

theorem text_enterTokens (s : Site) :
    (enterTokens s).flatMap Token.text = print (2 * s.depth) (enter escape o s) := by
  have hsource : sourceAttribute o s.node = [] := by simp [sourceAttribute, ho]
  have hattributes := flatMap_element s.content
  have hslash : "</".toList = ['<', '/'] := rfl
  have hvoid : " /".toList = [' ', '/'] := rfl
  have hend : ">\n".toList = ['>', '\n'] := rfl
  rw [print_enter]
  unfold enterTokens startTag literalBody indentTokens indent
  rw [List.flatMap_append, Markup.flatMap_text_chars, hsource]
  rcases hl : s.content.literal? with _ | t
  · rw [hl, keepBlanks, Option.toList_none, List.map_nil, List.flatMap_nil, List.append_nil]
      at hattributes
    rcases hc : s.children.isEmpty
    · simp only [List.flatMap_cons, List.flatMap_nil, Token.text, Mark.inner, hattributes, hend,
        Bool.false_and, Bool.false_eq_true, if_false, List.append_assoc, List.cons_append,
        List.nil_append, List.append_nil]
    · simp only [List.flatMap_cons, List.flatMap_nil, Token.text, Mark.inner, hattributes, hend,
        hvoid, Option.isNone_none, Bool.and_true, if_true, List.append_assoc, List.cons_append,
        List.nil_append, List.append_nil]
  · have hkeep : (keepBlanks (some t)).flatMap (fun a => property escape a.1 a.2) =
        plain "xml:space".toList "preserve".toList := List.append_nil _
    rw [hl, hkeep] at hattributes
    simp only [List.flatMap_cons, List.flatMap_nil, List.flatMap_append,
      Markup.flatMap_text_chars, Token.text, Mark.inner, hattributes, hend, hslash,
      Option.isNone_some, Bool.and_false, Bool.false_eq_true, if_false, List.append_assoc,
      List.cons_append, List.nil_append, List.append_nil]
    rfl

/-- A node is printed token by token if what is below it is. -/
theorem print_site {s : Site}
    (hbelow : print (2 * (s.depth + 1))
        (s.children.visit (visitor escape o) (s.node :: s.ancestors) [] (s.depth + 1)) =
      (s.children.visit tokens (s.node :: s.ancestors) [] (s.depth + 1)).flatMap Token.text) :
    print (2 * s.depth) (s.visit (visitor escape o)) = (s.visit tokens).flatMap Token.text := by
  have hpieces : s.visit (visitor escape o) = enter escape o s ++
      s.children.visit (visitor escape o) (s.node :: s.ancestors) [] (s.depth + 1) ++ exit s := rfl
  have htokens : s.visit tokens = enterTokens s ++
      s.children.visit tokens (s.node :: s.ancestors) [] (s.depth + 1) ++ exitTokens s := rfl
  rw [hpieces, htokens, print_append, print_append, spacesAfter_append, spacesAfter_row,
    spacesAfter_enter, List.flatMap_append, List.flatMap_append, text_enterTokens ho,
    text_exitTokens]
  cases hc : s.children with
  | nil => rfl
  | cons n cs rest =>
    rw [hc] at hbelow
    rw [← hbelow]
    rfl

theorem print_row (f : Forest) (ancestors before : List Node) (depth : Nat) :
    print (2 * depth) (f.visit (visitor escape o) ancestors before depth) =
      (f.visit tokens ancestors before depth).flatMap Token.text := by
  induction f generalizing ancestors before depth with
  | nil => rfl
  | cons n cs rest ihc ihr =>
    let s : Site := { node := n, children := cs, ancestors, before, after := rest, depth }
    have hpieces : (Forest.cons n cs rest).visit (visitor escape o) ancestors before depth =
        s.visit (visitor escape o) ++ rest.visit (visitor escape o) ancestors (n :: before) depth :=
      rfl
    have htokens : (Forest.cons n cs rest).visit tokens ancestors before depth =
        s.visit tokens ++ rest.visit tokens ancestors (n :: before) depth := rfl
    rw [hpieces, htokens, print_append, spacesAfter_visit, List.flatMap_append, ihr,
      print_site ho (s := s) (ihc _ _ _)]

/-- The XML of a node, token by token. -/
theorem print_visit (s : Site) :
    print (2 * s.depth) (s.visit (visitor escape o)) = (s.visit tokens).flatMap Token.text :=
  print_site ho (print_row ho _ _ _ _)

end

/-! ## The tokens are clean -/

theorem isName_kind (k : Kind) : Markup.isName k.name = true := by cases k <;> decide

theorem isNameChar_element (c : Content) :
    ∀ a ∈ (element c).attributes, a.1.all Markup.isNameChar = true := by
  refine List.forall_mem_append.mpr ⟨?_, ?_⟩
  · rw [← List.forall_iff_forall_mem]
    cases c with
    | list style =>
      obtain ⟨kind, start, delimiter, bullet, tight⟩ := style
      cases kind with
      | bullet => exact ⟨rfl, rfl⟩
      | ordered =>
        rcases delimiter with _ | d
        · exact ⟨rfl, rfl, rfl⟩
        · exact ⟨rfl, rfl, rfl, rfl⟩
    | codeBlock info literal => rcases info with _ | _ | ⟨c, cs⟩ <;> trivial
    | document | heading => rfl
    | customBlock | customInline | link | image => exact ⟨rfl, rfl⟩
    | _ => trivial
  · intro a ha
    obtain ⟨t, -, rfl⟩ := List.mem_map.mp ha
    rfl

theorem isClean_indent (depth : Nat) : ∀ t ∈ indentTokens depth, t.isClean = true := by
  intro t ht
  obtain ⟨c, hc, rfl⟩ := List.mem_map.mp ht
  rw [List.eq_of_mem_replicate hc]
  rfl

theorem isClean_enterTokens (s : Site) : ∀ t ∈ enterTokens s, t.isClean = true := by
  have hattributes : (escaped (element s.content).attributes).all Markup.isAttribute = true := by
    rw [escaped, List.all_map]
    refine List.all_eq_true.mpr fun a ha => Bool.and_eq_true_iff.mpr ⟨?_, ?_⟩
    · exact isNameChar_element s.content a ha
    · exact List.all_eq_true.mpr (isValueChar_escape a.2)
  have hname := isName_kind s.kind
  have htag := Bool.and_eq_true_iff.mpr ⟨hname, hattributes⟩
  have hend : ∀ t ∈ [Token.char '\n'], t.isClean = true := List.forall_mem_singleton.mpr rfl
  refine List.forall_mem_append.mpr ⟨isClean_indent _, ?_⟩
  split
  · rename_i literal _
    refine List.forall_mem_cons.mpr ⟨htag, List.forall_mem_append.mpr ⟨?_, ?_⟩⟩
    · intro t ht
      obtain ⟨c, hc, rfl⟩ := List.mem_map.mp ht
      exact (Bool.and_eq_true_iff.mp (isValueChar_escape literal c hc)).1
    · exact List.forall_mem_cons.mpr ⟨hname, hend⟩
  · split
    · exact List.forall_mem_cons.mpr ⟨htag, hend⟩
    · exact List.forall_mem_cons.mpr ⟨htag, hend⟩

theorem isClean_exitTokens (s : Site) : ∀ t ∈ exitTokens s, t.isClean = true := by
  unfold exitTokens
  split
  · exact List.forall_mem_nil _
  · refine List.forall_mem_append.mpr ⟨isClean_indent _, List.forall_mem_cons.mpr ⟨?_, ?_⟩⟩
    · exact isName_kind s.kind
    · exact List.forall_mem_singleton.mpr rfl

/-- Brackets stand at the ends of marks only. -/
theorem isClean_tokens (s : Site) : ∀ t ∈ s.visit tokens, t.isClean = true := by
  intro t ht
  obtain ⟨u, -, ht | ht⟩ := Site.mem_visit ht
  · exact isClean_enterTokens u t ht
  · exact isClean_exitTokens u t ht

end Xml

end MarkupTree
