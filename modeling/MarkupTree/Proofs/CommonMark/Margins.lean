-- The margin of a page of CommonMark is a stack that mirrors the tree. Each
-- block quote and each item adds its share on entering and takes it off on
-- leaving, so at every node stand the shares of the nodes above it, the
-- outermost first.
import MarkupTree.CommonMark.Instructions
import MarkupTree.Proofs.Forest.Entries
import MarkupTree.Proofs.Forest.Visits
import MarkupTree.Proofs.Layout.Margins

namespace MarkupTree

namespace CommonMark

open Layout

variable {o : Options} {width : Nat}

/-- How a page of CommonMark is set. -/
def format (o : Options) (width : Nat) : Format := ⟨effectiveWidth o width, escapeChar⟩

/-- The instructions by which a page of CommonMark is filled. -/
def instructions (o : Options) (width : Nat) (s : Site) : List Instruction :=
  s.visit (visitor o (effectiveWidth o width))

/-- What a node adds to the margin of what stands below it: a block quote its
mark, an item as many spaces as its marker has characters. -/
def marginShare (s : Site) : Text :=
  match s.content with
  | .blockQuote => "> ".toList
  | .item => Text.spaces (itemMarker s).length
  | _ => []

theorem newline_notMem_marginShare (s : Site) : '\n' ∉ marginShare s := by
  unfold marginShare
  split
  · decide
  · intro h
    exact absurd (List.eq_of_mem_replicate h) (by decide)
  · exact List.not_mem_nil

/-! ## One node -/

/-- Code brings its own indentation and takes it off again. -/
theorem framed_codeBlock (s : Site) (info : Option Text) (literal : Text) :
    Framed (codeBlock s info literal) := by
  have hindented : Framed
      [lit (Text.spaces 4), .indent (Text.spaces 4), lit literal, .outdent 4] := by
    have hspaces : '\n' ∉ Text.spaces 4 := by decide
    have hindent : Framed [lit (Text.spaces 4)] := .of_keepsMargin rfl
    have hbody : Framed [lit literal] := .of_keepsMargin rfl
    exact hindent.append (hbody.enclose hspaces)
  unfold codeBlock
  dsimp only
  refine Framed.append (Framed.append ?_ ?_) (.of_keepsMargin rfl)
  · split
    · exact .nil
    · exact .of_keepsMargin rfl
  · split
    · exact hindented
    · exact .of_keepsMargin rfl

theorem framed_enterContent {s : Site} (hquote : s.content ≠ .blockQuote) (hitem : s.content ≠ .item) :
    Framed (enterContent o width s) := by
  unfold enterContent
  split
  · exact .nil
  · exact .nil
  · exact .nil
  · exact absurd ‹_› hquote
  · exact absurd ‹_› hitem
  · exact .of_keepsMargin rfl
  · exact framed_codeBlock s _ _
  · exact .of_keepsMargin rfl
  · exact .of_keepsMargin rfl
  · exact .of_keepsMargin rfl
  · unfold textRun
    dsimp only
    split <;> exact .of_keepsMargin rfl
  · split <;> exact .of_keepsMargin rfl
  · unfold softBreak
    split
    · exact .of_keepsMargin rfl
    · split <;> exact .of_keepsMargin rfl
  · unfold codeSpan
    dsimp only
    split <;> exact .of_keepsMargin rfl
  · exact .of_keepsMargin rfl
  · exact .of_keepsMargin rfl
  · unfold strongMarks
    split <;> exact .of_keepsMargin rfl
  · exact .of_keepsMargin rfl
  · split <;> exact .of_keepsMargin rfl
  · exact .of_keepsMargin rfl

theorem framed_destination (url title : Text) : Framed (destination url title) := by
  unfold destination
  split <;> split <;> exact .of_keepsMargin rfl

theorem framed_exitContent {s : Site} (hquote : s.content ≠ .blockQuote) (hitem : s.content ≠ .item) :
    Framed (exitContent s) := by
  unfold exitContent
  split
  · exact absurd ‹_› hquote
  · unfold listEnd
    split <;> exact .of_keepsMargin rfl
  · exact absurd ‹_› hitem
  · exact .of_keepsMargin rfl
  · exact .of_keepsMargin rfl
  · exact .of_keepsMargin rfl
  · exact .of_keepsMargin rfl
  · unfold strongMarks
    split <;> exact .of_keepsMargin rfl
  · exact .of_keepsMargin rfl
  · split
    · exact .nil
    · exact framed_destination _ _
  · exact framed_destination _ _
  · exact .nil

/-- A node adds its share on entering, and nothing else. -/
theorem marginAfter_enter (s : Site) (margin : Text) :
    marginAfter margin (enter o width s) = margin ++ marginShare s := by
  have htight : marginAfter margin
      (if s.kind = .item ∧ s.before.isEmpty then [] else [tightness s]) = margin := by
    split <;> rfl
  rw [enter, marginAfter_append, htight]
  by_cases hquote : s.content = .blockQuote
  · simp only [enterContent, marginShare, hquote]
    rfl
  · by_cases hitem : s.content = .item
    · simp only [enterContent, marginShare, hitem]
      rfl
    · rw [(framed_enterContent hquote hitem).settled]
      unfold marginShare
      split
      · exact absurd ‹_› hquote
      · exact absurd ‹_› hitem
      · exact (List.append_nil margin).symm

/-- A node with all below it leaves the margin as it was, if what is below it
does. -/
theorem framed_node (s : Site) {inner : List Instruction} (h : Framed inner) :
    Framed (enter o width s ++ inner ++ exit s) := by
  have htight : Framed (if s.kind = .item ∧ s.before.isEmpty then [] else [tightness s]) := by
    split
    · exact .nil
    · exact .of_keepsMargin rfl
  have hinner : Framed (inner ++ [tightness s]) := h.append (.of_keepsMargin rfl)
  have hshare := hinner.enclose (newline_notMem_marginShare s)
  by_cases hquote : s.content = .blockQuote
  · have hfront : Framed [lit "> ".toList, .beginContent] := .of_keepsMargin rfl
    have hback : Framed [.blankLine] := .of_keepsMargin rfl
    have heq : enter o width s ++ inner ++ exit s =
        (if s.kind = .item ∧ s.before.isEmpty then [] else [tightness s]) ++
          ([lit "> ".toList, .beginContent] ++
            (.indent (marginShare s) ::
              (inner ++ [tightness s] ++ [.outdent (marginShare s).length])) ++ [.blankLine]) := by
      simp [enter, exit, enterContent, exitContent, marginShare, hquote]
    rw [heq]
    exact htight.append ((hfront.append hshare).append hback)
  · by_cases hitem : s.content = .item
    · have hfront : Framed [lit (if s.children.isEmpty then Text.trimEnd (itemMarker s)
          else itemMarker s), .beginContent] := .of_keepsMargin rfl
      have hback : Framed [.lineBreak] := .of_keepsMargin rfl
      have heq : enter o width s ++ inner ++ exit s =
          (if s.kind = .item ∧ s.before.isEmpty then [] else [tightness s]) ++
            ([lit (if s.children.isEmpty then Text.trimEnd (itemMarker s) else itemMarker s),
                .beginContent] ++
              (.indent (marginShare s) ::
                (inner ++ [tightness s] ++ [.outdent (marginShare s).length])) ++
              [.lineBreak]) := by
        simp [enter, exit, enterContent, exitContent, enterItem, marginShare, hitem, Text.spaces]
      rw [heq]
      exact htight.append ((hfront.append hshare).append hback)
    · have hcontent : Framed (enterContent o width s) := framed_enterContent hquote hitem
      have hback : Framed [tightness s] := .of_keepsMargin rfl
      have hexit : Framed (exit s) := hback.append (framed_exitContent hquote hitem)
      exact ((htight.append hcontent).append h).append hexit

/-! ## The whole walk -/

theorem framed_visit (s : Site) : Framed (s.visit (visitor o width)) :=
  Site.visit_induction .nil (fun _ _ => Framed.append) fun t _ h => framed_node t h

theorem framed_sites (us : List Site) : Framed (us.flatMap (Site.visit (visitor o width))) := by
  induction us with
  | nil => exact .nil
  | cons u us ih => exact (framed_visit u).append ih

/-- The margin at the entry of a node is the shares of the nodes above it. -/
theorem marginAfter_written {s t : Site} {above : List Site} {written : List Instruction}
    (h : s.Enters (visitor o width) above written t) :
    marginAfter [] written = above.reverse.flatMap marginShare := by
  induction h with
  | start => rfl
  | @child above us ws written t u _ _ _ ih =>
    rw [marginAfter_append, marginAfter_append, ih, (framed_sites us).settled]
    show marginAfter (above.reverse.flatMap marginShare) (enter o width t) = _
    rw [marginAfter_enter]
    simp

/-- What the walk over a node does to the margin of the page that it fills. -/
structure MarginsMirror (o : Options) (width : Nat) (s : Site) : Prop where
  /-- When a node is entered, the margin is the shares of the nodes above it
  within the walk, the outermost first. -/
  entered : ∀ above written t, s.Enters (visitor o (effectiveWidth o width)) above written t →
    t.ancestors = above.map Site.node ++ s.ancestors ∧
      (Page.run (format o width) written {}).margin = above.reverse.flatMap marginShare
  /-- When it is left, the margin is what it was. -/
  left : ∀ above written t, s.Enters (visitor o (effectiveWidth o width)) above written t →
    (∃ rest, instructions o width s = written ++ instructions o width t ++ rest) ∧
      (Page.run (format o width) (written ++ instructions o width t) {}).margin =
        (Page.run (format o width) written {}).margin
  /-- Each node is entered, the text of an automatic link apart. -/
  complete : ∀ n ∈ s.tree.alone.nodes, ∃ above written t,
    s.Enters (visitor o (effectiveWidth o width)) above written t ∧
      (t.node = n ∨ (autolink? t).isSome ∧ n ∈ t.children.nodes)
  finished : (Page.run (format o width) (instructions o width s) {}).margin = []
  /-- No more is taken off the margin than it holds. -/
  outdents : ∀ written count rest, instructions o width s = written ++ .outdent count :: rest →
    count ≤ (Page.run (format o width) written {}).margin.length

/-- The margin is a stack that mirrors the tree, for every node in its place in any
document, all options and all widths. -/
theorem margins_mirror_tree (o : Options) (width : Nat) (s : Site) : MarginsMirror o width s where
  entered above written t h := by
    refine ⟨h.ancestors_eq, ?_⟩
    rw [Page.margin_run]
    exact marginAfter_written h
  left above written t h := by
    refine ⟨h.visit_eq, ?_⟩
    rw [Page.margin_run, Page.margin_run, marginAfter_append]
    exact (framed_visit t).settled _
  complete n hn := by
    obtain ⟨above, written, t, h, ht⟩ :=
      Site.enters_of_mem (visitor o (effectiveWidth o width)) s hn
    refine ⟨above, written, t, h, ht.imp id fun ⟨hskip, hn⟩ => ⟨?_, hn⟩⟩
    have hlink : t.kind = .link ∧ (autolink? t).isSome := by simpa [visitor] using hskip
    exact hlink.2
  finished := by
    rw [Page.margin_run]
    exact (framed_visit s).settled []
  outdents written count rest h := by
    rw [Page.margin_run]
    have hfront : written ++ [.outdent count] <+: instructions o width s := ⟨rest, by rw [h]; simp⟩
    simpa using (framed_visit s).outdents written count hfront []

end CommonMark

end MarkupTree
