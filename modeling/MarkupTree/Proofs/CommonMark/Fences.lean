-- Fences of code blocks. A fence is longer than any run of its character in the code,
-- so the code cannot close it. The info string stands right after the fence that opens
-- the block, and may make it longer than the one that closes it.
import MarkupTree.Output
import MarkupTree.Proofs.CommonMark.Margins
import MarkupTree.Proofs.Document.Sessions
import MarkupTree.Proofs.Forest.Visits
import MarkupTree.Proofs.Layout.Chunks
import MarkupTree.Proofs.Xml.Trees

namespace MarkupTree

namespace CommonMark

open Layout

variable {o : Options} {width : Nat} {s : Site} {c : Char}

/-! ## Runs of a character -/

theorem le_longestRunFrom (c : Char) (current : Nat) (t : Text) : current ≤ longestRunFrom c current t := by
  induction t generalizing current with
  | nil => simp [longestRunFrom]
  | cons d ds ih =>
    unfold longestRunFrom
    split
    · have hmore := ih (current + 1)
      omega
    · omega

/-- A run at the start of a text goes on from the one before it. -/
theorem add_le_longestRunFrom {k : Nat} {t : Text} (h : List.replicate k c <+: t) (current : Nat) :
    current + k ≤ longestRunFrom c current t := by
  induction k generalizing current t with
  | zero => exact le_longestRunFrom c current t
  | succ k ih =>
    obtain ⟨rest, rfl⟩ := h
    have hmore := ih (List.prefix_append (List.replicate k c) rest) (current + 1)
    rw [List.replicate_succ, List.cons_append, longestRunFrom, if_pos rfl]
    omega

theorem le_longestRunFrom_of_infix {k : Nat} {t : Text} (h : List.replicate k c <:+: t) (current : Nat) :
    k ≤ longestRunFrom c current t := by
  induction t generalizing current with
  | nil =>
    have hk : k = 0 := by simpa using h
    omega
  | cons d ds ih =>
    rcases List.infix_cons_iff.mp h with hfront | hrest
    · have hle := add_le_longestRunFrom hfront current
      omega
    · unfold longestRunFrom
      split
      · exact ih hrest _
      · have hle := ih hrest 0
        omega

/-- No run of a text is longer than its longest one. -/
theorem le_longestRun {k : Nat} {t : Text} (h : List.replicate k c <:+: t) : k ≤ longestRun c t :=
  le_longestRunFrom_of_infix h 0

/-- The run at the start of a text goes on with what follows it. -/
theorem length_takeWhile_replicate (c : Char) (n : Nat) (t : Text) :
    ((List.replicate n c ++ t).takeWhile (· == c)).length = n ↔ t.head? ≠ some c := by
  have hrun : ∀ d ∈ List.replicate n c, (d == c) = true := by
    intro d hd
    rw [List.eq_of_mem_replicate hd]
    exact beq_self_eq_true c
  rw [List.takeWhile_append_of_pos hrun, List.length_append, List.length_replicate]
  cases t with
  | nil => simp
  | cons d ds =>
    by_cases hd : d = c
    · subst hd
      simp
    · simp [hd]

/-! ## Fences -/

/-- The character of the fence around code with the info string. -/
def fenceChar (info : Text) : Char := if '\x60' ∈ info then '~' else '\x60'

theorem fence_eq (info literal : Text) :
    fence info literal = List.replicate (max (longestRun (fenceChar info) literal + 1) 3) (fenceChar info) := by
  simp [fence, fenceChar]

theorem fence_ne_nil (info literal : Text) : fence info literal ≠ [] := by
  rw [fence_eq]
  simp

theorem newline_notMem_fence (info literal : Text) : '\n' ∉ fence info literal := by
  rw [fence_eq]
  intro h
  have hc := List.eq_of_mem_replicate h
  unfold fenceChar at hc
  split at hc <;> simp at hc

/-- No line of the code holds a run as long as the fence. -/
theorem not_fence_infix (info : Text) {literal l : Text} (hl : l ∈ Text.lines literal) :
    ¬fence info literal <:+: l := by
  intro h
  rw [fence_eq] at h
  have hle := le_longestRun (h.trans (Text.infix_of_mem_lines hl))
  omega

/-- The block is set between fences, and not by indentation. -/
def IsFenced (s : Site) (info : Option Text) (literal : Text) : Prop :=
  info ≠ none ∨ s.before = [] ∧ s.isIn .item = true ∨ canIndent literal = false

theorem codeBlock_eq_of_fenced {info : Option Text} {literal : Text} (h : IsFenced s info literal) :
    codeBlock s info literal =
      (if s.before.isEmpty && s.isIn .item then [] else [.blankLine]) ++
        [lit (fence (info.getD []) literal), lit (info.getD []), .lineBreak, lit literal, .lineBreak,
          lit (fence (info.getD []) literal)] ++ [.blankLine] := by
  have hbody : (info.isNone && !(s.before.isEmpty && s.isIn .item) && canIndent literal) = false := by
    rcases h with h | ⟨h, hitem⟩ | h
    · simp [Option.isNone_iff_eq_none, h]
    · simp [h, hitem]
    · simp [h]
  unfold codeBlock
  dsimp only
  rw [hbody]
  rfl

/-! ## The page of a fenced block -/

/-- Between its fences the block has the lines of the code, and the info string stands behind the
fence that opens it. -/
theorem lined_fenced {p : Page} {f : Format} {info : Text} (hflat : p.Flat) (hempty : p.text = [])
    (hinfo : '\n' ∉ info) (literal : Text) :
    Text.Lined ((fence info literal ++ info) :: Text.lines literal) (fence info literal)
      (p.run f [lit (fence info literal), lit info, .lineBreak, lit literal, .lineBreak,
        lit (fence info literal)]).reversed := by
  have hopening : '\n' ∉ fence info literal ++ info := by simp [newline_notMem_fence, hinfo]
  have hne : fence info literal ++ info ≠ [] := by simp [fence_ne_nil]
  have hopened := hflat.holds (f := f) hempty (fence info literal)
  have htold := hopened.lit (f := f) info
  have hfilled := htold.line (f := f) literal
  have hclosed := (hfilled.line (f := f) (fence info literal)).text
  have hline : Text.ended (Text.lines (fence info literal ++ info)) ++ literal =
      (fence info literal ++ info) ++ '\n' :: literal := by
    rw [Text.lines_of_notMem hopening hne]
    simp [Text.ended]
  rw [hline, Text.lines_line_append hopening] at hclosed
  refine ⟨hclosed, ?_, newline_notMem_fence info literal⟩
  rw [List.forall_mem_cons]
  exact ⟨hopening, fun l hl => Text.newline_notMem_of_mem_lines hl⟩

/-- A block with no children below it fills the whole page. -/
theorem lines_render_of_fenced {info : Option Text} {literal : Text} (hcontent : s.content = .codeBlock info literal)
    (hchildren : s.children = .nil) (hfenced : IsFenced s info literal) (hinfo : '\n' ∉ info.getD [])
    (o : Options) (width : Nat) :
    Text.lines (render o width s) =
      (fence (info.getD []) literal ++ info.getD []) :: Text.lines literal ++ [fence (info.getD []) literal] := by
  have hkind : s.kind = .codeBlock := congrArg Content.kind hcontent
  have hvisit : s.visit (visitor o (effectiveWidth o width)) =
      tightness s :: (codeBlock s info literal ++ [tightness s]) := by
    rw [Site.visit_of_leaf hchildren]
    simp [visitor, enter, enterContent, exit, exitContent, hcontent, hkind]
  -- what is owed in front of the block comes to nothing on an empty page
  let start := Page.run (format o width)
    (tightness s :: if s.before.isEmpty && s.isIn .item then [] else [.blankLine]) {}
  have hstart : start.Flat ∧ start.text = [] := by
    unfold start
    split <;> exact ⟨⟨rfl, rfl⟩, rfl⟩
  have hlined := lined_fenced (f := format o width) hstart.1 hstart.2 hinfo literal
  unfold render
  dsimp only
  rw [hvisit, codeBlock_eq_of_fenced hfenced]
  refine Page.lines_finish ?_ (fence_ne_nil _ _)
  rw [List.append_assoc, List.append_assoc, ← List.cons_append, Page.run_append, Page.run_append]
  exact hlined

/-- How a page shows a fenced block: the line that opens it, the lines of the code, and the line that
closes it, all in one character. -/
structure Fenced (info literal page opening closing : Text) (c : Char) : Prop where
  lines : Text.lines page = opening :: Text.lines literal ++ [closing]
  opens : opening = closing ++ info
  char : c = '\x60' ∨ c = '~'
  closes : ∀ d ∈ closing, d = c
  long : 3 ≤ closing.length
  /-- No line of the code closes the block. -/
  inside : ∀ l ∈ Text.lines literal, ¬closing <:+: l
  /-- An info string with a backtick stands behind tildes. -/
  tildes : '\x60' ∈ info → c = '~'

theorem fenced_of_lines {info literal page : Text}
    (h : Text.lines page = (fence info literal ++ info) :: Text.lines literal ++ [fence info literal]) :
    Fenced info literal page (fence info literal ++ info) (fence info literal) (fenceChar info) where
  lines := h
  opens := rfl
  char := by
    unfold fenceChar
    split
    · exact Or.inr rfl
    · exact Or.inl rfl
  closes := by
    rw [fence_eq]
    intro d hd
    exact List.eq_of_mem_replicate hd
  long := by
    rw [fence_eq, List.length_replicate]
    omega
  inside := fun l hl => not_fence_infix info hl
  tildes := fun h => if_pos h

/-- The run that opens a block is as long as the one that closes it, if the info string does not go on
with it. -/
theorem length_opening (info literal : Text) :
    ((fence info literal ++ info).takeWhile (· == fenceChar info)).length = (fence info literal).length ↔
      ¬('\x60' ∈ info ∧ info.head? = some '~') := by
  rw [fence_eq, List.length_replicate, length_takeWhile_replicate]
  unfold fenceChar
  split
  · rename_i htick
    simp [htick]
  · rename_i htick
    refine iff_of_true ?_ fun h => htick h.1
    intro hhead
    exact htick (List.mem_of_mem_head? hhead)

end CommonMark

namespace Document

open CommonMark

/-- In every session, a code block that is set between fences has its code between two lines of one
character, of which no line of the code holds as many. The one that opens the block is as long as the
one that closes it, if and only if the info string does not go on with tildes that it brings in by a
backtick. -/
theorem Session.fences_close (x : Session) {id : NodeId} {s : Site} (hs : x.document.site? id = some s)
    {info : Option Text} {literal : Text} (hcontent : s.content = .codeBlock info literal)
    (hfenced : IsFenced s info literal) (hinfo : '\n' ∉ info.getD []) (o : Options) (width : Nat) :
    ∃ page, x.document.render? id .commonMark o width = some page ∧
      ∃ opening closing c, Fenced (info.getD []) literal page opening closing c ∧
        ((opening.takeWhile (· == c)).length = closing.length ↔
          ¬('\x60' ∈ info.getD [] ∧ (info.getD []).head? = some '~')) := by
  refine ⟨render o width s, by rw [render?, hs]; rfl, ?_⟩
  have hchildren := x.sound.children_of_literal hs (by rw [hcontent]; rfl)
  have hlines := lines_render_of_fenced hcontent hchildren hfenced hinfo o width
  exact ⟨_, _, _, fenced_of_lines hlines, length_opening _ _⟩

/-- Code with a run of two tildes, and a backtick in its info string. -/
theorem fences_close_tildes :
    let x : Session := ⟨.new, [.create .codeBlock, .appendChild 0 1,
      .set 1 (.literal (some "~~\na\n".toList)), .set 1 (.fenceInfo (some "a\x60b".toList))]⟩
    ∃ s, (x.document.site? 1 = some s ∧ s.content = .codeBlock (some "a\x60b".toList) "~~\na\n".toList ∧
        IsFenced s (some "a\x60b".toList) "~~\na\n".toList ∧ '\n' ∉ "a\x60b".toList) ∧
      ∃ page, x.document.render? 1 .commonMark {} 80 = some page ∧
        ∃ opening closing c, Fenced "a\x60b".toList "~~\na\n".toList page opening closing c ∧
          ((opening.takeWhile (· == c)).length = closing.length ↔
            ¬('\x60' ∈ "a\x60b".toList ∧ "a\x60b".toList.head? = some '~')) := by
  intro x
  have hcontent : (x.document.site? 1).map Site.content =
      some (.codeBlock (some "a\x60b".toList) "~~\na\n".toList) := by decide +kernel
  obtain ⟨s, hs, hblock⟩ := Option.map_eq_some_iff.mp hcontent
  have hfenced : IsFenced s (some "a\x60b".toList) "~~\na\n".toList := Or.inl nofun
  exact ⟨s, ⟨hs, hblock, hfenced, by decide⟩, x.fences_close hs hblock hfenced (by decide) {} 80⟩

/-- A tilde at the start of an info string with a backtick makes the run that opens the block longer
than the line that closes it. -/
theorem fence_opens_longer :
    let x : Session := ⟨.new, [.create .codeBlock, .appendChild 0 1,
      .set 1 (.literal (some "a\n".toList)), .set 1 (.fenceInfo (some "~\x60".toList))]⟩
    ∃ page, x.document.render? 1 .commonMark {} 80 = some page ∧
      ∃ opening closing, Text.lines page = [opening, "a".toList, closing] ∧
        closing = "~~~".toList ∧ (opening.takeWhile (· == '~')).length = 4 := by
  intro x
  have hpage : x.document.render? 1 .commonMark {} 80 = some "~~~~\x60\na\n~~~\n".toList := by
    decide +kernel
  exact ⟨_, hpage, "~~~~\x60".toList, "~~~".toList, by decide, rfl, by decide⟩

end Document

end MarkupTree
