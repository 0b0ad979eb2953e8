-- The commands of a page of LaTeX. A reader goes through the page character by character and
-- finds where environments begin and end, where counters are set and where items stand. What
-- is written of text has no such command in it, and the text of a code block has none for the
-- reader, who does not leave the environment before the block does.
import MarkupTree.Proofs.Latex.Recorders

namespace MarkupTree

namespace Latex

open Layout

/-! ## The reader -/

inductive Command
  | begins (environment : Text)
  | ends (environment : Text)
  | sets (counter : Text) (value : Nat)
  | item
  deriving DecidableEq, Repr

/-- Where a reader stands in a page. -/
inductive Place
  | text
  /-- Behind a backslash. -/
  | slash
  /-- In the name of a command. -/
  | name (letters : Text)
  /-- In an argument of a command, behind the whole ones. -/
  | argument (name : Text) (whole : List Text) (begun : Text)
  /-- Behind an argument of a command that has more of them. -/
  | between (name : Text) (whole : List Text)
  /-- In a verbatim environment, behind so many characters of its end. -/
  | verbatim (matched : Nat)
  deriving DecidableEq, Repr

/-- The commands found so far, the last one first, and where the reader stands. -/
structure Scan where
  found : List Command := []
  place : Place := .text
  deriving DecidableEq, Repr

/-- How many arguments the reader looks for behind the name of a command. -/
def arity (name : Text) : Nat :=
  if name = "begin".toList ∨ name = "end".toList then 1
  else if name = "setcounter".toList then 2
  else 0

def command? (name : Text) : List Text → Option Command
  | [argument] =>
    if name = "begin".toList then some (.begins argument)
    else if name = "end".toList then some (.ends argument)
    else none
  | [counter, value] =>
    if name = "setcounter".toList then some (.sets counter (Nat.ofDigitChars 10 value 0)) else none
  | _ => none

def verbatim : Text := "verbatim".toList

/-- What a verbatim environment goes on to. -/
def verbatimEnd : Text := "\\end\x7b".toList ++ verbatim ++ ['\x7d']

namespace Scan

variable {s : Scan}

def find (s : Scan) (c : Command) : Scan where
  found := c :: s.found
  place := if c = .begins verbatim then .verbatim 0 else .text

/-- Outside of commands nothing but a backslash counts. -/
def inText (s : Scan) (c : Char) : Scan := { s with place := if c = '\\' then .slash else .text }

/-- One character more. -/
def step (s : Scan) (c : Char) : Scan :=
  match s.place with
  | .text => s.inText c
  | .slash => { s with place := if c.isAlpha then .name [c] else .text }
  | .name letters =>
    if c.isAlpha then { s with place := .name (letters ++ [c]) }
    else if c = '\x7b' ∧ 0 < arity letters then { s with place := .argument letters [] [] }
    else (if letters = "item".toList then s.find .item else s).inText c
  | .argument name whole begun =>
    if c ≠ '\x7d' then { s with place := .argument name whole (begun ++ [c]) }
    else if whole.length + 1 < arity name then { s with place := .between name (whole ++ [begun]) }
    else
      match command? name (whole ++ [begun]) with
      | some command => s.find command
      | none => { s with place := .text }
  | .between name whole => if c = '\x7b' then { s with place := .argument name whole [] } else s.inText c
  | .verbatim matched =>
    if verbatimEnd[matched]? = some c then
      if matched + 1 = verbatimEnd.length then s.find (.ends verbatim)
      else { s with place := .verbatim (matched + 1) }
    else { s with place := .verbatim (if c = '\\' then 1 else 0) }

end Scan

/-- The commands of a page, in their order. -/
def commands (page : Text) : List Command := (page.foldl Scan.step {}).found.reverse

example : commands ("\\begin\x7bverbatim\x7d\n\\item\n\\end\x7bverbatim\x7d\n".toList ++
    "\\setcounter\x7bi\x7d\x7b12\x7d \\item \\emph\x7ba\x7d".toList) =
      [.begins verbatim, .ends verbatim, .sets ['i'] 12, .item] := by decide +kernel

/-! ## What the reader passes over -/

variable {f : Format} {t : Text} {c : Char}

def recorder : Recorder Command where
  State := Scan
  step := Scan.step
  text found := ⟨found, .text⟩

theorem finds_iff {cs : List Command} :
    recorder.Finds t cs ↔ ∀ found, t.foldl Scan.step ⟨found, .text⟩ = ⟨cs.reverse ++ found, .text⟩ := Iff.rfl

/-- The name of a command that does not count. -/
def isMacro (name : Text) : Bool :=
  !name.isEmpty && name.all Char.isAlpha && arity name == 0 && name != "item".toList

theorem foldl_name {letters name : Text} (h : name.all Char.isAlpha = true) (found : List Command) :
    name.foldl Scan.step ⟨found, .name letters⟩ = ⟨found, .name (letters ++ name)⟩ := by
  induction name generalizing letters with
  | nil =>
    rw [List.append_nil]
    rfl
  | cons c name ih =>
    obtain ⟨hc, hname⟩ := Bool.and_eq_true_iff.mp h
    have hstep : Scan.step ⟨found, .name letters⟩ c = ⟨found, .name (letters ++ [c])⟩ := by
      simp [Scan.step, hc]
    rw [List.foldl_cons, hstep, ih hname, List.append_assoc]
    rfl

/-- Behind the name of a macro the reader goes on as in text. -/
theorem finds_macro {name : Text} {cs : List Command} (hname : isMacro name = true) (hc : c.isAlpha = false)
    (h : recorder.Finds (c :: t) cs) : recorder.Finds ('\\' :: name ++ c :: t) cs := by
  simp only [isMacro, Bool.and_eq_true, bne_iff_ne, beq_iff_eq] at hname
  obtain ⟨⟨⟨hne, hletters⟩, harity⟩, hitem⟩ := hname
  cases name with
  | nil => cases hne
  | cons d name =>
    obtain ⟨hd, hletters⟩ := Bool.and_eq_true_iff.mp hletters
    refine finds_iff.mpr fun found => ?_
    have hback : Scan.step ⟨found, .text⟩ '\\' = ⟨found, .slash⟩ := rfl
    have hfirst : Scan.step ⟨found, .slash⟩ d = ⟨found, .name [d]⟩ := by simp [Scan.step, hd]
    have hbehind : Scan.step ⟨found, .name (d :: name)⟩ c = Scan.step ⟨found, .text⟩ c := by
      have hbrace : ¬(c = '\x7b' ∧ 0 < arity (d :: name)) := fun h => Nat.ne_of_gt h.2 harity
      unfold Scan.step
      dsimp only
      rw [hc, if_neg Bool.false_ne_true, if_neg hbrace, if_neg hitem]
      rfl
    have htext := finds_iff.mp h found
    rw [List.foldl_cons, ← hbehind] at htext
    rw [List.cons_append, List.cons_append, List.foldl_cons, List.foldl_cons, List.foldl_append, hback, hfirst,
      foldl_name hletters, List.foldl_cons]
    exact htext

theorem passes_recorder : recorder.Passes where
  char c hc found := by simp [recorder, Scan.step, Scan.inText, hc]
  control c _ hc found := by simp [recorder, Scan.step, Scan.inText, hc]
  named name hname c t cs hc h := by
    have hmacros : ∀ name ∈ macros, isMacro name = true := by decide
    exact finds_macro (hmacros name hname) hc h
  broken _ := ⟨⟨rfl, rfl⟩, rfl, fun _ _ => rfl⟩

/-! ## Arguments -/

theorem foldl_argument {name done : Text} {whole : List Text} (ht : '\x7d' ∉ t) (found : List Command) :
    t.foldl Scan.step ⟨found, .argument name whole done⟩ = ⟨found, .argument name whole (done ++ t)⟩ := by
  induction t generalizing done with
  | nil => rw [List.append_nil]; rfl
  | cons c t ih =>
    obtain ⟨hc, ht⟩ : '\x7d' ≠ c ∧ '\x7d' ∉ t := by simpa using ht
    have hstep : Scan.step ⟨found, .argument name whole done⟩ c = ⟨found, .argument name whole (done ++ [c])⟩ := by
      simp [Scan.step, Ne.symm hc]
    rw [List.foldl_cons, hstep, ih ht, List.append_assoc]
    rfl

/-- An environment begins, and its text is read as text. -/
theorem finds_beginning {name : Text} (hname : '\x7d' ∉ name) (hverbatim : name ≠ verbatim) :
    recorder.Finds ("\\begin\x7b".toList ++ name ++ ['\x7d']) [.begins name] := by
  refine finds_iff.mpr fun found => ?_
  have hcommand : "\\begin\x7b".toList.foldl Scan.step ⟨found, .text⟩ = ⟨found, .argument "begin".toList [] []⟩ := rfl
  have hclose : Scan.step ⟨found, .argument "begin".toList [] name⟩ '\x7d' = ⟨.begins name :: found, .text⟩ := by
    have hbegins : Command.begins name ≠ .begins verbatim := fun h => hverbatim (Command.begins.inj h)
    show Scan.find _ (.begins name) = _
    rw [Scan.find, if_neg hbegins]
  rw [List.foldl_append, List.foldl_append, hcommand, foldl_argument hname, List.nil_append, List.foldl_cons, hclose]
  rfl

theorem finds_ending {name : Text} (hname : '\x7d' ∉ name) :
    recorder.Finds ("\\end\x7b".toList ++ name ++ ['\x7d']) [.ends name] := by
  refine finds_iff.mpr fun found => ?_
  have hcommand : "\\end\x7b".toList.foldl Scan.step ⟨found, .text⟩ = ⟨found, .argument "end".toList [] []⟩ := rfl
  have hclose : Scan.step ⟨found, .argument "end".toList [] name⟩ '\x7d' = ⟨.ends name :: found, .text⟩ := rfl
  rw [List.foldl_append, List.foldl_append, hcommand, foldl_argument hname, List.nil_append, List.foldl_cons, hclose]
  rfl

/-- A counter is set to the number that its command has. -/
theorem finds_setCounter {depth : Nat} {name : Text} (hname : counter? depth = some name) (n : Nat) :
    recorder.Finds ("\\setcounter\x7b".toList ++ name ++ "\x7d\x7b".toList ++ Text.ofNat n ++ ['\x7d']) [.sets name n] := by
  have hclosed : '\x7d' ∉ name := by
    unfold counter? at hname
    split at hname <;> cases hname <;> decide
  have hdigits : '\x7d' ∉ Text.ofNat n := fun h =>
    absurd (Nat.isDigit_of_mem_toDigits (by decide) (by decide) h) (by decide)
  have hvalue : Nat.ofDigitChars 10 (Text.ofNat n) 0 = n := Nat.ofDigitChars_toDigits (by decide) (by decide)
  refine finds_iff.mpr fun found => ?_
  have hcommand : "\\setcounter\x7b".toList.foldl Scan.step ⟨found, .text⟩ =
      ⟨found, .argument "setcounter".toList [] []⟩ := rfl
  have hbetween : "\x7d\x7b".toList.foldl Scan.step ⟨found, .argument "setcounter".toList [] name⟩ =
      ⟨found, .argument "setcounter".toList [name] []⟩ := rfl
  have hclose : ∀ digits, ['\x7d'].foldl Scan.step ⟨found, .argument "setcounter".toList [name] digits⟩ =
      ⟨.sets name (Nat.ofDigitChars 10 digits 0) :: found, .text⟩ := fun _ => rfl
  rw [List.foldl_append, List.foldl_append, List.foldl_append, List.foldl_append, hcommand, foldl_argument hclosed,
    List.nil_append, hbetween, foldl_argument hdigits, List.nil_append, hclose, hvalue]
  rfl

/-! ## Code -/

/-- The reader does not leave a verbatim environment where its end does not stand. -/
theorem foldl_verbatim {done : Text} {matched : Nat} (hmatched : verbatimEnd.take matched <:+ done)
    (h : ¬verbatimEnd <:+: done ++ t) (found : List Command) :
    ∃ m, t.foldl Scan.step ⟨found, .verbatim matched⟩ = ⟨found, .verbatim m⟩ := by
  -- along the text, what is matched is a suffix of what is read, so all of the end is never matched
  induction t generalizing done matched with
  | nil => exact ⟨matched, rfl⟩
  | cons c t ih =>
    rw [List.append_cons] at h
    by_cases hc : verbatimEnd[matched]? = some c
    · have htake : verbatimEnd.take (matched + 1) <:+ done ++ [c] := by
        obtain ⟨before, rfl⟩ := hmatched
        refine ⟨before, ?_⟩
        rw [List.take_add_one, hc, List.append_assoc]
        rfl
      have hmore : matched + 1 ≠ verbatimEnd.length := by
        intro hall
        rw [hall, List.take_length] at htake
        exact h (htake.isInfix.trans (List.infix_append [] _ _))
      have hstep : Scan.step ⟨found, .verbatim matched⟩ c = ⟨found, .verbatim (matched + 1)⟩ := by
        simp [Scan.step, hc, hmore]
      rw [List.foldl_cons, hstep]
      exact ih htake h
    · have hstep : Scan.step ⟨found, .verbatim matched⟩ c = ⟨found, .verbatim (if c = '\\' then 1 else 0)⟩ := by
        simp [Scan.step, hc]
      rw [List.foldl_cons, hstep]
      refine ih ?_ h
      split
      · rename_i hback
        rw [hback]
        exact List.suffix_append done ['\\']
      · exact List.nil_suffix

theorem step_newline (found : List Command) (matched : Nat) :
    Scan.step ⟨found, .verbatim matched⟩ '\n' = ⟨found, .verbatim 0⟩ := by
  have hline : verbatimEnd[matched]? ≠ some '\n' := fun h => absurd (List.mem_of_getElem? h) (by decide)
  simp [Scan.step, hline]

/-- Behind a line break nothing of the end of a verbatim environment is read. -/
theorem matched_of_newline {s : Scan} {found : List Command} {matched : Nat}
    (h : s.step '\n' = ⟨found, .verbatim matched⟩) : matched = 0 := by
  obtain ⟨before, place⟩ := s
  cases place with
  | verbatim m =>
    rw [step_newline] at h
    cases h
    rfl
  | _ => simp [Scan.step, Scan.inText] at h

/-- A code block is one verbatim environment. -/
theorem tells_codeBlock (h : ¬verbatimEnd <:+: t) :
    recorder.Tells f [.lineBreak, beginning verbatim, .lineBreak, lit t, .lineBreak, ending verbatim, .blankLine]
      [.begins verbatim, .ends verbatim] := by
  refine passes_recorder.tells_codeBlock fun found => ?_
  have hstart : verbatimEnd.take 0 <:+ [] := List.suffix_refl _
  obtain ⟨m, hm⟩ := foldl_verbatim hstart h (.begins verbatim :: found)
  have hcalm : Calm recorder.read ⟨.begins verbatim :: found, .verbatim 0⟩ := ⟨rfl, rfl⟩
  have hturn : Turns recorder.read ⟨.begins verbatim :: found, .verbatim m⟩ ⟨.begins verbatim :: found, .verbatim 0⟩ := by
    refine ⟨hcalm, congrArg some (step_newline _ m), fun s hs => ?_⟩
    rw [matched_of_newline (Option.some.inj hs)]
  exact ⟨⟨.begins verbatim :: found, .verbatim 0⟩, _, rfl, hcalm, hm ▸ hturn, rfl⟩

/-! ## Nodes and their commands -/

variable {o : Options} {width : Nat} {s : Site}

/-- The command by which a list sets its counter. -/
def setCommand (s : Site) (style : ListStyle) : List Command :=
  if style.kind = .ordered ∧ 1 < style.start then
    ((counter? (enumDepth s)).map fun name => .sets name (style.start - 1)).toList
  else []

def enterCommands (s : Site) : List Command :=
  match s.content with
  | .blockQuote => [.begins "quote".toList]
  | .list style => .begins (environmentOf style) :: setCommand s style
  | .item => [.item]
  | .codeBlock _ _ => [.begins verbatim, .ends verbatim]
  | .thematicBreak => [.begins "center".toList, .ends "center".toList]
  | _ => []

def exitCommands (s : Site) : List Command :=
  match s.content with
  | .blockQuote => [.ends "quote".toList]
  | .list style => [.ends (environmentOf style)]
  | _ => []

/-- The commands that a node writes, in front of those below it and behind them. -/
def commandVisitor : Visitor Command where
  enter := enterCommands
  exit := exitCommands
  descends s := s.kind != .image && !(s.kind == .link && linkKind s == .url)

/-- A node that writes no commands by hand: no custom text of it has a backslash, and no code the end of its
environment. -/
structure Quiet (n : Node) : Prop where
  custom : ∀ onEnter onExit, n.content = .customBlock onEnter onExit ∨ n.content = .customInline onEnter onExit →
    '\\' ∉ onEnter ∧ '\\' ∉ onExit
  code : ∀ info literal, n.content = .codeBlock info literal → ¬verbatimEnd <:+: literal

theorem brace_notMem_environmentOf (style : ListStyle) : '\x7d' ∉ environmentOf style := by
  unfold environmentOf
  cases style.kind <;> decide

theorem environmentOf_ne_verbatim (style : ListStyle) : environmentOf style ≠ verbatim := by
  unfold environmentOf
  cases style.kind <;> decide

theorem finds_rule : recorder.Finds rule [.begins "center".toList, .ends "center".toList] := by
  have hbegin : recorder.Finds ("\\begin\x7b".toList ++ "center".toList ++ ['\x7d']) [.begins "center".toList] :=
    finds_beginning (by decide) (by decide)
  have hline : recorder.Finds "\\rule\x7b0.5\\linewidth\x7d\x7b\\linethickness\x7d".toList [] := fun _ => rfl
  have hend : recorder.Finds ("\\end\x7b".toList ++ "center".toList ++ ['\x7d']) [.ends "center".toList] :=
    finds_ending (by decide)
  exact (hbegin.append hline).append hend

theorem tells_enterList (s : Site) (style : ListStyle) :
    recorder.Tells f (enterList s style) (.begins (environmentOf style) :: setCommand s style) := by
  have hbegin : recorder.Tells f [beginning (environmentOf style), .lineBreak] [.begins (environmentOf style)] :=
    (passes_recorder.literal
      (finds_beginning (brace_notMem_environmentOf style) (environmentOf_ne_verbatim style))).line
  have hset : recorder.Tells f (if style.kind = .ordered ∧ 1 < style.start then
      setCounter (enumDepth s) style.start ++ [.lineBreak] else []) (setCommand s style) := by
    unfold setCommand
    by_cases hset : style.kind = .ordered ∧ 1 < style.start
    · rw [if_pos hset, if_pos hset]
      refine Recorder.Tells.line ?_
      unfold setCounter
      cases hname : counter? (enumDepth s) with
      | none => exact Recorder.tells_nil
      | some name => exact passes_recorder.literal (finds_setCounter hname _)
    · rw [if_neg hset, if_neg hset]
      exact Recorder.tells_nil
  exact hbegin.append hset

theorem tells_enter (hescape : f.escape = escapeChar) (h : Quiet s.node) :
    recorder.Tells f (enter o width s) (enterCommands s) := by
  have hplain : isRecorded s.kind = false → recorder.Tells f (enter o width s) [] :=
    passes_recorder.tells_enter hescape
  unfold enterCommands
  cases hcontent : s.content with
  | blockQuote =>
    rw [enter, hcontent]
    exact (passes_recorder.literal (finds_beginning (by decide) (by decide))).line
  | list style =>
    rw [enter, hcontent]
    exact tells_enterList s style
  | item =>
    rw [enter, hcontent]
    have hitem : recorder.Finds "\\item ".toList [.item] := fun _ => rfl
    exact passes_recorder.literal hitem
  | codeBlock info literal =>
    rw [enter, hcontent]
    exact tells_codeBlock (h.code info literal hcontent)
  | customBlock onEnter onExit =>
    rw [enter, hcontent]
    have hcustom := (h.custom onEnter onExit (Or.inl hcontent)).1
    exact Recorder.tells_lineBreak.append (passes_recorder.literal (passes_recorder.notMem hcustom)).line
  | thematicBreak =>
    rw [enter, hcontent]
    exact Recorder.tells_blankLine.append (passes_recorder.literal finds_rule).block
  | customInline onEnter onExit =>
    rw [enter, hcontent]
    exact passes_recorder.literal (passes_recorder.notMem (h.custom onEnter onExit (Or.inr hcontent)).1)
  | _ => exact hplain (by rw [Site.kind, Node.kind, ← Site.content, hcontent]; rfl)

theorem tells_exit (h : Quiet s.node) : recorder.Tells f (exit s) (exitCommands s) := by
  have hplain : isRecorded s.kind = false → recorder.Tells f (exit s) [] := passes_recorder.tells_exit
  unfold exitCommands
  cases hcontent : s.content with
  | blockQuote =>
    rw [exit, hcontent]
    exact (passes_recorder.literal (finds_ending (by decide))).block
  | list style =>
    rw [exit, hcontent]
    exact (passes_recorder.literal (finds_ending (brace_notMem_environmentOf style))).block
  | item =>
    rw [exit, hcontent]
    exact Recorder.tells_lineBreak
  | customBlock onEnter onExit =>
    rw [exit, hcontent]
    have hcustom := (h.custom onEnter onExit (Or.inl hcontent)).2
    exact Recorder.tells_lineBreak.append (passes_recorder.literal (passes_recorder.notMem hcustom)).line
  | customInline onEnter onExit =>
    rw [exit, hcontent]
    exact passes_recorder.literal (passes_recorder.notMem (h.custom onEnter onExit (Or.inr hcontent)).2)
  | codeBlock | thematicBreak =>
    rw [exit, hcontent]
    exact Recorder.tells_nil
  | _ => exact hplain (by rw [Site.kind, Node.kind, ← Site.content, hcontent]; rfl)

theorem matches_commandVisitor (hescape : f.escape = escapeChar) :
    recorder.Matches f o width Quiet commandVisitor where
  enter _ := tells_enter hescape
  exit _ := tells_exit
  descends _ := rfl

/-- The reader finds the commands of the nodes in a page, if none of them is written by hand. -/
theorem commands_render (h : ∀ n ∈ s.tree.alone.nodes, Quiet n) (o : Options) (width : Nat) :
    commands (render o width s) = s.visit commandVisitor := by
  have hread : (render o width s).foldl Scan.step {} = ⟨(s.visit commandVisitor).reverse, .text⟩ :=
    (matches_commandVisitor rfl).render passes_recorder h
  rw [commands, hread, List.reverse_reverse]

end Latex

end MarkupTree
