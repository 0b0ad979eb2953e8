-- Ranges inside ranges. Where the range of each construct holds the ranges of
-- what stands in it, each passage stands inside the one around it. Only a
-- paragraph that no event started can fall short of its last inline.
import MarkupTree.Proofs.Event.Places
import MarkupTree.Proofs.Event.Ranges
import MarkupTree.Proofs.Source.Positions

namespace MarkupTree

/-! ## Nested ranges -/

namespace Outline

/-- Whether the ranges stand one after the other between `lo` and `hi`, those
inside a construct between its start and its finish. -/
def nests (lo hi : Nat) : Outline → Bool
  | .nil => true
  | .leaf start stop _ next => lo ≤ start && start ≤ stop && stop ≤ hi && next.nests stop hi
  | .enclose _ start stop _ finishStop inside next =>
    lo ≤ start && start ≤ stop && stop ≤ finishStop && finishStop ≤ hi &&
      inside.nests start finishStop && next.nests finishStop hi

/-- Whether the first event is one of an inline. -/
def beginsInline : Outline → Bool
  | .nil => false
  | .leaf _ _ event _ => event.isInline
  | .enclose tag _ _ _ _ _ _ => tag.isInline

/-- Whether each range holds a byte that is no line ending. The range of a
break need not if an inline follows, nor that of a text which a block gathers. -/
def shows (s : Source) (p : Place) : Outline → Bool
  | .nil => true
  | .leaf start stop event next =>
    (p = .codeText || p = .htmlText || s.Shows start stop ||
      ((event = .softBreak || event = .hardBreak) && next.beginsInline)) && next.shows s p
  | .enclose tag start stop _ _ inside next =>
    s.Shows start stop && inside.shows s tag.place && next.shows s p

end Outline

/-! ## Rows of passages -/

namespace Passage

/-- The passage holds a byte that is no line ending, an inline up to its reach. -/
def Shown (s : Source) (p : Passage) : Prop :=
  s.Shows p.start p.stop ∧ (p.isInline = true → s.Shows p.start p.reach)

/-- The passage stands between `lo` and `hi`, but for line endings at its end. -/
structure Within (s : Source) (lo hi : Nat) (p : Passage) : Prop where
  start : lo ≤ p.start
  stop : ∀ i < p.stop, s.inked i = true → i < hi
  shows : s.Shows p.start hi

/-- Where nothing but line endings stands from `mid` to `hi`, `mid` will do. -/
theorem Within.shrink {s : Source} {lo mid hi : Nat} {p : Passage} (h : p.Within s lo hi)
    (hmid : ¬ s.Shows mid hi) : p.Within s lo mid := by
  have hbefore : ∀ i < hi, s.inked i = true → i < mid := by
    intro i hi hinked
    by_contra hle
    exact hmid ⟨i, hi, Nat.le_of_not_lt hle, hinked⟩
  refine ⟨h.start, fun i hi hinked => hbefore i (h.stop i hi hinked) hinked, ?_⟩
  obtain ⟨i, hi, hle, hinked⟩ := h.shows
  exact ⟨i, hbefore i hi hinked, hle, hinked⟩

end Passage

namespace Rose

/-- The passages stand one after the other between `lo` and `hi`. -/
structure Laid (s : Source) (lo hi : Nat) (row : List (Rose Passage)) : Prop where
  ordered : row.Pairwise fun q r => q.label.stop ≤ r.label.start
  bounds : ∀ r ∈ row, lo ≤ r.label.start ∧ r.label.start ≤ r.label.stop ∧ r.label.stop ≤ hi
  reach : ∀ r ∈ row, r.label.isInline = true → r.label.reach ≤ r.label.stop
  /-- A passage may hold nothing but line endings if an inline follows. -/
  shown : ∀ before r after, row = before ++ r :: after →
    r.label.Shown s ∨ ∃ q ∈ after.head?, q.label.isInline = true

namespace Laid

variable {s : Source} {lo hi : Nat} {row : List (Rose Passage)} {r : Rose Passage}

theorem nil (s : Source) (lo hi : Nat) : Laid s lo hi [] :=
  ⟨.nil, by simp, by simp, by simp⟩

theorem cons (h : Laid s r.label.stop hi row) (hlo : lo ≤ r.label.start)
    (hforward : r.label.start ≤ r.label.stop) (hhi : r.label.stop ≤ hi)
    (hreach : r.label.isInline = true → r.label.reach ≤ r.label.stop)
    (hshown : r.label.Shown s ∨ ∃ q ∈ row.head?, q.label.isInline = true) :
    Laid s lo hi (r :: row) where
  ordered := List.pairwise_cons.mpr ⟨fun q hq => (h.bounds q hq).1, h.ordered⟩
  bounds := List.forall_mem_cons.mpr ⟨⟨hlo, hforward, hhi⟩, fun q hq =>
    ⟨(hlo.trans hforward).trans (h.bounds q hq).1, (h.bounds q hq).2⟩⟩
  reach := List.forall_mem_cons.mpr ⟨hreach, h.reach⟩
  shown := by
    intro before q after heq
    cases before with
    | nil =>
      obtain ⟨rfl, rfl⟩ := List.cons.inj heq
      exact hshown
    | cons p before => exact h.shown before q after (List.cons.inj heq).2

/-- From each passage on, some passage shows more than line endings. -/
theorem exists_shown (h : Laid s lo hi row) (before after : List (Rose Passage))
    (heq : row = before ++ r :: after) :
    ∃ d ∈ r :: after, r.label.start ≤ d.label.start ∧ d.label.Shown s := by
  induction after generalizing before r with
  | nil =>
    rcases h.shown before r [] heq with hr | ⟨q, hq, -⟩
    · exact ⟨r, List.mem_cons_self, Nat.le_refl _, hr⟩
    · cases hq
  | cons q after ih =>
    rcases h.shown before r (q :: after) heq with hr | -
    · exact ⟨r, List.mem_cons_self, Nat.le_refl _, hr⟩
    · obtain ⟨d, hd, hle, hshown⟩ := ih (r := q) (before ++ [r]) (by simp [heq])
      have hordered := h.ordered
      rw [heq] at hordered
      have hnext : r.label.stop ≤ q.label.start :=
        (List.pairwise_cons.mp (List.pairwise_append.mp hordered).2.1).1 q List.mem_cons_self
      have hforward := (h.bounds r (by simp [heq])).2.1
      exact ⟨d, List.mem_cons_of_mem _ hd, by omega, hshown⟩

theorem within (h : Laid s lo hi row) : ∀ r ∈ row, r.label.Within s lo hi := by
  intro r hr
  obtain ⟨before, after, heq⟩ := List.append_of_mem hr
  obtain ⟨d, hd, hle, hshown⟩ := h.exists_shown before after heq
  obtain ⟨hlo, -, hhi⟩ := h.bounds r hr
  exact ⟨hlo, fun i hi _ => by omega,
    hshown.1.mono hle (h.bounds d (by rw [heq]; exact List.mem_append_right _ hd)).2.2⟩

/-- The last passage shows more than line endings. -/
theorem shown_getLast (h : Laid s lo hi row) (hr : row.getLast? = some r) : r.label.Shown s := by
  obtain ⟨before, rfl⟩ := List.getLast?_eq_some_iff.mp hr
  rcases h.shown before r [] rfl with hr | ⟨q, hq, -⟩
  · exact hr
  · cases hq

/-- The inlines of a run stand between the start of the first and the end of
the last. -/
theorem ofRun {q : Rose Passage} {qs : List (Rose Passage)} (h : Laid s lo hi row)
    (hrun : IsRun row (q :: qs)) (hr : (q :: qs).getLast? = some r) :
    Laid s q.label.start r.label.stop (q :: qs) := by
  have hsub := hrun.sublist.subset
  have hordered := h.ordered.sublist hrun.sublist
  refine ⟨hordered, fun c hc => ?_, fun c hc => h.reach c (hsub hc), fun before c after heq => ?_⟩
  · have hforward := fun p hp => (h.bounds p (hsub hp)).2.1
    refine ⟨?_, hforward c hc, ?_⟩
    · rcases List.mem_cons.mp hc with rfl | hc
      · exact Nat.le_refl _
      · exact (hforward q List.mem_cons_self).trans ((List.pairwise_cons.mp hordered).1 c hc)
    · obtain ⟨before, hbefore⟩ := List.getLast?_eq_some_iff.mp hr
      rw [hbefore] at hc hordered
      rcases List.mem_append.mp hc with hc | hc
      · have hle := (List.pairwise_append.mp hordered).2.2 c hc r List.mem_cons_self
        exact hle.trans (hforward r (List.mem_of_getLast? hr))
      · rw [List.mem_singleton.mp hc]
  · obtain ⟨outside, rest, hrow, hrest⟩ := hrun.within
    rcases h.shown (outside ++ before) c (after ++ rest) (by simp [hrow, heq]) with hc | ⟨p, hp, hin⟩
    · exact Or.inl hc
    · cases after with
      | nil =>
        rw [hrest p hp] at hin
        cases hin
      | cons d after => exact Or.inr ⟨p, hp, hin⟩

end Laid

/-! ## Passages inside passages -/

/-- What stands in the passage is inside its range. Of a paragraph that no event
started, this is so if its last inline ends with the last inline in it. -/
structure Nested (s : Source) (r : Rose Passage) : Prop where
  explicit : r.label.implied = false →
    ∀ c ∈ r.children, c.label.Within s r.label.start r.label.stop
  implied : r.label.implied = true → ∃ q, r.children.getLast? = some q ∧
    r.label.start ≤ q.label.start ∧ r.label.stop = q.label.reach ∧
      s.Shows q.label.start q.label.reach ∧ q.label.reach ≤ q.label.stop ∧
        (¬ s.Shows q.label.reach q.label.stop →
          ∀ c ∈ r.children, c.label.Within s r.label.start r.label.stop)

theorem Laid.paragraph {s : Source} {lo hi : Nat} {row qs : List (Rose Passage)} {q : Rose Passage}
    (h : Laid s lo hi row) (hrun : IsRun row (q :: qs)) :
    Nested s (.node (.ofInlines q.label.start (reachOf q.label.reach (q :: qs))) (q :: qs)) := by
  obtain ⟨r, hr⟩ : ∃ r, (q :: qs).getLast? = some r :=
    ⟨_, List.getLast?_eq_some_getLast (List.cons_ne_nil q qs)⟩
  have hlaid := h.ofRun hrun hr
  have hmem := List.mem_of_getLast? hr
  have hshows := (hlaid.shown_getLast hr).2 (hrun.inlines r hmem)
  have hstart := (hlaid.bounds r hmem).1
  have hle : r.label.start ≤ r.label.reach := by
    obtain ⟨i, hi, hle, -⟩ := hshows
    omega
  have hreach : reachOf q.label.reach (q :: qs) = r.label.reach := by
    rw [reachOf, hr]
    rfl
  rw [hreach]
  have hstop : (Passage.ofInlines q.label.start r.label.reach).stop = r.label.reach :=
    Nat.max_eq_left (hstart.trans hle)
  refine ⟨fun h => absurd h.symm Bool.false_ne_true, fun _ => ⟨r, hr, hstart, hstop, hshows, hlaid.reach r hmem (hrun.inlines r hmem), ?_⟩⟩
  intro hend c hc
  rw [label, hstop]
  exact (hlaid.within c hc).shrink hend

/-- A paragraph around a run stands where the row does. -/
theorem Laid.within_gather {s : Source} {lo hi : Nat} {row : List (Rose Passage)}
    (h : Laid s lo hi row) : ∀ r ∈ gather [] row, r.label.Within s lo hi := by
  intro r hr
  rcases mem_gather (by simp) hr with ⟨hr, -⟩ | ⟨qs, hrun, hr⟩
  · exact h.within r hr
  · cases qs with
    | nil => cases hr
    | cons q qs =>
      rw [List.nil_append] at hrun
      obtain ⟨d, hd, -, hstop, -, hreach, -⟩ := (h.paragraph hrun).implied rfl
      rw [List.mem_singleton.mp hr]
      have hq := h.within q (hrun.sublist.subset List.mem_cons_self)
      have hhi := (h.bounds d (hrun.sublist.subset (List.mem_of_getLast? hd))).2.2
      refine ⟨hq.start, fun i hi _ => ?_, hq.shows⟩
      exact ((hi.trans_eq hstop).trans_le hreach).trans_le hhi

end Rose

namespace Outline

variable {s : Source} {p : Place} {o : Outline}

theorem plan_of_inline {e : Event} (h : e.isInline = true) :
    ∃ c, e.plan = [.node c []] ∧ c.kind.isInline = true := by
  cases e <;> first | exact ⟨_, rfl, rfl⟩ | cases h

theorem plan_of_takesEvent {e : Event} (h : p.takesEvent e = true) :
    ∃ c, e.plan = [.node c []] := by
  cases e with
  | start | finish | math | footnoteReference | taskMarker => cases p <;> cases h
  | _ => exact ⟨_, rfl⟩

theorem kind_enclose {tag : Tag} {start : Nat} {t : Text} {loose : Bool} :
    (((tag.content s start).taking t).loosenIf loose).kind = tag.kind := by
  rw [Content.kind_loosenIf, Content.kind_taking, tag.kind_content]

/-- A construct has a node of inline kind, wherever it stands, if it is one of inlines. -/
theorem isInline_kind {tag : Tag} (h : tag.isInline = true) : tag.kind.isInline = true := by
  cases tag <;> first | rfl | cases h

theorem head?_of_beginsInline (h : o.beginsInline = true) :
    ∃ q ∈ (o.passages s).head?, q.label.isInline = true := by
  cases o with
  | nil => cases h
  | leaf start stop event next =>
    obtain ⟨c, hc, hin⟩ := plan_of_inline h
    rw [passages, hc]
    exact ⟨_, rfl, hin⟩
  | enclose tag start stop finishStart finishStop inside next =>
    exact ⟨_, rfl, (congrArg Kind.isInline kind_enclose).trans (isInline_kind h)⟩

theorem inlines_of_fits (h : o.fits .inlines = true) :
    ∀ r ∈ o.passages s, r.label.isInline = true := by
  induction o with
  | nil => exact fun r hr => absurd hr List.not_mem_nil
  | leaf start stop event next ih =>
    obtain ⟨he, hnext⟩ := Bool.and_eq_true_iff.mp h
    obtain ⟨c, hc, hin⟩ := plan_of_inline he
    rw [passages, hc]
    exact List.forall_mem_cons.mpr ⟨hin, ih hnext⟩
  | enclose tag start stop finishStart finishStop inside next _ ih =>
    obtain ⟨hboth, hnext⟩ := Bool.and_eq_true_iff.mp h
    have htag := (Bool.and_eq_true_iff.mp hboth).1
    exact List.forall_mem_cons.mpr
      ⟨(congrArg Kind.isInline kind_enclose).trans (isInline_kind htag), ih hnext⟩

/-- An inline reaches to the end of the last inline in it. -/
theorem reach_of_laid {lo hi stop : Nat} {row : List (Rose Passage)} (h : Rose.Laid s lo hi row)
    (hrow : ∀ r ∈ row, r.label.isInline = true) (hstop : stop ≤ hi) (hs : s.Shows lo stop) :
    Rose.reachOf stop row ≤ hi ∧ s.Shows lo (Rose.reachOf stop row) := by
  rcases hlast : row.getLast? with _ | r
  · rw [Rose.reachOf, hlast]
    exact ⟨hstop, hs⟩
  · have hr := List.mem_of_getLast? hlast
    obtain ⟨hlo, -, hhi⟩ := h.bounds r hr
    rw [Rose.reachOf, hlast]
    exact ⟨(h.reach r hr (hrow r hr)).trans hhi,
      ((h.shown_getLast hlast).2 (hrow r hr)).mono hlo (Nat.le_refl _)⟩

/-- The passages of nested ranges stand one after the other. -/
theorem laid_passages {lo hi : Nat} (ho : o.fits p = true) (hn : o.nests lo hi = true)
    (hs : o.shows s p = true) (hp : p ≠ .codeText ∧ p ≠ .htmlText) :
    Rose.Laid s lo hi (o.passages s) := by
  induction o generalizing p lo hi with
  | nil => exact Rose.Laid.nil s lo hi
  | leaf start stop event next ih =>
    simp only [fits, nests, shows, Bool.and_eq_true, Bool.or_eq_true, decide_eq_true_eq] at ho hn hs
    obtain ⟨c, hc⟩ := plan_of_takesEvent ho.1
    rw [passages, hc]
    refine (ih ho.2 hn.2 hs.2 hp).cons hn.1.1.1 hn.1.1.2 hn.1.2 (fun _ => Nat.le_refl _) ?_
    rcases hs.1 with ((hplace | hplace) | hshows) | ⟨-, hnext⟩
    · exact absurd hplace hp.1
    · exact absurd hplace hp.2
    · exact Or.inl ⟨hshows, fun _ => hshows⟩
    · exact Or.inr (head?_of_beginsInline hnext)
  | enclose tag start stop finishStart finishStop inside next ihinside ihnext =>
    simp only [fits, nests, shows, Bool.and_eq_true, decide_eq_true_eq] at ho hn hs
    obtain ⟨⟨⟨⟨⟨hlo, hforward⟩, hfinish⟩, hhi⟩, hinside⟩, hnext⟩ := hn
    have hinline : tag.kind.isInline = true →
        Rose.reachOf stop (tag.place.lay [] (inside.passages s)) ≤ finishStop ∧
          s.Shows start (Rose.reachOf stop (tag.place.lay [] (inside.passages s))) := by
      intro htag
      have hplace : tag.place = .inlines := Tag.place_of_inline (by simpa [Kind.isInline] using htag)
      have hin := ho.1.2
      rw [hplace] at hin ⊢
      exact reach_of_laid (ihinside hin hinside (hplace ▸ hs.1.2) (by simp)) (inlines_of_fits hin)
        hfinish hs.1.1
    rw [passages]
    refine (ihnext ho.2 hnext hs.2 hp).cons hlo (hforward.trans hfinish) hhi (fun htag => ?_) ?_
    · exact (hinline ((congrArg Kind.isInline kind_enclose).symm.trans htag)).1
    · refine Or.inl ⟨hs.1.1.mono (Nat.le_refl _) hfinish, fun htag => ?_⟩
      exact (hinline ((congrArg Kind.isInline kind_enclose).symm.trans htag)).2

/-- Where ranges nest, so do the passages. -/
theorem nested_passages {lo hi : Nat} (ho : o.fits p = true) (hn : o.nests lo hi = true)
    (hs : o.shows s p = true) : ∀ r ∈ Rose.subrosesRow (o.passages s), r.Nested s := by
  induction o generalizing p lo hi with
  | nil => exact fun r hr => absurd hr List.not_mem_nil
  | leaf start stop event next ih =>
    simp only [fits, nests, shows, Bool.and_eq_true] at ho hn hs
    rw [passages, Rose.subrosesRow_append]
    refine List.forall_mem_append.mpr ⟨fun r hr => ?_, ih ho.2 hn.2 hs.2⟩
    obtain ⟨c, -, rfl⟩ := mem_subrosesRow_plan hr
    exact ⟨fun _ c hc => absurd hc List.not_mem_nil, fun h => absurd h Bool.false_ne_true⟩
  | enclose tag start stop finishStart finishStop inside next ihinside ihnext =>
    simp only [fits, nests, shows, Bool.and_eq_true, decide_eq_true_eq] at ho hn hs
    have hlaid : tag.place ≠ .codeText ∧ tag.place ≠ .htmlText →
        Rose.Laid s start finishStop (inside.passages s) :=
      laid_passages ho.1.2 hn.1.2 hs.1.2
    rw [passages, Rose.subrosesRow, Rose.subroses]
    refine List.forall_mem_append.mpr
      ⟨List.forall_mem_cons.mpr ⟨⟨fun _ => ?_, fun h => absurd h Bool.false_ne_true⟩, ?_⟩, ihnext ho.2 hn.2 hs.2⟩
    · show ∀ c ∈ tag.place.lay [] (inside.passages s), c.label.Within s start finishStop
      cases hplace : tag.place with
      | mixed => exact (hlaid (by simp [hplace])).within_gather
      | codeText | htmlText => exact fun c hc => absurd hc List.not_mem_nil
      | blocks | items | inlines => exact (hlaid (by simp [hplace])).within
    · refine Rose.forall_lay _ (ihinside ho.1.2 hn.1.2 hs.1.2) fun hplace q qs hrun => ?_
      exact (hlaid (by simp [hplace])).paragraph hrun

end Outline

end MarkupTree
