-- What the slots of an arena carry through any run of edits. The run may begin
-- with the slots of any events, nested or not, so nothing is said of what
-- stands in what. Levels, delimiters and bullets stay in range, and each node
-- keeps its kind and its place in the source. Only the end of a text moves,
-- where normalising joins the texts after it to it.
import MarkupTree.Proofs.Arena.Normalized

namespace MarkupTree

open Document (Edit Grounded Run Beginning)

namespace Arena

/-! ## How nodes come and stay -/

/-- The node as the run first has it: at the beginning, or as it is made. -/
inductive Came (a : Arena) (es : List Edit) : Node → Prop
  | there {n : Node} (h : a.node? n.id = some n) : Came a es n
  | made {k : Kind} (hk : k ≠ .document) {before rest : List Edit} {b : Arena}
    (hes : es = before ++ .create k :: rest) (hb : a.edits before = some b) :
    Came a es { id := b.count, content := .ofKind k }

/-- Normalising joins texts to the text with this number. -/
def Extended (a : Arena) (id : NodeId) : Prop :=
  ∃ b n n' p, Editing.normalize.on a = some (.ok (), b) ∧ a.node? id = some n ∧
    b.node? id = some n' ∧ Siblings.Extends (a.childNodes p) n n'

/-- What is left of the node `m` at the end of a run, as the node `n`. -/
structure Lasts (a : Arena) (es : List Edit) (m n : Node) : Prop where
  id : n.id = m.id
  kind : n.kind = m.kind
  start : n.start = m.start
  stop : n.stop = m.stop ∨ m.isText = true ∧ ∃ before rest b,
    es = before ++ .normalize :: rest ∧ a.edits before = some b ∧ b.Extended m.id

/-- What the nodes of `z` carry, after the run has come to it from `a`. -/
structure Steady (a : Arena) (es : List Edit) (z : Arena) : Prop where
  level : ∀ id n, z.node? id = some n → n.content.IsLevelled
  delimiter : ∀ id n, z.node? id = some n → n.content.IsDelimited
  bullet : ∀ id n, z.node? id = some n → n.content.IsBulleted
  came : ∀ id n, z.node? id = some n → ∃ m, Came a es m ∧ Lasts a es m n
  stays : ∀ m, Came a es m → ∃ n, z.node? m.id = some n ∧ Lasts a es m n

variable {a b z : Arena} {d d' : Document} {e : Edit} {es : List Edit} {m n : Node}

theorem edits_cons (hb : a.after e = some b) (es : List Edit) : a.edits (e :: es) = b.edits es := by
  rw [edits, List.foldlM_cons, hb]
  rfl

theorem Lasts.refl (a : Arena) (es : List Edit) (n : Node) : Lasts a es n n :=
  ⟨rfl, rfl, rfl, Or.inl rfl⟩

theorem Lasts.cons {x : Node} (hb : a.after e = some b) (h : Lasts a [e] m x)
    (h' : Lasts b es x n) : Lasts a (e :: es) m n := by
  refine ⟨h'.id.trans h.id, h'.kind.trans h.kind, h'.start.trans h.start, ?_⟩
  rcases h'.stop with hstop | ⟨ht, before, rest, c, rfl, hc, hx⟩
  · rcases h.stop with hfirst | ⟨hm, before, rest, c, hes, hc, hx⟩
    · exact Or.inl (hstop.trans hfirst)
    · refine Or.inr ⟨hm, before, rest ++ es, c, ?_, hc, hx⟩
      rw [← List.singleton_append, hes]
      simp
  · refine Or.inr ⟨?_, e :: before, rest, c, rfl, (edits_cons hb before).trans hc, h.id ▸ hx⟩
    rwa [Node.isText, ← h.kind]

/-! ## One edit -/

section

variable (h : a.Shows d.chart) (hd : Grounded d)

include h hd

theorem lasts_normalize (hb : b.Shows d.normalize.chart)
    (hrun : Editing.normalize.on a = some (.ok (), b)) (hm : a.node? m.id = some m) :
    ∃ n, b.node? m.id = some n ∧ Lasts a [.normalize] m n := by
  obtain ⟨root, body, rest, ht, -⟩ := hd.exists_root
  have hd' := (Document.grounded_normalize hd).distinct
  have hm' : d.node? m.id = some m := (h.node m.id).symm.trans hm
  have hid : m.id ∈ d.normalize.trees.ids :=
    (Document.ids_normalize ht).symm.subset (Document.mem_ids_of_node? hm')
  obtain ⟨n, hn⟩ := Document.exists_node? hid
  obtain ⟨hmem, hnid⟩ := (Document.node?_eq_some_iff hd').mp hn
  have hnb : b.node? m.id = some n := (hb.node m.id).trans hn
  refine ⟨n, hnb, ?_⟩
  obtain ⟨x, hx, rfl | ⟨r, hr, hextends⟩⟩ := Document.mem_nodes_normalize ht hmem
  · have hxm := Document.node?_of_mem_nodes hd.distinct hx
    rw [hnid, hm', Option.some.injEq] at hxm
    exact hxm ▸ Lasts.refl a [.normalize] m
  · obtain ⟨htext, ms, -, -, -, rfl⟩ := id hextends
    rw [Node.id_withTexts] at hnid
    have hxm := Document.node?_of_mem_nodes hd.distinct hx
    rw [hnid, hm', Option.some.injEq] at hxm
    subst hxm
    refine ⟨Node.id_withTexts m ms, Node.kind_withTexts ms htext, ?_,
      Or.inr ⟨htext, [], [], a, rfl, rfl, b, m, _, r.node.id, hrun, hm, hnb, ?_⟩⟩
    · rw [Node.withTexts_eq ms htext]
    · rwa [h.childNodes_eq hd.distinct, Document.childNodes_of_mem_rows hd.distinct hr]

omit hd in
theorem lasts_set {id : NodeId} {change : Change} (hok : d.set id change = .ok d')
    (hb : b.Shows d'.chart) (hm : a.node? m.id = some m) :
    ∃ n, b.node? m.id = some n ∧ Lasts a [e] m n := by
  obtain ⟨x, content, hx, happly, ht⟩ := Document.set_ok hok
  have hnode := hb.node m.id
  rw [Document.chart_modify (g := fun n => { n with content }) (fun _ => rfl) ht,
    Chart.node?_relabel, ← h.node, hm] at hnode
  by_cases hid : m.id = id
  · subst hid
    rw [if_pos rfl] at hnode
    have hxm : some m = some x := hm.symm.trans ((h.node m.id).trans hx)
    cases hxm
    exact ⟨_, hnode, rfl, Content.kind_apply happly, rfl, Or.inl rfl⟩
  · rw [if_neg hid] at hnode
    exact ⟨m, hnode, Lasts.refl a [e] m⟩

theorem lasts_create {k : Kind} {id : NodeId} (hok : d.create k = .ok (id, d'))
    (hb : b.Shows d'.chart) (hm : a.node? m.id = some m) :
    ∃ n, b.node? m.id = some n ∧ Lasts a [e] m n := by
  have hnode := hb.node m.id
  have hlt : m.id ≠ d.chart.count := by
    rw [← h.count]
    exact Nat.ne_of_lt (node?_isSome_iff.mp (by rw [hm]; rfl))
  rw [Document.chart_create hd hok, Chart.push] at hnode
  simp only [if_neg hlt] at hnode
  exact ⟨m, hnode.trans ((h.node m.id).symm.trans hm), Lasts.refl a [e] m⟩

/-- An edit keeps every node. -/
theorem lasts_after (hb : a.after e = some b) (hm : a.node? m.id = some m) :
    ∃ n, b.node? m.id = some n ∧ Lasts a [e] m n := by
  obtain ⟨b', hb', hshows⟩ := shows_after h hd e
  rw [hb, Option.some.injEq] at hb'
  subst hb'
  have heffect := Document.effect_after hd e
  generalize hd' : d.after e = d' at heffect hshows
  cases heffect with
  | move edit hr =>
    have hnode := (hshows.node m.id).trans ((hr.node? hd.distinct m.id).trans (h.node m.id).symm)
    exact ⟨m, hnode.trans hm, Lasts.refl a [e] m⟩
  | create hc => exact lasts_create h hd hc hshows hm
  | normalize =>
    obtain ⟨c, hrun, hc⟩ := on_normalize h hd
    exact lasts_normalize h hd hshows (hshows.unique hc ▸ hrun) hm
  | set hs => exact lasts_set h hs hshows hm

/-- A node that the arena has after an edit was there before, or the edit made
it. -/
theorem came_of_after (hb : a.after e = some b) {id : NodeId} (hid : id < b.count) :
    id < a.count ∨ ∃ k, k ≠ .document ∧ e = .create k ∧ a.count = id := by
  obtain ⟨b', hb', hshows⟩ := shows_after h hd e
  rw [hb, Option.some.injEq] at hb'
  subst hb'
  have heffect := Document.effect_after hd e
  generalize hd' : d.after e = d' at heffect hshows
  have hcount := h.count
  rw [hshows.count] at hid
  cases heffect with
  | move edit hr => exact Or.inl (Nat.lt_of_lt_of_eq (Nat.lt_of_lt_of_eq hid hr.nodeCount) hcount.symm)
  | @create k _ _ hc =>
    rw [Document.chart_create hd hc, Chart.push, ← hcount] at hid
    rcases Nat.lt_succ_iff_lt_or_eq.mp hid with hlt | heq
    · exact Or.inl hlt
    · exact Or.inr ⟨k, (Document.create_ok hc).1, rfl, heq.symm⟩
  | normalize =>
    obtain ⟨root, body, rest, ht, -⟩ := hd.exists_root
    have hsame := Document.nodeCount_normalize ht
    exact Or.inl (Nat.lt_of_lt_of_eq (Nat.lt_of_lt_of_eq hid hsame) hcount.symm)
  | set hs =>
    obtain ⟨_, content, -, -, ht⟩ := Document.set_ok hs
    rw [Document.chart_modify (g := fun n => { n with content }) (fun _ => rfl) ht] at hid
    exact Or.inl (hcount ▸ hid)

omit h hd in
theorem node_made {k : Kind} (hk : k ≠ .document) :
    ∃ b, a.after (.create k) = some b ∧
      b.node? a.count = some { id := a.count, content := .ofKind k } := by
  have hrun := on_create (a := a) k
  rw [if_neg hk] at hrun
  refine ⟨a.push { content := .ofKind k }, ?_, ?_⟩
  · rw [after, Editing.perform, Editing.on_bind hrun]
    rfl
  · rw [node?, slot?_push, if_pos rfl]
    rfl

/-! ## Any edits -/

/-- A node that comes in a run is there after its first edit, or comes later. -/
theorem Came.after_first (hm : Came a (e :: es) m) (hb : a.after e = some b) :
    ∃ x, Came b es x ∧ Lasts a [e] m x := by
  cases hm with
  | there hm =>
    obtain ⟨x, hx, hlasts⟩ := lasts_after h hd hb hm
    rw [← hlasts.id] at hx
    exact ⟨x, .there hx, hlasts⟩
  | @made k hk before rest c hes hc =>
    cases before with
    | nil =>
      cases hes
      cases hc
      obtain ⟨b', hb', hnode⟩ := node_made hk
      rw [hb, Option.some.injEq] at hb'
      exact ⟨_, .there (hb' ▸ hnode), Lasts.refl _ _ _⟩
    | cons e' before =>
      cases hes
      rw [edits_cons hb] at hc
      exact ⟨_, .made hk rfl hc, Lasts.refl _ _ _⟩

end

/-- A node that comes in a run stays to its end. -/
theorem Came.stays (h : a.Shows d.chart) (hd : Grounded d) (hm : Came a es m)
    (hz : a.edits es = some z) : ∃ n, z.node? m.id = some n ∧ Lasts a es m n := by
  induction es generalizing a d m with
  | nil =>
    cases hz
    cases hm with
    | there hm => exact ⟨m, hm, Lasts.refl _ _ _⟩
    | made hk hes hb => simp at hes
  | cons e es ih =>
    obtain ⟨b, hb, hshows⟩ := shows_after h hd e
    obtain ⟨x, hx, hlasts⟩ := hm.after_first h hd hb
    rw [edits_cons hb] at hz
    obtain ⟨n, hn, hlasts'⟩ := ih hshows (Document.grounded_after hd e) hx hz
    exact ⟨n, hlasts.id ▸ hn, hlasts.cons hb hlasts'⟩

theorem came_of_lt {id : NodeId} (hid : id < a.count) : ∃ m, Came a es m ∧ m.id = id := by
  obtain ⟨n, hn⟩ := Option.isSome_iff_exists.mp (node?_isSome_iff.mpr hid)
  have hnid : n.id = id := by
    obtain ⟨s, -, rfl⟩ := Option.map_eq_some_iff.mp hn
    rfl
  exact ⟨n, .there (hnid ▸ hn), hnid⟩

/-- What the run has at its end came in it. -/
theorem exists_came (h : a.Shows d.chart) (hd : Grounded d) (hz : a.edits es = some z)
    {id : NodeId} (hid : id < z.count) : ∃ m, Came a es m ∧ m.id = id := by
  induction es generalizing a d with
  | nil =>
    cases hz
    exact came_of_lt hid
  | cons e es ih =>
    obtain ⟨b, hb, hshows⟩ := shows_after h hd e
    rw [edits_cons hb] at hz
    obtain ⟨x, hx, rfl⟩ := ih hshows (Document.grounded_after hd e) hz
    cases hx with
    | there hx =>
      have hlt := node?_isSome_iff.mp (by rw [hx]; rfl)
      rcases came_of_after h hd hb hlt with hlt | ⟨k, hk, rfl, hnew⟩
      · exact came_of_lt hlt
      · have hnone : a.edits [] = some a := rfl
        exact ⟨_, .made hk rfl hnone, hnew⟩
    | @made k hk before rest c hes hc =>
      subst hes
      have hc' : a.edits (e :: before) = some c := (edits_cons hb before).trans hc
      exact ⟨_, .made hk rfl hc', rfl⟩

end Arena

/-- In every run, the payloads of the nodes stay in range, and each node keeps
its kind and its place in the source. -/
theorem Document.Run.payloads_stay (x : Run) :
    ∃ a z, x.beginning.arena = some a ∧ x.arena = some z ∧ a.Steady x.edits z := by
  have hd := grounded_beginning x.beginning
  obtain ⟨a, ha, h⟩ := x.beginning.exists_arena
  obtain ⟨z, hz, hshows⟩ := Arena.shows_edits h hd x.edits
  have hdz := (grounded_edits hd x.edits).distinct
  have hholds : ∀ {P : Content → Prop}, Lasting P → ∀ id n, z.node? id = some n →
      P n.content := fun hP id n hn =>
    holds_edits hP hd (holds_beginning hP x.beginning) x.edits n
      ((node?_eq_some_iff hdz).mp ((hshows.node id).symm.trans hn)).1
  refine ⟨a, z, ha, by rw [Run.arena, ha]; exact hz, hholds Content.lasting_isLevelled,
    hholds Content.lasting_isDelimited, hholds Content.lasting_isBulleted, fun id n hn => ?_,
    fun m hm => hm.stays h hd hz⟩
  obtain ⟨m, hm, rfl⟩ := Arena.exists_came h hd hz (Arena.node?_isSome_iff.mp (by rw [hn]; rfl))
  obtain ⟨n', hn', hlasts⟩ := hm.stays h hd hz
  rw [hn, Option.some.injEq] at hn'
  exact ⟨m, hm, hn' ▸ hlasts⟩

end MarkupTree
