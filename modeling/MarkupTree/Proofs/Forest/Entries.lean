-- The moments of a visit: at each of them the visitor enters a node, below
-- some nodes of the visited tree, and has written so much by then. Every node
-- is entered, unless the visitor passes over what stands around it.
import MarkupTree.Proofs.Forest.Rows
import MarkupTree.Visitor

namespace MarkupTree

variable {α : Type}

/-- The sites of a row of siblings, given what stands above the row and before
it. -/
def Forest.sites (ancestors before : List Node) (depth : Nat) : Forest → List Site
  | .nil => []
  | .cons n cs rest =>
    { node := n, children := cs, ancestors, before, after := rest, depth } ::
      rest.sites ancestors (n :: before) depth

/-- The sites of the children. -/
def Site.below (s : Site) : List Site := s.children.sites (s.node :: s.ancestors) [] (s.depth + 1)

/-- The visit of `s` enters `t` below the sites `above`, the nearest first, when
so much is written. -/
inductive Site.Enters (v : Visitor α) (s : Site) : List Site → List α → Site → Prop
  | start : Enters v s [] [] s
  | child {above us ws : List Site} {written : List α} {t u : Site} (h : Enters v s above written t)
      (hdescends : v.descends t = true) (hbelow : t.below = us ++ u :: ws) :
      Enters v s (t :: above) (written ++ v.enter t ++ us.flatMap (Site.visit v)) u

theorem Forest.visit_eq_flatMap (v : Visitor α) (f : Forest) (ancestors before : List Node)
    (depth : Nat) :
    f.visit v ancestors before depth = (f.sites ancestors before depth).flatMap (Site.visit v) := by
  induction f generalizing before with
  | nil => rfl
  | cons n cs rest _ ih =>
    rw [visit, sites, List.flatMap_cons, ih]
    rfl

theorem Site.visit_eq (v : Visitor α) (s : Site) :
    s.visit v = v.enter s ++ (if v.descends s then s.below.flatMap (visit v) else []) ++ v.exit s := by
  rw [visit, Forest.visit_eq_flatMap]
  rfl

theorem Forest.sites_place {f : Forest} {ancestors before : List Node} {depth : Nat} {s : Site}
    (hs : s ∈ f.sites ancestors before depth) : s.ancestors = ancestors ∧ s.depth = depth := by
  induction f generalizing before with
  | nil => cases hs
  | cons n cs rest _ ih =>
    rcases List.mem_cons.mp hs with rfl | hs
    · exact ⟨rfl, rfl⟩
    · exact ih hs

theorem Forest.tree_of_mem_sites {f : Forest} {ancestors before : List Node} {depth : Nat} {s : Site}
    (hs : s ∈ f.sites ancestors before depth) : s.tree ∈ f.trees := by
  induction f generalizing before with
  | nil => cases hs
  | cons n cs rest _ ih =>
    rcases List.mem_cons.mp hs with rfl | hs
    · exact List.mem_cons_self
    · exact List.mem_cons_of_mem _ (ih hs)

namespace Site

variable {v : Visitor α} {s t : Site} {above : List Site} {written : List α}

/-- What is written when a node is entered begins the visit, and the visit of
the node goes on from there. -/
theorem Enters.visit_eq (h : s.Enters v above written t) :
    ∃ rest, s.visit v = written ++ t.visit v ++ rest := by
  induction h with
  | start => exact ⟨[], by simp⟩
  | @child above us ws written t u _ hdescends hbelow ih =>
    obtain ⟨rest, ih⟩ := ih
    refine ⟨ws.flatMap (visit v) ++ v.exit t ++ rest, ?_⟩
    rw [ih, Site.visit_eq v t, if_pos hdescends, hbelow]
    simp

/-- On entering a node the visit goes on with what is written then. -/
theorem Enters.visit_eq_enter (h : s.Enters v above written t) :
    ∃ after, s.visit v = written ++ v.enter t ++ after := by
  obtain ⟨rest, hvisit⟩ := h.visit_eq
  rw [Site.visit_eq v t, List.append_assoc (v.enter t), ← List.append_assoc written, List.append_assoc] at hvisit
  exact ⟨_, hvisit⟩

/-- The visit leaves each node that it enters. -/
theorem Enters.visit_eq_exit (h : s.Enters v above written t) :
    ∃ before after, s.visit v = before ++ v.exit t ++ after := by
  obtain ⟨rest, hvisit⟩ := h.visit_eq
  rw [Site.visit_eq v t, ← List.append_assoc] at hvisit
  exact ⟨_, rest, hvisit⟩

/-- The sites that a node is entered below are those of its ancestors within
the visited tree. -/
theorem Enters.ancestors_eq (h : s.Enters v above written t) :
    t.ancestors = above.map Site.node ++ s.ancestors := by
  induction h with
  | start => rfl
  | child _ _ hbelow ih =>
    rw [(Forest.sites_place (hbelow ▸ List.mem_append_right _ List.mem_cons_self)).1, ih]
    rfl

/-- Only subtrees of the visited tree are entered. -/
theorem Enters.mem_subtrees {f : Forest} (h : s.Enters v above written t) (hs : s.tree ∈ f.subtrees) :
    t.tree ∈ f.subtrees := by
  induction h with
  | start => exact hs
  | child _ _ hbelow ih =>
    apply Forest.children_subset_subtrees ih
    exact Forest.tree_of_mem_sites (hbelow ▸ List.mem_append_right _ List.mem_cons_self)

theorem Enters.enters_below (h : s.Enters v above written t) (hdescends : v.descends t = true) :
    ∀ u ∈ t.below, ∃ above written, s.Enters v above written u := by
  intro u hu
  obtain ⟨us, ws, hsplit⟩ := List.append_of_mem hu
  exact ⟨_, _, .child h hdescends hsplit⟩

/-- Where the sites of a row are entered, each node of the row and below it is
entered or passed over. -/
theorem enters_of_mem_nodes {f : Forest} {ancestors before : List Node} {depth : Nat}
    (h : ∀ u ∈ f.sites ancestors before depth, ∃ above written, s.Enters v above written u)
    {n : Node} (hn : n ∈ f.nodes) :
    ∃ above written t, s.Enters v above written t ∧
      (t.node = n ∨ v.descends t = false ∧ n ∈ t.children.nodes) := by
  induction f generalizing ancestors before depth with
  | nil => cases hn
  | cons m cs rest ihc ihr =>
    obtain ⟨hm, hrest⟩ := List.forall_mem_cons.mp h
    obtain ⟨above, written, hu⟩ := hm
    rw [Forest.nodes, List.mem_cons, List.mem_append] at hn
    rcases hn with rfl | hn | hn
    · exact ⟨above, written, _, hu, Or.inl rfl⟩
    · rcases hdescends : v.descends _ with _ | _
      · exact ⟨above, written, _, hu, Or.inr ⟨hdescends, hn⟩⟩
      · exact ihc (hu.enters_below hdescends) hn
    · exact ihr hrest hn

/-- Every node of the visited tree is entered, unless the visitor passes over
what is below one of the nodes above it. -/
theorem enters_of_mem (v : Visitor α) (s : Site) {n : Node} (hn : n ∈ s.tree.alone.nodes) :
    ∃ above written t, s.Enters v above written t ∧
      (t.node = n ∨ v.descends t = false ∧ n ∈ t.children.nodes) := by
  have hmem : n = s.node ∨ n ∈ s.children.nodes := by
    simpa [tree, Tree.alone, Forest.nodes] using hn
  rcases hmem with rfl | hn
  · exact ⟨[], [], s, .start, Or.inl rfl⟩
  · rcases hdescends : v.descends s with _ | _
    · exact ⟨[], [], s, .start, Or.inr ⟨hdescends, hn⟩⟩
    · exact enters_of_mem_nodes (Enters.start.enters_below hdescends) hn

end Site

end MarkupTree
