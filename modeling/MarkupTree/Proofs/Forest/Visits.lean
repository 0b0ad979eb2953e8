-- What a visitor writes for a row of siblings or for one node with all below
-- it. All of it is written on entering or on leaving one of the nodes, and a
-- translation of it, part by part, is written by the visitor that translates.
-- A visitor that looks at labels only writes the same for the same roses.
import MarkupTree.Proofs.Forest.Roses
import MarkupTree.Visitor

namespace MarkupTree

variable {α β : Type}

/-- The visitor `w` writes the translation of what `v` writes, and translating
goes part by part. -/
structure Visitor.Translates (translate : List α → List β) (v : Visitor α) (w : Visitor β) :
    Prop where
  nil : translate [] = []
  append : ∀ xs ys, translate (xs ++ ys) = translate xs ++ translate ys
  enter : ∀ s, translate (v.enter s) = w.enter s
  exit : ∀ s, translate (v.exit s) = w.exit s
  descends : ∀ s, v.descends s = w.descends s

/-- The visitor looks at nothing of a site but the label of the node, its depth,
and whether it has children. -/
def Visitor.LooksAt (v : Visitor α) (label : Node → β) : Prop :=
  ∀ s t : Site, label s.node = label t.node → s.depth = t.depth →
    s.children.isEmpty = t.children.isEmpty →
    v.enter s = v.enter t ∧ v.exit s = v.exit t ∧ v.descends s = v.descends t

namespace Forest

variable {v : Visitor α} {f : Forest} {ancestors before : List Node} {depth : Nat}

theorem mem_visit {x : α} (hx : x ∈ f.visit v ancestors before depth) :
    ∃ s : Site, s.node ∈ f.nodes ∧ (x ∈ v.enter s ∨ x ∈ v.exit s) := by
  induction f generalizing ancestors before depth with
  | nil => cases hx
  | cons n cs rest ihc ihr =>
    simp only [visit, List.mem_append, or_assoc] at hx
    rcases hx with hx | hx | hx | hx
    · exact ⟨_, List.mem_cons_self, Or.inl hx⟩
    · split at hx
      · obtain ⟨s, hs, hx⟩ := ihc hx
        exact ⟨s, List.mem_cons_of_mem _ (List.mem_append_left _ hs), hx⟩
      · cases hx
    · exact ⟨_, List.mem_cons_self, Or.inr hx⟩
    · obtain ⟨s, hs, hx⟩ := ihr hx
      exact ⟨s, List.mem_cons_of_mem _ (List.mem_append_right _ hs), hx⟩

theorem visit_translated {translate : List α → List β} {w : Visitor β}
    (h : v.Translates translate w) :
    translate (f.visit v ancestors before depth) = f.visit w ancestors before depth := by
  induction f generalizing ancestors before depth with
  | nil => exact h.nil
  | cons n cs rest ihc ihr =>
    simp only [visit, h.append, apply_ite translate, ihc, ihr, h.nil, h.enter, h.exit, h.descends]

/-- A property that holds of nothing at all, and of a node of the row with all below
it as soon as it holds of what is below, holds of the whole visit. -/
theorem visit_induction_of_mem {P : List α → Prop} (nil : P [])
    (append : ∀ xs ys, P xs → P ys → P (xs ++ ys))
    (node : ∀ s : Site, s.node ∈ f.nodes → ∀ inner, P inner → P (v.enter s ++ inner ++ v.exit s)) :
    P (f.visit v ancestors before depth) := by
  induction f generalizing ancestors before depth with
  | nil => exact nil
  | cons n cs rest ihc ihr =>
    refine append _ _ (node _ List.mem_cons_self _ ?_) (ihr fun s hs =>
      node s (List.mem_cons_of_mem _ (List.mem_append_right _ hs)))
    split
    · exact ihc fun s hs => node s (List.mem_cons_of_mem _ (List.mem_append_left _ hs))
    · exact nil

theorem visit_induction {P : List α → Prop} (nil : P [])
    (append : ∀ xs ys, P xs → P ys → P (xs ++ ys))
    (node : ∀ s inner, P inner → P (v.enter s ++ inner ++ v.exit s)) :
    P (f.visit v ancestors before depth) := visit_induction_of_mem nil append fun s _ => node s

/-- Two visitors write related things if they do so for each node around what
they write below it. -/
theorem visit_related {w : Visitor β} {R : List α → List β → Prop} (nil : R [] [])
    (append : ∀ xs xs' ys ys', R xs ys → R xs' ys' → R (xs ++ xs') (ys ++ ys'))
    (node : ∀ s inner inner', R inner inner' →
      R (v.enter s ++ (if v.descends s then inner else []) ++ v.exit s)
        (w.enter s ++ (if w.descends s then inner' else []) ++ w.exit s)) :
    R (f.visit v ancestors before depth) (f.visit w ancestors before depth) := by
  induction f generalizing ancestors before depth with
  | nil => exact nil
  | cons n cs rest ihc ihr => exact append _ _ _ _ (node _ _ _ ihc) ihr

theorem visit_eq_of_roses {label : Node → β} (hv : v.LooksAt label) {g : Forest}
    (h : f.roses label = g.roses label) (ancestors before ancestors' before' : List Node) :
    f.visit v ancestors before depth = g.visit v ancestors' before' depth := by
  induction f generalizing g ancestors before ancestors' before' depth with
  | nil =>
    cases g with
    | nil => rfl
    | cons m ds others => cases h
  | cons n cs rest ihc ihr =>
    cases g with
    | nil => cases h
    | cons m ds others =>
      simp only [roses, List.cons.injEq, Rose.node.injEq] at h
      obtain ⟨⟨hlabel, hcs⟩, hrest⟩ := h
      have hempty : cs.isEmpty = ds.isEmpty := by
        rw [← isEmpty_roses label, hcs, isEmpty_roses]
      let s : Site := { node := n, children := cs, ancestors, before, after := rest, depth }
      let t : Site :=
        { node := m, children := ds, ancestors := ancestors', before := before', after := others
          depth }
      obtain ⟨henter, hexit, hdescends⟩ := hv s t hlabel rfl hempty
      simp only [visit]
      rw [henter, hexit, hdescends, ihc hcs _ _ (m :: ancestors') [],
        ihr hrest _ _ ancestors' (m :: before')]

end Forest

namespace Site

variable {v : Visitor α} {s : Site}

theorem mem_visit {x : α} (hx : x ∈ s.visit v) :
    ∃ t : Site, t.node ∈ s.tree.alone.nodes ∧ (x ∈ v.enter t ∨ x ∈ v.exit t) := by
  simp only [visit, List.mem_append, or_assoc] at hx
  rcases hx with hx | hx | hx
  · exact ⟨s, List.mem_cons_self, Or.inl hx⟩
  · split at hx
    · obtain ⟨t, ht, hx⟩ := Forest.mem_visit hx
      exact ⟨t, List.mem_cons_of_mem _ (List.mem_append_left _ ht), hx⟩
    · cases hx
  · exact ⟨s, List.mem_cons_self, Or.inr hx⟩

theorem visit_of_leaf (h : s.children = .nil) : s.visit v = v.enter s ++ v.exit s := by
  simp [visit, h, Forest.visit]

theorem visit_translated {translate : List α → List β} {w : Visitor β}
    (h : v.Translates translate w) : translate (s.visit v) = s.visit w := by
  simp only [visit, h.append, apply_ite translate, Forest.visit_translated h, h.nil, h.enter,
    h.exit, h.descends]

theorem visit_induction {P : List α → Prop} (nil : P [])
    (append : ∀ xs ys, P xs → P ys → P (xs ++ ys))
    (node : ∀ t inner, P inner → P (v.enter t ++ inner ++ v.exit t)) : P (s.visit v) := by
  refine node s _ ?_
  split
  · exact Forest.visit_induction nil append node
  · exact nil

theorem visit_related {w : Visitor β} {R : List α → List β → Prop} (nil : R [] [])
    (append : ∀ xs xs' ys ys', R xs ys → R xs' ys' → R (xs ++ xs') (ys ++ ys'))
    (node : ∀ t inner inner', R inner inner' →
      R (v.enter t ++ (if v.descends t then inner else []) ++ v.exit t)
        (w.enter t ++ (if w.descends t then inner' else []) ++ w.exit t)) :
    R (s.visit v) (s.visit w) := node s _ _ (Forest.visit_related nil append node)

theorem visit_eq_of_rose {label : Node → β} (hv : v.LooksAt label) {t : Site}
    (h : s.tree.rose label = t.tree.rose label) (hdepth : s.depth = t.depth) :
    s.visit v = t.visit v := by
  obtain ⟨hlabel, hchildren⟩ : label s.node = label t.node ∧
      s.children.roses label = t.children.roses label := Rose.node.inj h
  have hempty : s.children.isEmpty = t.children.isEmpty := by
    rw [← Forest.isEmpty_roses label, hchildren, Forest.isEmpty_roses]
  obtain ⟨henter, hexit, hdescends⟩ := hv s t hlabel hdepth hempty
  rw [visit, visit, henter, hexit, hdescends, hdepth,
    Forest.visit_eq_of_roses hv hchildren _ _ (t.node :: t.ancestors) []]

end Site

end MarkupTree
