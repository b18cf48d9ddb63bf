import Mathlib.Algebra.BigOperators.Group.Finset.Basic
import Mathlib.Data.Finset.Prod
import TreeAlign.Proofs.Numbering
import TreeAlign.Proofs.Selection
import TreeAlign.Strategy.Dispatch

namespace TreeAlign

namespace Tree

def Edge (root : Node) (parent child : NodeId) : Prop :=
  ∃ p ∈ root.preorder, p.id = parent ∧ ∃ c ∈ p.children, c.id = child

theorem Edge.lift {root x : Node} {parent child : NodeId} (edge : x.Edge parent child) (below : x ∈ root.preorder) :
    root.Edge parent child := by
  obtain ⟨p, member, rfl, c, hc, rfl⟩ := edge
  exact ⟨p, mem_preorder_trans member below, rfl, c, hc, rfl⟩

theorem Edge.lt {root : Node} (numbered : root.Numbered) {parent child : NodeId} (edge : root.Edge parent child) :
    parent < child := by
  obtain ⟨p, member, rfl, c, hc, rfl⟩ := edge
  exact ((numbered.below member).child_range hc).1

theorem Edge.within {root x : Node} (numbered : root.Numbered) (below : x ∈ root.preorder) {parent child : NodeId}
    (edge : root.Edge parent child) (inside : x.containsId parent = true) :
    x.Edge parent child ∧ x.containsId child = true := by
  obtain ⟨p, member, rfl, c, hc, rfl⟩ := edge
  have numberedX := numbered.below below
  obtain ⟨y, hy, same⟩ := List.mem_map.mp (numberedX.mem_ids.mpr inside)
  obtain rfl := numbered.eq_of_id_eq (mem_preorder_trans hy below) member same
  exact ⟨⟨y, hy, rfl, c, hc, rfl⟩,
    numberedX.containsId_of_mem (mem_preorder_trans (child_mem_preorder hc) hy)⟩

theorem Numbered.child_unique {t a b : Node} (numbered : t.Numbered) (ha : a ∈ t.children) (hb : b ∈ t.children)
    {k : NodeId} (inA : a.containsId k = true) (inB : b.containsId k = true) : a = b := by
  obtain ⟨i, hi⟩ := List.mem_iff_getElem?.mp ha
  obtain ⟨j, hj⟩ := List.mem_iff_getElem?.mp hb
  have same := numbered.children_disjoint hi hj inA inB
  rw [same, hj] at hi
  exact (Option.some.inj hi).symm

theorem Edge.of_root {root : Node} (numbered : root.Numbered) {child : NodeId} (edge : root.Edge root.id child) :
    ∃ (i : Nat) (c : Node), root.children[i]? = some c ∧ c.id = child := by
  obtain ⟨p, member, same, c, hc, rfl⟩ := edge
  obtain rfl := numbered.eq_of_id_eq member root.self_mem_preorder same
  obtain ⟨i, hi⟩ := List.mem_iff_getElem?.mp hc
  exact ⟨i, c, hi, rfl⟩

theorem Numbered.ne_of_child {root p x : Node} (numbered : root.Numbered) (hp : p ∈ root.preorder)
    (hx : x ∈ p.children) : x.id ≠ root.id := by
  have below := ((numbered.below hp).child_range hx).1
  have start := (containsId_iff.mp (numbered.containsId_of_mem hp)).1
  lia

theorem Numbered.parent_cases {root p x a : Node} (numbered : root.Numbered) (hp : p ∈ root.preorder)
    (hx : x ∈ p.children) (ha : a ∈ root.children) (inside : a.containsId x.id = true) :
    p = root ∧ x = a ∨ p ∈ a.preorder := by
  rcases mem_preorder_iff.mp hp with rfl | ⟨c, hc, below⟩
  · exact .inl ⟨rfl, numbered.child_unique hx ha x.containsId_self inside⟩
  · have insideC : c.containsId x.id = true :=
      (numbered.child hc).containsId_of_mem (mem_preorder_trans (child_mem_preorder hx) below)
    rw [← numbered.child_unique hc ha insideC inside]
    exact .inr below

theorem Numbered.containsId_root {root x : Node} (numbered : root.Numbered) (hx : x ∈ root.preorder)
    (inside : x.containsId root.id = true) : root.id = x.id := by
  have start := (containsId_iff.mp (numbered.containsId_of_mem hx)).1
  have first := (containsId_iff.mp inside).1
  lia

theorem Edge.containsId_iff {root x : Node} (numbered : root.Numbered) (hx : x ∈ root.preorder)
    {parent child : NodeId} (edge : root.Edge parent child) (other : child ≠ x.id) :
    x.containsId child = true ↔ x.containsId parent = true := by
  refine ⟨fun inside => ?_, fun inside => (edge.within numbered hx inside).2⟩
  obtain ⟨p, hp, rfl, y, hy, rfl⟩ := edge
  induction root using childInduction with
  | step root ih =>
    rcases mem_preorder_iff.mp hx with rfl | ⟨c, hc, below⟩
    · exact numbered.containsId_of_mem hp
    · have numberedC := numbered.child hc
      rcases numbered.parent_cases hp hy hc (numberedC.containsId_trans below inside) with ⟨rfl, rfl⟩ | belowC
      · exact absurd (numberedC.containsId_root below inside) other
      · exact ih c hc numberedC below belowC

theorem Numbered.eq_root_of_children {root p x y a b : Node} (numbered : root.Numbered) (hp : p ∈ root.preorder)
    (hx : x ∈ p.children) (hy : y ∈ p.children) {i j : Nat} (ha : root.children[i]? = some a)
    (hb : root.children[j]? = some b) (insideA : a.containsId x.id = true) (insideB : b.containsId y.id = true)
    (different : i ≠ j) : p = root := by
  have childA := List.mem_of_getElem? ha
  rcases numbered.parent_cases hp hx childA insideA with ⟨top, -⟩ | below
  · exact top
  · have insideA' : a.containsId y.id = true :=
      (numbered.child childA).containsId_of_mem (mem_preorder_trans (child_mem_preorder hy) below)
    exact absurd (numbered.children_disjoint ha hb insideA' insideB) different

def labelAt (root : Node) (id : NodeId) : Option Label :=
  (root.find? id).map label

theorem labelAt_eq {root x : Node} (numbered : root.Numbered) (member : x ∈ root.preorder) :
    root.labelAt x.id = some x.label := by
  rw [labelAt, find?_eq_some numbered member]
  rfl

theorem labelAt_below {root x : Node} (numbered : root.Numbered) (hx : x ∈ root.preorder) {id : NodeId}
    (inside : x.containsId id = true) : root.labelAt id = x.labelAt id := by
  have numberedX := numbered.below hx
  obtain ⟨y, hy, rfl⟩ := List.mem_map.mp (numberedX.mem_ids.mpr inside)
  rw [labelAt_eq numbered (mem_preorder_trans hy hx), labelAt_eq numberedX hy]

end Tree

abbrev Mapping := Finset (NodeId × NodeId)

namespace Mapping

def mapsTo (mapping : Mapping) : Option Node → Option Node → Bool
  | some a, some b => (a.id, b.id) ∈ mapping
  | _, _ => false

def places (mapping : Mapping) (p q : Node) : Finset (Nat × Nat) :=
  (Finset.range p.children.length ×ˢ Finset.range q.children.length).filter fun place =>
    mapping.mapsTo p.children[place.1]? q.children[place.2]?

theorem mem_places {mapping : Mapping} {p q : Node} {place : Nat × Nat} :
    place ∈ mapping.places p q ↔ ∃ a b : Node, p.children[place.1]? = some a ∧ q.children[place.2]? = some b ∧
      (a.id, b.id) ∈ mapping := by
  rw [places, Finset.mem_filter, Finset.mem_product, Finset.mem_range, Finset.mem_range]
  constructor
  · rintro ⟨⟨left, right⟩, found⟩
    rw [List.getElem?_eq_getElem left, List.getElem?_eq_getElem right] at found
    exact ⟨_, _, List.getElem?_eq_getElem left, List.getElem?_eq_getElem right, of_decide_eq_true found⟩
  · rintro ⟨a, b, ha, hb, member⟩
    rw [ha, hb]
    exact ⟨⟨(List.getElem?_eq_some_iff.mp ha).1, (List.getElem?_eq_some_iff.mp hb).1⟩, decide_eq_true member⟩

theorem places_mono {mapping more : Mapping} (sub : mapping ⊆ more) (p q : Node) :
    mapping.places p q ⊆ more.places p q := by
  intro place member
  obtain ⟨a, b, ha, hb, pair⟩ := mem_places.mp member
  exact mem_places.mpr ⟨a, b, ha, hb, sub pair⟩

/-- A mapping holds the two roots, has every node at most once, holds with two nodes also their parents,
and keeps the order of children if the place of one of them matters. -/
structure Admissible (left right : Node) (mapping : Mapping) : Prop where
  root : (left.id, right.id) ∈ mapping
  inside : ∀ p ∈ mapping, p.1 ∈ left.preorder.map Tree.id ∧ p.2 ∈ right.preorder.map Tree.id
  single : ∀ p ∈ mapping, ∀ q ∈ mapping, p.1 = q.1 ↔ p.2 = q.2
  parents : ∀ p ∈ mapping, p ≠ (left.id, right.id) → ∃ q ∈ mapping, left.Edge q.1 p.1 ∧ right.Edge q.2 p.2
  ordered : ∀ p ∈ left.preorder, ∀ q ∈ right.preorder, Dispatcher.isOrdered p q = true →
    NonCrossing (mapping.places p q)

def agreement (left right : Node) (mapping : Mapping) : Nat :=
  (mapping.filter fun p => left.labelAt p.1 = right.labelAt p.2).card

def agreements (left right : Node) : Set Nat :=
  {count | ∃ mapping, Admissible left right mapping ∧ count = agreement left right mapping}

def below (mapping : Mapping) (a : Node) : Mapping :=
  mapping.filter fun p => a.containsId p.1

theorem mem_below {mapping : Mapping} {a : Node} {p : NodeId × NodeId} :
    p ∈ mapping.below a ↔ p ∈ mapping ∧ a.containsId p.1 = true :=
  Finset.mem_filter

variable {left right : Node} {mapping : Mapping}

section Below

variable {a b : Node} (hl : left.Numbered) (hr : right.Numbered) (ha : a ∈ left.preorder) (hb : b ∈ right.preorder)
  (pair : (a.id, b.id) ∈ mapping)

include hl hr ha hb pair

/-- What is mapped in the subtree of a node is mapped to the subtree of its partner, and nothing else is. -/
theorem Admissible.containsId_iff (h : Admissible left right mapping) :
    ∀ p ∈ mapping, a.containsId p.1 = true ↔ b.containsId p.2 = true := by
  -- By induction on the left identity: the pair above has a smaller one.
  suffices bounded : ∀ n : Nat, ∀ p ∈ mapping, p.1 < n → (a.containsId p.1 = true ↔ b.containsId p.2 = true) from
    fun p member => bounded (p.1 + 1) p member (Nat.lt_succ_self _)
  intro n
  induction n with
  | zero => exact fun p _ bound => absurd bound (Nat.not_lt_zero _)
  | succ n ih =>
    intro p member bound
    have single := h.single p member _ pair
    by_cases top : p.1 = a.id
    · have partner : p.2 = b.id := single.mp top
      rw [top, partner]
      exact ⟨fun _ => b.containsId_self, fun _ => a.containsId_self⟩
    · have partner : p.2 ≠ b.id := fun same => top (single.mpr same)
      by_cases root : p = (left.id, right.id)
      · subst root
        exact ⟨fun inside => absurd (hl.containsId_root ha inside) top,
          fun inside => absurd (hr.containsId_root hb inside) partner⟩
      · obtain ⟨q, hq, edgeL, edgeR⟩ := h.parents p member root
        have smaller : q.1 < n := Nat.lt_of_lt_of_le (edgeL.lt hl) (Nat.le_of_lt_succ bound)
        rw [edgeL.containsId_iff hl ha top, edgeR.containsId_iff hr hb partner]
        exact ih q hq smaller

theorem Admissible.below (h : Admissible left right mapping) : Admissible a b (mapping.below a) where
  root := mem_below.mpr ⟨pair, a.containsId_self⟩
  inside := by
    intro p member
    obtain ⟨member, insideA⟩ := mem_below.mp member
    have insideB := (h.containsId_iff hl hr ha hb pair p member).mp insideA
    exact ⟨(hl.below ha).mem_ids.mpr insideA, (hr.below hb).mem_ids.mpr insideB⟩
  single := fun p hp q hq => h.single p (mem_below.mp hp).1 q (mem_below.mp hq).1
  parents := by
    intro p member other
    obtain ⟨member, insideA⟩ := mem_below.mp member
    have top : p.1 ≠ a.id := fun same => other (Prod.ext same ((h.single p member _ pair).mp same))
    have notRoot : p ≠ (left.id, right.id) := by
      rintro rfl
      exact top (hl.containsId_root ha insideA)
    obtain ⟨q, hq, edgeL, edgeR⟩ := h.parents p member notRoot
    have insideQ := (edgeL.containsId_iff hl ha top).mp insideA
    have insideQ' := (h.containsId_iff hl hr ha hb pair q hq).mp insideQ
    exact ⟨q, mem_below.mpr ⟨hq, insideQ⟩, (edgeL.within hl ha insideQ).1, (edgeR.within hr hb insideQ').1⟩
  ordered := fun p hp q hq matters =>
    (h.ordered p (Tree.mem_preorder_trans hp ha) q (Tree.mem_preorder_trans hq hb) matters).subset
      (places_mono (Finset.filter_subset _ _) p q)

end Below

theorem Admissible.exists_place (h : Admissible left right mapping) (hl : left.Numbered) (hr : right.Numbered) :
    ∀ p ∈ mapping, p ≠ (left.id, right.id) → ∃ place ∈ mapping.places left right, ∃ a,
      left.children[place.1]? = some a ∧ a.containsId p.1 = true := by
  suffices bounded : ∀ n : Nat, ∀ p ∈ mapping, p.1 < n → p ≠ (left.id, right.id) →
      ∃ place ∈ mapping.places left right, ∃ a, left.children[place.1]? = some a ∧ a.containsId p.1 = true from
    fun p member => bounded (p.1 + 1) p member (Nat.lt_succ_self _)
  intro n
  induction n with
  | zero => exact fun p _ bound => absurd bound (Nat.not_lt_zero _)
  | succ n ih =>
    intro p member bound other
    obtain ⟨q, hq, edgeL, edgeR⟩ := h.parents p member other
    by_cases top : q = (left.id, right.id)
    · subst top
      obtain ⟨i, a, hi, sameA⟩ := edgeL.of_root hl
      obtain ⟨j, b, hj, sameB⟩ := edgeR.of_root hr
      refine ⟨(i, j), mem_places.mpr ⟨a, b, hi, hj, ?_⟩, a, hi, ?_⟩
      · rw [sameA, sameB]
        exact member
      · rw [← sameA]
        exact a.containsId_self
    · have smaller : q.1 < n := Nat.lt_of_lt_of_le (edgeL.lt hl) (Nat.le_of_lt_succ bound)
      obtain ⟨place, hplace, a, ha, insideQ⟩ := ih q hq smaller top
      exact ⟨place, hplace, a, ha,
        (edgeL.within hl (Tree.child_mem_preorder (List.mem_of_getElem? ha)) insideQ).2⟩

theorem Admissible.places_oneToOne (h : Admissible left right mapping) (hl : left.Numbered) (hr : right.Numbered) :
    OneToOne (mapping.places left right) := by
  intro p hp q hq
  obtain ⟨a, b, ha, hb, pair⟩ := mem_places.mp hp
  obtain ⟨c, d, hc, hd, other⟩ := mem_places.mp hq
  have single := h.single _ pair _ other
  constructor
  · intro rows
    rw [rows, hc] at ha
    cases ha
    have same : b.id = d.id := single.mp rfl
    exact hr.children_disjoint hb hd b.containsId_self (same ▸ d.containsId_self)
  · intro columns
    rw [columns, hd] at hb
    cases hb
    have same : a.id = c.id := single.mpr rfl
    exact hl.children_disjoint ha hc a.containsId_self (same ▸ c.containsId_self)

theorem Admissible.places_selectable (h : Admissible left right mapping) (hl : left.Numbered) (hr : right.Numbered) :
    Selectable (Dispatcher.isOrdered left right) (mapping.places left right) := by
  cases matters : Dispatcher.isOrdered left right with
  | false => exact h.places_oneToOne hl hr
  | true => exact h.ordered left left.self_mem_preorder right right.self_mem_preorder matters

structure Parts (left right : Node) (cells : Finset (Nat × Nat)) (part : Nat × Nat → Mapping) : Prop where
  oneToOne : OneToOne cells
  each : ∀ place ∈ cells, ∃ a b, left.children[place.1]? = some a ∧ right.children[place.2]? = some b ∧
    Admissible a b (part place)

/-- The pair of two nodes together with mappings of their children. -/
def glue (left right : Node) (cells : Finset (Nat × Nat)) (part : Nat × Nat → Mapping) : Mapping :=
  insert (left.id, right.id) (cells.biUnion part)

variable {cells : Finset (Nat × Nat)} {part : Nat × Nat → Mapping}

theorem mem_glue {p : NodeId × NodeId} :
    p ∈ glue left right cells part ↔ p = (left.id, right.id) ∨ ∃ place ∈ cells, p ∈ part place := by
  rw [glue, Finset.mem_insert, Finset.mem_biUnion]

theorem Parts.inside (parts : Parts left right cells part) (hl : left.Numbered) (hr : right.Numbered)
    {place : Nat × Nat} (used : place ∈ cells) {p : NodeId × NodeId} (member : p ∈ part place) :
    ∃ a b, left.children[place.1]? = some a ∧ right.children[place.2]? = some b ∧
      a.containsId p.1 = true ∧ b.containsId p.2 = true := by
  obtain ⟨a, b, ha, hb, admissible⟩ := parts.each place used
  obtain ⟨insideA, insideB⟩ := admissible.inside p member
  exact ⟨a, b, ha, hb, (hl.child (List.mem_of_getElem? ha)).mem_ids.mp insideA,
    (hr.child (List.mem_of_getElem? hb)).mem_ids.mp insideB⟩

theorem Parts.ne_left (parts : Parts left right cells part) (hl : left.Numbered) (hr : right.Numbered)
    {place : Nat × Nat} (used : place ∈ cells) {p : NodeId × NodeId} (member : p ∈ part place) : p.1 ≠ left.id := by
  obtain ⟨a, b, ha, -, insideA, -⟩ := parts.inside hl hr used member
  intro same
  rw [same] at insideA
  exact hl.not_containsId_child (List.mem_of_getElem? ha) insideA

theorem Parts.ne_right (parts : Parts left right cells part) (hl : left.Numbered) (hr : right.Numbered)
    {place : Nat × Nat} (used : place ∈ cells) {p : NodeId × NodeId} (member : p ∈ part place) : p.2 ≠ right.id := by
  obtain ⟨a, b, -, hb, -, insideB⟩ := parts.inside hl hr used member
  intro same
  rw [same] at insideB
  exact hr.not_containsId_child (List.mem_of_getElem? hb) insideB

theorem Parts.place_eq_of_left (parts : Parts left right cells part) (hl : left.Numbered) (hr : right.Numbered)
    {place other : Nat × Nat} (used : place ∈ cells) (used' : other ∈ cells) {p q : NodeId × NodeId}
    (hp : p ∈ part place) (hq : q ∈ part other) (same : p.1 = q.1) : place = other := by
  obtain ⟨a, b, ha, -, insideA, -⟩ := parts.inside hl hr used hp
  obtain ⟨c, d, hc, -, insideC, -⟩ := parts.inside hl hr used' hq
  rw [← same] at insideC
  have rows := hl.children_disjoint ha hc insideA insideC
  exact Prod.ext rows ((parts.oneToOne _ used _ used').mp rows)

theorem Parts.place_eq_of_right (parts : Parts left right cells part) (hl : left.Numbered) (hr : right.Numbered)
    {place other : Nat × Nat} (used : place ∈ cells) (used' : other ∈ cells) {p q : NodeId × NodeId}
    (hp : p ∈ part place) (hq : q ∈ part other) (same : p.2 = q.2) : place = other := by
  obtain ⟨a, b, -, hb, -, insideB⟩ := parts.inside hl hr used hp
  obtain ⟨c, d, -, hd, -, insideD⟩ := parts.inside hl hr used' hq
  rw [← same] at insideD
  have columns := hr.children_disjoint hb hd insideB insideD
  exact Prod.ext ((parts.oneToOne _ used _ used').mpr columns) columns

theorem agreement_glue (parts : Parts left right cells part) (hl : left.Numbered) (hr : right.Numbered)
    {count : Nat × Nat → Nat} (counts : ∀ place ∈ cells, ∀ a b, left.children[place.1]? = some a →
      right.children[place.2]? = some b → agreement a b (part place) = count place) :
    agreement left right (glue left right cells part) = ∑ place ∈ cells, count place + left.ownScore right := by
  have rootLeft : left.labelAt left.id = some left.label := Tree.labelAt_eq hl left.self_mem_preorder
  have rootRight : right.labelAt right.id = some right.label := Tree.labelAt_eq hr right.self_mem_preorder
  have apart : (left.id, right.id) ∉ cells.biUnion part := by
    intro member
    obtain ⟨place, used, inPart⟩ := Finset.mem_biUnion.mp member
    exact parts.ne_left hl hr used inPart rfl
  have disjoint : (cells : Set (Nat × Nat)).PairwiseDisjoint part := by
    intro place used other used' different
    rw [Function.onFun, Finset.disjoint_left]
    exact fun p hp hq => different (parts.place_eq_of_left hl hr used used' hp hq rfl)
  rw [agreement, Finset.card_filter, glue, Finset.sum_insert apart, Finset.sum_biUnion disjoint, Nat.add_comm]
  congr 1
  · refine Finset.sum_congr rfl fun place used => ?_
    obtain ⟨a, b, ha, hb, -⟩ := parts.each place used
    rw [← counts place used a b ha hb, agreement, Finset.card_filter]
    refine Finset.sum_congr rfl fun p member => ?_
    obtain ⟨c, d, hc, hd, insideA, insideB⟩ := parts.inside hl hr used member
    rw [ha] at hc
    rw [hb] at hd
    cases hc
    cases hd
    rw [Tree.labelAt_below hl (Tree.child_mem_preorder (List.mem_of_getElem? ha)) insideA,
      Tree.labelAt_below hr (Tree.child_mem_preorder (List.mem_of_getElem? hb)) insideB]
  · simp only [rootLeft, rootRight, Option.some.injEq, Tree.ownScore, Tree.sameLabel, beq_iff_eq]

theorem Parts.glue_single (parts : Parts left right cells part) (hl : left.Numbered) (hr : right.Numbered) :
    ∀ p ∈ glue left right cells part, ∀ q ∈ glue left right cells part, p.1 = q.1 ↔ p.2 = q.2 := by
  intro p hp q hq
  rcases mem_glue.mp hp with rfl | ⟨place, used, inPart⟩ <;>
    rcases mem_glue.mp hq with rfl | ⟨other, used', inOther⟩
  · exact ⟨fun _ => rfl, fun _ => rfl⟩
  · exact ⟨fun same => absurd same.symm (parts.ne_left hl hr used' inOther),
      fun same => absurd same.symm (parts.ne_right hl hr used' inOther)⟩
  · exact ⟨fun same => absurd same (parts.ne_left hl hr used inPart),
      fun same => absurd same (parts.ne_right hl hr used inPart)⟩
  · obtain ⟨a, b, -, -, admissible⟩ := parts.each place used
    constructor
    · intro same
      rw [← parts.place_eq_of_left hl hr used used' inPart inOther same] at inOther
      exact (admissible.single p inPart q inOther).mp same
    · intro same
      rw [← parts.place_eq_of_right hl hr used used' inPart inOther same] at inOther
      exact (admissible.single p inPart q inOther).mpr same

theorem Parts.ordered_inside (parts : Parts left right cells part) (hl : left.Numbered) (hr : right.Numbered)
    {place : Nat × Nat} (used : place ∈ cells) {p q : Node} (hp : p ∈ left.preorder) (hq : q ∈ right.preorder)
    (matters : Dispatcher.isOrdered p q = true) : NonCrossing ((part place).places p q) := by
  intro u hu v hv
  obtain ⟨x, y, hx, hy, pair⟩ := mem_places.mp hu
  obtain ⟨x', y', hx', hy', pair'⟩ := mem_places.mp hv
  obtain ⟨a, b, ha, hb, admissible⟩ := parts.each place used
  have childA := List.mem_of_getElem? ha
  have childB := List.mem_of_getElem? hb
  have insideA {r : NodeId × NodeId} (member : r ∈ part place) : a.containsId r.1 = true :=
    (hl.child childA).mem_ids.mp (admissible.inside r member).1
  have insideB {r : NodeId × NodeId} (member : r ∈ part place) : b.containsId r.2 = true :=
    (hr.child childB).mem_ids.mp (admissible.inside r member).2
  rcases hl.parent_cases hp (List.mem_of_getElem? hx) childA (insideA pair) with ⟨rfl, rfl⟩ | belowA
  · -- Two children of the root in one subtree are one child.
    have one : x' = x := hl.child_unique (List.mem_of_getElem? hx') childA x'.containsId_self (insideA pair')
    subst one
    have ends : y.id = y'.id := (admissible.single _ pair _ pair').mp rfl
    have rows := hl.children_disjoint hx hx' x'.containsId_self x'.containsId_self
    have columns := (hr.below hq).children_disjoint hy hy' y.containsId_self (ends ▸ y'.containsId_self)
    omega
  · rcases hr.parent_cases hq (List.mem_of_getElem? hy) childB (insideB pair) with ⟨rfl, rfl⟩ | belowB
    · have top : x.id = a.id := (admissible.single _ pair _ admissible.root).mpr rfl
      exact absurd top ((hl.child childA).ne_of_child belowA (List.mem_of_getElem? hx))
    · exact admissible.ordered p belowA q belowB matters u hu v hv

theorem Parts.glue_ordered (parts : Parts left right cells part) (hl : left.Numbered) (hr : right.Numbered)
    (selectable : Selectable (Dispatcher.isOrdered left right) cells) :
    ∀ p ∈ left.preorder, ∀ q ∈ right.preorder, Dispatcher.isOrdered p q = true →
      NonCrossing ((glue left right cells part).places p q) := by
  intro p hp q hq matters u hu v hv
  obtain ⟨x, y, hx, hy, pair⟩ := mem_places.mp hu
  obtain ⟨x', y', hx', hy', pair'⟩ := mem_places.mp hv
  have childX := List.mem_of_getElem? hx
  have childX' := List.mem_of_getElem? hx'
  -- Children are never the roots, so both pairs come from parts.
  obtain ⟨place, used, inPart⟩ := (mem_glue.mp pair).resolve_left
    fun eq => hl.ne_of_child hp childX (Prod.mk.inj eq).1
  obtain ⟨other, used', inOther⟩ := (mem_glue.mp pair').resolve_left
    fun eq => hl.ne_of_child hp childX' (Prod.mk.inj eq).1
  by_cases same : place = other
  · subst same
    exact parts.ordered_inside hl hr used hp hq matters u (mem_places.mpr ⟨x, y, hx, hy, inPart⟩)
      v (mem_places.mpr ⟨x', y', hx', hy', inOther⟩)
  · obtain ⟨a, b, ha, hb, insideA, insideB⟩ := parts.inside hl hr used inPart
    obtain ⟨a', b', ha', hb', insideA', insideB'⟩ := parts.inside hl hr used' inOther
    have rows : place.1 ≠ other.1 := fun eq => same (Prod.ext eq ((parts.oneToOne _ used _ used').mp eq))
    have columns : place.2 ≠ other.2 := fun eq => same (Prod.ext ((parts.oneToOne _ used _ used').mpr eq) eq)
    have topP : p = left := hl.eq_root_of_children hp childX childX' ha ha' insideA insideA' rows
    have topQ : q = right :=
      hr.eq_root_of_children hq (List.mem_of_getElem? hy) (List.mem_of_getElem? hy') hb hb' insideB insideB' columns
    subst topP
    subst topQ
    rw [hl.children_disjoint hx ha x.containsId_self insideA, hl.children_disjoint hx' ha' x'.containsId_self insideA',
      hr.children_disjoint hy hb y.containsId_self insideB, hr.children_disjoint hy' hb' y'.containsId_self insideB']
    rw [matters] at selectable
    exact selectable _ used _ used'

theorem Parts.glue_admissible (parts : Parts left right cells part) (hl : left.Numbered) (hr : right.Numbered)
    (selectable : Selectable (Dispatcher.isOrdered left right) cells) :
    Admissible left right (glue left right cells part) where
  root := mem_glue.mpr (.inl rfl)
  inside := by
    intro p member
    rcases mem_glue.mp member with rfl | ⟨place, used, inPart⟩
    · exact ⟨List.mem_map_of_mem left.self_mem_preorder, List.mem_map_of_mem right.self_mem_preorder⟩
    · obtain ⟨a, b, ha, hb, insideA, insideB⟩ := parts.inside hl hr used inPart
      exact ⟨hl.mem_ids.mpr (hl.containsId_trans (Tree.child_mem_preorder (List.mem_of_getElem? ha)) insideA),
        hr.mem_ids.mpr (hr.containsId_trans (Tree.child_mem_preorder (List.mem_of_getElem? hb)) insideB)⟩
  single := parts.glue_single hl hr
  parents := by
    intro p member other
    obtain ⟨place, used, inPart⟩ := (mem_glue.mp member).resolve_left other
    obtain ⟨a, b, ha, hb, admissible⟩ := parts.each place used
    have childA := List.mem_of_getElem? ha
    have childB := List.mem_of_getElem? hb
    by_cases top : p = (a.id, b.id)
    · subst top
      exact ⟨_, mem_glue.mpr (.inl rfl), ⟨left, left.self_mem_preorder, rfl, a, childA, rfl⟩,
        right, right.self_mem_preorder, rfl, b, childB, rfl⟩
    · obtain ⟨q, hq, edgeA, edgeB⟩ := admissible.parents p inPart top
      exact ⟨q, mem_glue.mpr (.inr ⟨place, used, hq⟩), edgeA.lift (Tree.child_mem_preorder childA),
        edgeB.lift (Tree.child_mem_preorder childB)⟩
  ordered := parts.glue_ordered hl hr selectable

def partAt (mapping : Mapping) (left : Node) (place : Nat × Nat) : Mapping :=
  match left.children[place.1]? with
  | some a => mapping.below a
  | none => ∅

theorem Admissible.parts (h : Admissible left right mapping) (hl : left.Numbered) (hr : right.Numbered) :
    Parts left right (mapping.places left right) (mapping.partAt left) where
  oneToOne := h.places_oneToOne hl hr
  each := by
    intro place used
    obtain ⟨a, b, ha, hb, pair⟩ := mem_places.mp used
    refine ⟨a, b, ha, hb, ?_⟩
    rw [partAt, ha]
    exact h.below hl hr (Tree.child_mem_preorder (List.mem_of_getElem? ha))
      (Tree.child_mem_preorder (List.mem_of_getElem? hb)) pair

theorem Admissible.glue_parts (h : Admissible left right mapping) (hl : left.Numbered) (hr : right.Numbered) :
    glue left right (mapping.places left right) (mapping.partAt left) = mapping := by
  ext p
  rw [mem_glue]
  constructor
  · rintro (rfl | ⟨place, used, inPart⟩)
    · exact h.root
    · obtain ⟨a, b, ha, -, -⟩ := mem_places.mp used
      rw [partAt, ha] at inPart
      exact (mem_below.mp inPart).1
  · intro member
    by_cases top : p = (left.id, right.id)
    · exact .inl top
    · obtain ⟨place, used, a, ha, inside⟩ := h.exists_place hl hr p member top
      refine .inr ⟨place, used, ?_⟩
      rw [partAt, ha]
      exact mem_below.mpr ⟨member, inside⟩

def agreementAt (mapping : Mapping) (left right : Node) (place : Nat × Nat) : Nat :=
  match left.children[place.1]?, right.children[place.2]? with
  | some a, some b => agreement a b (mapping.partAt left place)
  | _, _ => 0

theorem Admissible.agreement_eq (h : Admissible left right mapping) (hl : left.Numbered) (hr : right.Numbered) :
    agreement left right mapping =
      ∑ place ∈ mapping.places left right, mapping.agreementAt left right place + left.ownScore right := by
  have counts : ∀ place ∈ mapping.places left right, ∀ a b, left.children[place.1]? = some a →
      right.children[place.2]? = some b → agreement a b (mapping.partAt left place) =
        mapping.agreementAt left right place := by
    intro place _ a b ha hb
    rw [agreementAt, ha, hb]
  have counted := agreement_glue (h.parts hl hr) hl hr counts
  rwa [h.glue_parts hl hr] at counted

section Greatest

variable (hl : left.Numbered) (hr : right.Numbered) {weight : Nat × Nat → Nat}
  (each : ∀ place a b, left.children[place.1]? = some a → right.children[place.2]? = some b →
    IsGreatest (agreements a b) (weight place))

include each

/-- One mapping for every pair of children, which brings as many labels together as any can. -/
theorem exists_realising : ∃ part : Nat × Nat → Mapping, ∀ place a b, left.children[place.1]? = some a →
    right.children[place.2]? = some b → Admissible a b (part place) ∧ weight place = agreement a b (part place) := by
  have realised (place : Nat × Nat) : ∃ mapping, ∀ a b, left.children[place.1]? = some a →
      right.children[place.2]? = some b → Admissible a b mapping ∧ weight place = agreement a b mapping := by
    cases ha : left.children[place.1]? with
    | none => exact ⟨∅, fun a b h => nomatch h⟩
    | some a =>
      cases hb : right.children[place.2]? with
      | none => exact ⟨∅, fun a b _ h => nomatch h⟩
      | some b =>
        obtain ⟨mapping, admissible, eq⟩ := (each place a b ha hb).1
        refine ⟨mapping, ?_⟩
        rintro _ _ ⟨⟩ ⟨⟩
        exact ⟨admissible, eq⟩
  choose part realises using realised
  exact ⟨part, realises⟩

include hl hr

theorem sum_mem_agreements
    (outside : ∀ place, left.children[place.1]? = none ∨ right.children[place.2]? = none → weight place = 0)
    (selectable : Selectable (Dispatcher.isOrdered left right) cells) :
    ∑ place ∈ cells, weight place + left.ownScore right ∈ agreements left right := by
  obtain ⟨part, realises⟩ := exists_realising each
  -- Places outside the two lists of children weigh nothing and are left out.
  let used := cells.filter fun place => place.1 < left.children.length ∧ place.2 < right.children.length
  have sub : used ⊆ cells := Finset.filter_subset _ _
  have parts : Parts left right used part := by
    refine ⟨selectable.oneToOne.subset sub, ?_⟩
    intro place member
    obtain ⟨-, rows, columns⟩ := Finset.mem_filter.mp member
    have ha := List.getElem?_eq_getElem rows
    have hb := List.getElem?_eq_getElem columns
    exact ⟨_, _, ha, hb, (realises place _ _ ha hb).1⟩
  refine ⟨glue left right used part, parts.glue_admissible hl hr (selectable.subset sub), ?_⟩
  rw [agreement_glue parts hl hr fun place _ a b ha hb => (realises place a b ha hb).2.symm]
  congr 1
  refine (Finset.sum_subset sub ?_).symm
  intro place member unused
  refine outside place ?_
  rw [List.getElem?_eq_none_iff, List.getElem?_eq_none_iff]
  by_contra within
  exact unused (Finset.mem_filter.mpr ⟨member, by omega, by omega⟩)

theorem Admissible.agreement_le_sum (h : Admissible left right mapping) :
    agreement left right mapping ≤ ∑ place ∈ mapping.places left right, weight place + left.ownScore right := by
  rw [h.agreement_eq hl hr]
  apply Nat.add_le_add_right
  apply Finset.sum_le_sum
  intro place member
  obtain ⟨a, b, ha, hb, admissible⟩ := (h.parts hl hr).each place member
  rw [agreementAt, ha, hb]
  exact (each place a b ha hb).2 ⟨_, admissible, rfl⟩

/-- The most labels that mappings of two nodes bring together, from those of their children. -/
theorem isGreatest_agreements {best : Nat}
    (outside : ∀ place, left.children[place.1]? = none ∨ right.children[place.2]? = none → weight place = 0)
    (greatest : IsGreatest {w | ∃ cells, Selectable (Dispatcher.isOrdered left right) cells ∧
      w = ∑ place ∈ cells, weight place} best) :
    IsGreatest (agreements left right) (best + left.ownScore right) := by
  constructor
  · obtain ⟨cells, selectable, rfl⟩ := greatest.1
    exact sum_mem_agreements hl hr each outside selectable
  · rintro _ ⟨mapping, admissible, rfl⟩
    have bound := greatest.2 ⟨_, admissible.places_selectable hl hr, rfl⟩
    have sum := Admissible.agreement_le_sum hl hr each admissible
    omega

end Greatest

end Mapping

end TreeAlign
