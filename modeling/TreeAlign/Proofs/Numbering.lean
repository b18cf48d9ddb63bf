import Mathlib.Algebra.Order.BigOperators.Group.List
import Mathlib.Algebra.Order.Ring.Nat
import Mathlib.Data.List.Nodup
import TreeAlign.Tree.Node

namespace TreeAlign.Tree

universe u

variable {α : Type u}

@[elab_as_elim]
theorem childInduction {motive : Tree α → Prop} (step : ∀ t : Tree α, (∀ c ∈ t.children, motive c) → motive t)
    (t : Tree α) : motive t := by
  obtain ⟨value, children⟩ := t
  refine step _ fun c member => ?_
  have smaller : sizeOf c < sizeOf children := List.sizeOf_lt_of_mem member
  exact childInduction step c
termination_by sizeOf t
decreasing_by simp_wf; omega

theorem preorders_eq_flatMap (ts : List (Tree α)) : preorders ts = ts.flatMap preorder := by
  induction ts with
  | nil => rfl
  | cons t ts ih => simp [preorders, ih]

theorem sizes_eq_sum (ts : List (Tree α)) : sizes ts = (ts.map size).sum := by
  induction ts with
  | nil => rfl
  | cons t ts ih => simp [sizes, ih]

theorem preorder_eq (t : Tree α) : t.preorder = t :: t.children.flatMap preorder := by
  cases t with
  | node value children => rw [preorder, preorders_eq_flatMap]; rfl

theorem size_eq (t : Tree α) : t.size = (t.children.map size).sum + 1 := by
  cases t with
  | node value children => rw [size, sizes_eq_sum]; rfl

theorem size_pos (t : Tree α) : 0 < t.size := by
  rw [size_eq]; omega

theorem length_preorder (t : Tree α) : t.preorder.length = t.size := by
  induction t using childInduction with
  | step t ih =>
    rw [preorder_eq, size_eq, List.length_cons, List.length_flatMap]
    have each : t.children.map (fun c => c.preorder.length) = t.children.map size := List.map_congr_left ih
    rw [each]

theorem self_mem_preorder (t : Tree α) : t ∈ t.preorder := by
  rw [preorder_eq]; exact List.mem_cons_self

theorem mem_preorder_iff {t x : Tree α} : x ∈ t.preorder ↔ x = t ∨ ∃ c ∈ t.children, x ∈ c.preorder := by
  rw [preorder_eq, List.mem_cons, List.mem_flatMap]

theorem mem_preorder_of_child {t c x : Tree α} (child : c ∈ t.children) (member : x ∈ c.preorder) :
    x ∈ t.preorder :=
  mem_preorder_iff.mpr (.inr ⟨c, child, member⟩)

theorem child_mem_preorder {t c : Tree α} (child : c ∈ t.children) : c ∈ t.preorder :=
  mem_preorder_of_child child c.self_mem_preorder

theorem mem_preorder_trans {x y t : Tree α} (inner : x ∈ y.preorder) (outer : y ∈ t.preorder) :
    x ∈ t.preorder := by
  induction t using childInduction with
  | step t ih =>
    rcases mem_preorder_iff.mp outer with rfl | ⟨c, child, below⟩
    · exact inner
    · exact mem_preorder_of_child child (ih c child below)

theorem size_lt_of_child {t c : Tree α} (child : c ∈ t.children) : c.size < t.size := by
  rw [size_eq t]
  have bound : c.size ≤ (t.children.map size).sum := List.le_sum_of_mem (List.mem_map_of_mem child)
  omega

theorem size_le_of_mem {t x : Tree α} (member : x ∈ t.preorder) : x.size ≤ t.size := by
  induction t using childInduction with
  | step t ih =>
    rcases mem_preorder_iff.mp member with rfl | ⟨c, child, below⟩
    · exact Nat.le_refl _
    · exact Nat.le_trans (ih c child below) (Nat.le_of_lt (size_lt_of_child child))

theorem length_children_lt_size (t : Tree α) : t.children.length < t.size := by
  have each : ∀ n ∈ t.children.map size, 1 ≤ n := by
    intro n member
    obtain ⟨c, -, rfl⟩ := List.mem_map.mp member
    exact c.size_pos
  have bound := List.length_le_sum_of_one_le _ each
  rw [List.length_map] at bound
  rw [size_eq]
  omega

/-- The identities at and below a node are consecutive in pre-order. -/
def Numbered (t : Node) : Prop :=
  t.preorder.map id = List.range' t.id t.size

instance (t : Node) : Decidable t.Numbered :=
  inferInstanceAs (Decidable (_ = _))

def NumberedFrom (first : NodeId) (ts : List Node) : Prop :=
  (ts.flatMap preorder).map id = List.range' first (ts.map size).sum

theorem numberedFrom_cons {first : NodeId} {t : Node} {ts : List Node} :
    NumberedFrom first (t :: ts) ↔ t.id = first ∧ t.Numbered ∧ NumberedFrom (first + t.size) ts := by
  have split : List.range' first (t.size + (ts.map size).sum) =
      List.range' first t.size ++ List.range' (first + t.size) (ts.map size).sum := by
    rw [List.range'_append_1]
  have lengths : (t.preorder.map id).length = (List.range' first t.size).length := by
    rw [List.length_map, length_preorder, List.length_range']
  constructor
  · intro numbered
    simp only [NumberedFrom, List.flatMap_cons, List.map_append, List.map_cons, List.sum_cons, split] at numbered
    obtain ⟨head, tail⟩ := List.append_inj numbered lengths
    have start : t.id = first := by
      obtain ⟨size, positive⟩ : ∃ size, t.size = size + 1 := ⟨t.size - 1, by have := t.size_pos; omega⟩
      rw [preorder_eq, positive, List.range'_succ, List.map_cons, List.cons.injEq] at head
      exact head.1
    exact ⟨start, by rw [Numbered, start, head], tail⟩
  · rintro ⟨rfl, head, tail⟩
    simp only [NumberedFrom, List.flatMap_cons, List.map_append, List.map_cons, List.sum_cons, split]
    rw [head, tail]

theorem numbered_iff {t : Node} : t.Numbered ↔ NumberedFrom (t.id + 1) t.children := by
  simp only [Numbered, NumberedFrom]
  rw [preorder_eq, size_eq, List.range'_succ, List.map_cons, List.cons.injEq]
  simp

theorem NumberedFrom.of_mem {first : NodeId} {ts : List Node} (numbered : NumberedFrom first ts) {t : Node}
    (member : t ∈ ts) : t.Numbered ∧ first ≤ t.id ∧ t.id + t.size ≤ first + (ts.map size).sum := by
  induction ts generalizing first with
  | nil => cases member
  | cons s ts ih =>
    obtain ⟨rfl, head, tail⟩ := numberedFrom_cons.mp numbered
    rw [List.map_cons, List.sum_cons]
    rcases List.mem_cons.mp member with rfl | member
    · exact ⟨head, Nat.le_refl _, by lia⟩
    · obtain ⟨inner, low, high⟩ := ih tail member
      exact ⟨inner, by lia, by lia⟩

theorem NumberedFrom.pairwise {first : NodeId} {ts : List Node} (numbered : NumberedFrom first ts) :
    ts.Pairwise fun a b => a.id + a.size ≤ b.id := by
  induction ts generalizing first with
  | nil => exact .nil
  | cons s ts ih =>
    obtain ⟨rfl, -, tail⟩ := numberedFrom_cons.mp numbered
    exact .cons (fun b member => (tail.of_mem member).2.1) (ih tail)

theorem Numbered.child {t c : Node} (numbered : t.Numbered) (child : c ∈ t.children) : c.Numbered :=
  ((numbered_iff.mp numbered).of_mem child).1

theorem Numbered.child_range {t c : Node} (numbered : t.Numbered) (child : c ∈ t.children) :
    t.id < c.id ∧ c.id + c.size ≤ t.id + t.size := by
  obtain ⟨-, low, high⟩ := (numbered_iff.mp numbered).of_mem child
  rw [size_eq t]
  lia

theorem Numbered.below {t x : Node} (numbered : t.Numbered) (member : x ∈ t.preorder) : x.Numbered := by
  induction t using childInduction with
  | step t ih =>
    rcases mem_preorder_iff.mp member with rfl | ⟨c, child, below⟩
    · exact numbered
    · exact ih c child (numbered.child child) below

theorem Numbered.nodup {t : Node} (numbered : t.Numbered) : (t.preorder.map id).Nodup := by
  rw [numbered]; exact List.nodup_range'

theorem Numbered.mem_ids {t : Node} (numbered : t.Numbered) {i : NodeId} :
    i ∈ t.preorder.map id ↔ t.containsId i = true := by
  rw [numbered, List.mem_range'_1]
  simp [containsId]

theorem Numbered.containsId_of_mem {t x : Node} (numbered : t.Numbered) (member : x ∈ t.preorder) :
    t.containsId x.id = true :=
  numbered.mem_ids.mp (List.mem_map_of_mem member)

theorem Numbered.eq_of_id_eq {t x y : Node} (numbered : t.Numbered) (hx : x ∈ t.preorder) (hy : y ∈ t.preorder)
    (same : x.id = y.id) : x = y :=
  List.inj_on_of_nodup_map numbered.nodup hx hy same

theorem containsId_iff {t : Node} {i : NodeId} : t.containsId i = true ↔ t.id ≤ i ∧ i < t.id + t.size := by
  simp [containsId]

theorem containsId_self (t : Node) : t.containsId t.id = true :=
  containsId_iff.mpr ⟨Nat.le_refl _, by have := t.size_pos; lia⟩

theorem Numbered.containsId_trans {t x : Node} (numbered : t.Numbered) (below : x ∈ t.preorder) {i : NodeId}
    (inside : x.containsId i = true) : t.containsId i = true := by
  obtain ⟨y, hy, rfl⟩ := List.mem_map.mp ((numbered.below below).mem_ids.mpr inside)
  exact numbered.containsId_of_mem (mem_preorder_trans hy below)

theorem Numbered.not_containsId_child {t c : Node} (numbered : t.Numbered) (child : c ∈ t.children) :
    ¬ c.containsId t.id = true := by
  have range := numbered.child_range child
  rw [containsId_iff]
  lia

theorem Numbered.children_lt {t a b : Node} (numbered : t.Numbered) {i j : Nat}
    (hi : t.children[i]? = some a) (hj : t.children[j]? = some b) (lt : i < j) : a.id + a.size ≤ b.id := by
  obtain ⟨boundI, rfl⟩ := List.getElem?_eq_some_iff.mp hi
  obtain ⟨boundJ, rfl⟩ := List.getElem?_eq_some_iff.mp hj
  exact List.pairwise_iff_getElem.mp (numbered_iff.mp numbered).pairwise i j boundI boundJ lt

theorem Numbered.nodup_children {t : Node} (numbered : t.Numbered) : (t.children.map id).Nodup := by
  rw [List.Nodup, List.pairwise_map]
  apply (numbered_iff.mp numbered).pairwise.imp
  intro a b after
  have := a.size_pos
  lia

theorem Numbered.children_disjoint {t a b : Node} (numbered : t.Numbered) {i j : Nat} {k : NodeId}
    (hi : t.children[i]? = some a) (hj : t.children[j]? = some b)
    (inA : a.containsId k = true) (inB : b.containsId k = true) : i = j := by
  rw [containsId_iff] at inA inB
  rcases Nat.lt_trichotomy i j with lt | same | gt
  · have := numbered.children_lt hi hj lt
    lia
  · exact same
  · have := numbered.children_lt hj hi gt
    lia

theorem find?_eq_some {t x : Node} (numbered : t.Numbered) (member : x ∈ t.preorder) :
    t.find? x.id = some x := by
  unfold find?
  cases found : t.preorder.find? (·.id == x.id) with
  | none =>
    have := List.find?_eq_none.mp found x member
    simp at this
  | some y =>
    have same : y.id = x.id := by simpa using List.find?_some found
    rw [numbered.eq_of_id_eq (List.mem_of_find?_eq_some found) member same]

mutual

theorem size_number (t : Outline) (first : NodeId) : (t.number first).size = t.size := by
  cases t with
  | node value children => simp [number, size, sizes_numbers children]

theorem sizes_numbers (ts : List Outline) (first : NodeId) : sizes (numbers first ts) = sizes ts := by
  cases ts with
  | nil => rfl
  | cons t ts => simp [numbers, sizes, size_number t, sizes_numbers ts]

end

mutual

theorem number_numbered (t : Outline) (first : NodeId) :
    (t.number first).id = first ∧ (t.number first).Numbered := by
  cases t with
  | node value children =>
    exact ⟨rfl, numbered_iff.mpr (numbers_numberedFrom children (first + 1))⟩

theorem numbers_numberedFrom (ts : List Outline) (first : NodeId) : NumberedFrom first (numbers first ts) := by
  cases ts with
  | nil => rfl
  | cons t ts =>
    refine numberedFrom_cons.mpr ⟨(number_numbered t first).1, (number_numbered t first).2, ?_⟩
    rw [size_number]
    exact numbers_numberedFrom ts (first + t.size)

end

theorem numbered_of_mem_numberAll {first : NodeId} {outlines : List Outline} {t x : Node}
    (tree : t ∈ numberAll first outlines) (below : x ∈ t.preorder) : x.Numbered :=
  ((numbers_numberedFrom outlines first).of_mem tree).1.below below

end TreeAlign.Tree
