import Mathlib.Algebra.BigOperators.Ring.Finset
import Mathlib.Algebra.Order.BigOperators.Group.Finset
import Mathlib.Order.Bounds.Basic
import TreeAlign.Strategy.Children

namespace TreeAlign

universe u

/-- No two of the cells share a row or a column. -/
def OneToOne (cells : Finset (Nat × Nat)) : Prop :=
  ∀ p ∈ cells, ∀ q ∈ cells, p.1 = q.1 ↔ p.2 = q.2

/-- Of any two of the cells, one lies below and to the right of the other. -/
def NonCrossing (cells : Finset (Nat × Nat)) : Prop :=
  ∀ p ∈ cells, ∀ q ∈ cells, p.1 < q.1 ↔ p.2 < q.2

theorem NonCrossing.oneToOne {cells : Finset (Nat × Nat)} (h : NonCrossing cells) : OneToOne cells := by
  intro p hp q hq
  have pq := h p hp q hq
  have qp := h q hq p hp
  omega

theorem NonCrossing.subset {cells more : Finset (Nat × Nat)} (h : NonCrossing more) (sub : cells ⊆ more) :
    NonCrossing cells :=
  fun p hp q hq => h p (sub hp) q (sub hq)

theorem OneToOne.subset {cells more : Finset (Nat × Nat)} (h : OneToOne more) (sub : cells ⊆ more) :
    OneToOne cells :=
  fun p hp q hq => h p (sub hp) q (sub hq)

def Selectable (ordered : Bool) (cells : Finset (Nat × Nat)) : Prop :=
  if ordered then NonCrossing cells else OneToOne cells

theorem Selectable.oneToOne {ordered : Bool} {cells : Finset (Nat × Nat)} (h : Selectable ordered cells) :
    OneToOne cells := by
  cases ordered with
  | false => exact h
  | true => exact NonCrossing.oneToOne h

theorem Selectable.subset {ordered : Bool} {cells more : Finset (Nat × Nat)} (h : Selectable ordered more)
    (sub : cells ⊆ more) : Selectable ordered cells := by
  cases ordered with
  | false => exact OneToOne.subset h sub
  | true => exact NonCrossing.subset h sub

/-- What a strategy may answer: `picked` holds, row by row, the cells that weigh something of a choice
that `admits`, they weigh `total`, and no choice that `admits` weighs more. -/
structure Selects {α : Type u} (admits : Finset (Nat × Nat) → Prop) (weight : α → Nat) (table : List (List α))
    (total : Nat) (picked : List α) : Prop where
  cells : ∃ places : List (Nat × Nat), places.Pairwise (fun p q => p.1 < q.1) ∧ admits places.toFinset ∧
    picked.map some = places.map (cellAt table)
  positive : ∀ a ∈ picked, 0 < weight a
  total_eq : (picked.map weight).sum = total
  best : ∀ cells, admits cells → ∑ p ∈ cells, weightAt weight table p ≤ total

theorem sum_weightAt_eq {α : Type u} {weight : α → Nat} {table : List (List α)} {places : List (Nat × Nat)}
    {picked : List α} (cells : picked.map some = places.map (cellAt table)) :
    (places.map (weightAt weight table)).sum = (picked.map weight).sum := by
  have same : places.map (weightAt weight table) = picked.map weight := by
    calc places.map (weightAt weight table)
        = (places.map (cellAt table)).map fun c => (c.map weight).getD 0 := by
          rw [List.map_map]; rfl
      _ = (picked.map some).map fun c => (c.map weight).getD 0 := by rw [cells]
      _ = picked.map weight := by rw [List.map_map]; rfl
  rw [same]

theorem Selects.isGreatest {α : Type u} {admits : Finset (Nat × Nat) → Prop} {weight : α → Nat}
    {table : List (List α)} {total : Nat} {picked : List α} (h : Selects admits weight table total picked) :
    IsGreatest {w | ∃ cells, admits cells ∧ w = ∑ p ∈ cells, weightAt weight table p} total := by
  constructor
  · obtain ⟨places, rising, admitted, same⟩ := h.cells
    refine ⟨places.toFinset, admitted, ?_⟩
    have distinct : places.Nodup := rising.imp fun lt eq => by subst eq; exact Nat.lt_irrefl _ lt
    rw [List.sum_toFinset _ distinct, sum_weightAt_eq same, h.total_eq]
  · rintro w ⟨cells, admitted, rfl⟩
    exact h.best cells admitted

end TreeAlign
