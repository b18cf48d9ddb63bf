import Mathlib.Data.Fintype.Card
import Mathlib.Data.List.FinRange
import TreeAlign.Strategy.Assignment

namespace TreeAlign.Assignment

variable {n : Nat} {cost : Nat → Nat → Int}

section Entries

variable {α : Type} {k : Nat}

theorem getElem_eq_get (xs : Vector α k) (i : Fin k) (bound : i.val < k) : xs[i.val] = xs.get i := rfl

@[simp]
theorem get_replicate (a : α) (i : Fin k) : (Vector.replicate k a).get i = a := by
  rw [← getElem_eq_get _ i i.isLt, Vector.getElem_replicate]

@[simp]
theorem get_ofFn (f : Fin k → α) (i : Fin k) : (Vector.ofFn f).get i = f i := by
  rw [← getElem_eq_get _ i i.isLt, Vector.getElem_ofFn]

@[simp]
theorem get_set (xs : Vector α k) (i j : Fin k) (a : α) (bound : i.val < k) :
    (xs.set i.val a bound).get j = if i = j then a else xs.get j := by
  rw [← getElem_eq_get _ j j.isLt, Vector.getElem_set, getElem_eq_get]
  simp only [Fin.val_inj]

end Entries

def Labelling.rowAt (labelling : Labelling n) (column : Fin (n + 1)) : Fin (n + 1) :=
  labelling.rowOf.get column

def Labelling.origin (labelling : Labelling n) (column : Fin (n + 1)) : Fin (n + 1) :=
  labelling.reachedFrom.get column

def Labelling.reduced (cost : Nat → Nat → Int) (labelling : Labelling n) (row column : Fin (n + 1)) : Int :=
  cost (row - 1) (column - 1) - labelling.rowPotential.get row - labelling.columnPotential.get column

/-- Potentials never exceed the cost of a cell, and make it up where a row has its column. -/
structure Labelling.Balanced (cost : Nat → Nat → Int) (labelling : Labelling n) : Prop where
  feasible : ∀ row column : Fin (n + 1), row ≠ 0 → column ≠ 0 → 0 ≤ labelling.reduced cost row column
  tight : ∀ column : Fin (n + 1), column ≠ 0 → labelling.rowAt column ≠ 0 →
    labelling.reduced cost (labelling.rowAt column) column = 0

/-- The rows `1`, …, `count`, and no others, have one column each. -/
structure Labelling.Assigned (cost : Nat → Nat → Int) (count : Nat) (labelling : Labelling n) : Prop
    extends labelling.Balanced cost where
  injective : ∀ c d : Fin (n + 1), c ≠ 0 → d ≠ 0 → labelling.rowAt c ≠ 0 →
    labelling.rowAt c = labelling.rowAt d → c = d
  bounded : ∀ c : Fin (n + 1), c ≠ 0 → (labelling.rowAt c).val ≤ count
  onto : ∀ row : Fin (n + 1), row ≠ 0 → row.val ≤ count → ∃ c : Fin (n + 1), c ≠ 0 ∧ labelling.rowAt c = row

theorem Labelling.start_assigned (nonnegative : ∀ i j, 0 ≤ cost i j) : (start n).Assigned cost 0 where
  feasible := by
    intro row column _ _
    simp [reduced, start, nonnegative]
  tight := by
    intro column _ assigned
    simp [start, rowAt] at assigned
  injective := by
    intro c d _ _ assigned
    simp [start, rowAt] at assigned
  bounded := by simp [start, rowAt]
  onto := by
    intro row nonzero zero
    exact absurd (Fin.ext (Nat.le_zero.mp zero)) nonzero

theorem Labelling.Assigned.exists_free {count : Nat} {labelling : Labelling n}
    (assigned : labelling.Assigned cost count) (fewer : count < n) :
    ∃ c : Fin (n + 1), c ≠ 0 ∧ labelling.rowAt c = 0 := by
  by_contra full
  push Not at full
  -- Otherwise the columns `1`, …, `n` would have different rows among `1`, …, `count`.
  let rowBelow (c : Fin n) : Fin count :=
    ⟨(labelling.rowAt c.succ).val - 1, by
      have := assigned.bounded c.succ (Fin.succ_ne_zero c)
      have := Fin.pos_iff_ne_zero.mpr (full c.succ (Fin.succ_ne_zero c))
      rw [Fin.lt_def] at this
      simp only [Fin.val_zero] at this
      omega⟩
  have injective : Function.Injective rowBelow := by
    intro c d same
    have hc := Fin.pos_iff_ne_zero.mpr (full c.succ (Fin.succ_ne_zero c))
    have hd := Fin.pos_iff_ne_zero.mpr (full d.succ (Fin.succ_ne_zero d))
    rw [Fin.lt_def, Fin.val_zero] at hc hd
    have rows : labelling.rowAt c.succ = labelling.rowAt d.succ := by
      have := congrArg Fin.val same
      simp only [rowBelow] at this
      exact Fin.ext (by omega)
    exact Fin.succ_injective n (assigned.injective c.succ d.succ (Fin.succ_ne_zero c) (Fin.succ_ne_zero d)
      (full c.succ (Fin.succ_ne_zero c)) rows)
  have := Fintype.card_le_of_injective rowBelow injective
  rw [Fintype.card_fin, Fintype.card_fin] at this
  omega

/-- Columns in the order of their visits, the last first: every column but column 0 was reached from an
earlier one, whose row could take it at no more than the potentials. -/
inductive Labelling.Traced (cost : Nat → Nat → Int) (labelling : Labelling n) : List (Fin (n + 1)) → Prop
  | start : Traced cost labelling [0]
  | step {trail : List (Fin (n + 1))} {column : Fin (n + 1)} (earlier : Traced cost labelling trail)
    (new : column ∉ trail) (reached : labelling.origin column ∈ trail)
    (tight : labelling.reduced cost (labelling.rowAt (labelling.origin column)) column = 0) :
    Traced cost labelling (column :: trail)

theorem Labelling.Traced.nodup {labelling : Labelling n} {trail : List (Fin (n + 1))}
    (traced : labelling.Traced cost trail) : trail.Nodup := by
  induction traced with
  | start => exact List.nodup_singleton 0
  | step _ new _ _ ih => exact List.nodup_cons.mpr ⟨new, ih⟩

theorem Labelling.Traced.zero_mem {labelling : Labelling n} {trail : List (Fin (n + 1))}
    (traced : labelling.Traced cost trail) : 0 ∈ trail := by
  induction traced with
  | start => exact List.mem_singleton.mpr rfl
  | step _ _ _ _ ih => exact List.mem_cons_of_mem _ ih

theorem Labelling.Traced.transfer {labelling other : Labelling n} {trail : List (Fin (n + 1))}
    (traced : labelling.Traced cost trail) (rows : other.rowAt = labelling.rowAt)
    (reached : ∀ c ∈ trail, c ≠ 0 → other.origin c = labelling.origin c)
    (same : ∀ c ∈ trail, ∀ d ∈ trail, other.reduced cost (labelling.rowAt c) d =
      labelling.reduced cost (labelling.rowAt c) d) : other.Traced cost trail := by
  induction traced with
  | start => exact .start
  | @step trail column earlier new from_trail tight ih =>
    have nonzero : column ≠ 0 := fun zero => new (zero ▸ earlier.zero_mem)
    have from_same := reached column List.mem_cons_self nonzero
    refine .step (ih (fun c member => reached c (List.mem_cons_of_mem _ member))
      (fun c hc d hd => same c (List.mem_cons_of_mem _ hc) d (List.mem_cons_of_mem _ hd))) new ?_ ?_
    · rw [from_same]; exact from_trail
    · rw [from_same, rows, same _ (List.mem_cons_of_mem _ from_trail) column List.mem_cons_self]
      exact tight

end TreeAlign.Assignment
