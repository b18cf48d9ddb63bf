import TreeAlign.Proofs.Assignment.Augment

namespace TreeAlign.Assignment

variable {n : Nat} {cost : Nat → Nat → Int} {bound low : Int}

structure Labelling.Signed (last : Nat) (labelling : Labelling n) : Prop where
  row_nonneg : ∀ row, 0 ≤ labelling.rowPotential.get row
  row_later : ∀ row : Fin (n + 1), row = 0 ∨ last < row.val → labelling.rowPotential.get row = 0
  column_nonpos : ∀ c, labelling.columnPotential.get c ≤ 0
  column_free : ∀ c, c ≠ 0 → labelling.rowAt c = 0 → labelling.columnPotential.get c = 0

/-- A search for `row` takes from column 0 what it gives to the row. -/
structure Search.Paced (low : Int) (row : Fin (n + 1)) (search : Search n) : Prop
    extends search.Signed row.val where
  first : search.rowAt 0 = row
  rows_le : ∀ c, (search.rowAt c).val ≤ row.val
  moved : low ≤ search.columnPotential.get 0 + search.rowPotential.get row

theorem Labelling.start_signed : (start n).Signed 0 where
  row_nonneg := by simp [start]
  row_later := by simp [start]
  column_nonpos := by simp [start]
  column_free := by simp [start]

section Step

variable {search : Search n} {trail : List (Fin (n + 1))} {row : Fin (n + 1)}

theorem Search.start_paced {labelling : Labelling n} {count : Nat} (assigned : labelling.Assigned cost count)
    (signed : labelling.Signed count) (moved : low ≤ labelling.columnPotential.get 0) (new : row.val = count + 1) :
    (start labelling row).Paced low row where
  row_nonneg := signed.row_nonneg
  row_later := by
    intro r later
    apply signed.row_later r
    omega
  column_nonpos := signed.column_nonpos
  column_free := by
    intro c nonzero free
    rw [rowAt_start labelling row nonzero] at free
    exact signed.column_free c nonzero free
  first := rowAt_start_zero labelling row
  rows_le := by
    intro c
    by_cases zero : c = 0
    · rw [zero, rowAt_start_zero]
    · rw [rowAt_start labelling row zero]
      have := assigned.bounded c zero
      omega
  moved := by
    have untouched : labelling.rowPotential.get row = 0 := signed.row_later row (.inr (by omega))
    change low ≤ labelling.columnPotential.get 0 + labelling.rowPotential.get row
    omega

theorem Search.Paced.shift (paced : search.Paced low row) (swept : search.Swept cost trail) (column : Fin (n + 1))
    {delta : Int} (nonneg : 0 ≤ delta) : (search.shift column delta).Paced low row := by
  have rows := rowPotential_shift swept.toConsistent column delta
  have columns := columnPotential_shift swept.toConsistent column delta
  constructor
  · constructor
    · intro r
      have before := paced.row_nonneg r
      rw [rows]
      split <;> omega
    · intro r later
      have untouched : ¬ ∃ c ∈ trail, search.rowAt c = r := by
        rintro ⟨c, member, held⟩
        have nonzero := swept.rows c member
        have before := paced.rows_le c
        rw [held] at nonzero before
        rcases later with zero | later
        · exact nonzero zero
        · omega
      rw [rows, if_neg untouched, paced.row_later r later]
      rfl
    · intro c
      have before := paced.column_nonpos c
      rw [columns]
      split <;> omega
    · intro c nonzero free
      have outside : c ∉ trail := fun member => swept.rows c member free
      rw [columns, if_neg outside, paced.column_free c nonzero free]
      rfl
  · exact paced.first
  · exact paced.rows_le
  · have start : 0 ∈ trail := swept.traced.zero_mem
    have before := paced.moved
    rw [rows, columns, if_pos start, if_pos ⟨0, start, paced.first⟩]
    omega

theorem Search.augment_potentials (search : Search n) (steps : Nat) :
    (search.augment steps).rowPotential = search.rowPotential ∧
      (search.augment steps).columnPotential = search.columnPotential := by
  induction steps generalizing search with
  | zero => exact ⟨rfl, rfl⟩
  | succ steps ih =>
    rw [augment]
    split
    · exact ⟨rfl, rfl⟩
    · exact ih _

theorem Labelling.Traced.origin_mem {labelling : Labelling n} {trail : List (Fin (n + 1))}
    (traced : labelling.Traced cost trail) {c : Fin (n + 1)} (member : c ∈ trail) (nonzero : c ≠ 0) :
    labelling.origin c ∈ trail.tail := by
  induction traced with
  | start => exact absurd (List.mem_singleton.mp member) nonzero
  | step _ _ reached _ ih =>
    rcases List.mem_cons.mp member with rfl | member
    · exact reached
    · exact List.mem_of_mem_tail (ih member)

theorem Search.Growing.rowAt_of_augment (grown : search.Growing cost trail) (nonzero : search.column ≠ 0)
    {c : Fin (n + 1)} (hc : c ≠ 0) (free : (search.augment (n + 1)).rowAt c = 0) : search.rowAt c = 0 := by
  obtain ⟨rest, way, sub, short⟩ := grown.exists_way
  have handed : (search.augment (n + 1)).rowAt c = search.rowAt (after (search.column :: rest) c) :=
    (@augment_spec n cost search rest way nonzero (n + 1) short).1 c
  rw [free] at handed
  by_cases onWay : c ∈ search.column :: rest
  · have source : search.origin c ∈ trail := grown.traced.origin_mem (sub onWay) hc
    rw [way.after_eq onWay hc] at handed
    exact absurd handed.symm (grown.rows _ source)
  · rw [after_of_notMem onWay] at handed
    exact handed.symm

theorem Search.Paced.augment (paced : search.Paced low row) (grown : search.Growing cost trail)
    (nonzero : search.column ≠ 0) : (search.augment (n + 1)).Signed row.val := by
  obtain ⟨rows, columns⟩ := search.augment_potentials (n + 1)
  constructor
  · rw [rows]
    exact paced.row_nonneg
  · rw [rows]
    exact paced.row_later
  · rw [columns]
    exact paced.column_nonpos
  · intro c hc free
    rw [columns]
    exact paced.column_free c hc (grown.rowAt_of_augment nonzero hc free)

theorem Search.Paced.row_le (paced : search.Paced low row) (balanced : search.Balanced cost)
    (costs : ∀ i j, 0 ≤ cost i j ∧ cost i j ≤ bound) {free : Fin (n + 1)} (nonzero : free ≠ 0)
    (isFree : search.rowAt free = 0) (r : Fin (n + 1)) : search.rowPotential.get r ≤ bound := by
  have upper := (costs (r - 1) (free - 1)).2
  by_cases zero : r = 0
  · have := (costs 0 0).1
    have := (costs 0 0).2
    rw [paced.row_later r (.inl zero)]
    omega
  · have feasible := balanced.feasible r free zero nonzero
    have untouched := paced.column_free free nonzero isFree
    rw [Labelling.reduced] at feasible
    omega

theorem Search.Paced.le_column (paced : search.Paced low row) (balanced : search.Balanced cost)
    (costs : ∀ i j, 0 ≤ cost i j ∧ cost i j ≤ bound) (rows : ∀ r, search.rowPotential.get r ≤ bound)
    {c : Fin (n + 1)} (nonzero : c ≠ 0) : -bound ≤ search.columnPotential.get c := by
  have := (costs 0 0).1
  have := (costs 0 0).2
  by_cases free : search.rowAt c = 0
  · rw [paced.column_free c nonzero free]
    omega
  · have tight := balanced.tight c nonzero free
    have := (costs (search.rowAt c - 1) (c - 1)).1
    have := rows (search.rowAt c)
    rw [Labelling.reduced] at tight
    omega

end Step

/-- A number strictly between the least and the largest 64-bit integer. -/
def Inner (x : Int) : Prop :=
  Int64.minValue.toInt < x ∧ x < Int64.maxValue.toInt

instance (x : Int) : Decidable (Inner x) :=
  inferInstanceAs (Decidable (_ ∧ _))

theorem inner_of_le {x : Int} (lower : -2 ^ 62 ≤ x) (upper : x ≤ 2 ^ 62) : Inner x := by
  rw [Inner, Int64.toInt_minValue, Int64.toInt_maxValue]
  omega

structure Labelling.Ranged (cost : Nat → Nat → Int) (labelling : Labelling n) : Prop where
  row : ∀ r, Inner (labelling.rowPotential.get r)
  column : ∀ c, Inner (labelling.columnPotential.get c)
  cell : ∀ r c : Fin (n + 1), Inner (cost (r - 1) (c - 1))
  less_row : ∀ r c : Fin (n + 1), Inner (cost (r - 1) (c - 1) - labelling.rowPotential.get r)
  reduced : ∀ r c, c ≠ 0 → Inner (labelling.reduced cost r c)

/-- Costs from zero to a bound so small that the potentials of all rows are inner numbers, also after all
but `low` was taken from column 0. -/
structure Bounded (cost : Nat → Nat → Int) (bound low : Int) : Prop where
  costs : ∀ i j, 0 ≤ cost i j ∧ cost i j ≤ bound
  room : 2 * bound ≤ 2 ^ 62
  below : -2 ^ 62 ≤ low - bound

theorem Search.Paced.ranged {search : Search n} {row : Fin (n + 1)} (paced : search.Paced low row)
    (balanced : search.Balanced cost) (bounded : Bounded cost bound low) {free : Fin (n + 1)} (nonzero : free ≠ 0)
    (isFree : search.rowAt free = 0) : search.Ranged cost := by
  obtain ⟨costs, room, below⟩ := bounded
  have rows := paced.row_le balanced costs nonzero isFree
  have columns (c : Fin (n + 1)) (hc : c ≠ 0) := paced.le_column balanced costs rows hc
  have cells (r c : Fin (n + 1)) := costs (r - 1) (c - 1)
  constructor
  · intro r
    have := paced.row_nonneg r
    have := rows r
    apply inner_of_le <;> omega
  · intro c
    have := paced.column_nonpos c
    by_cases zero : c = 0
    · have := paced.moved
      have := rows row
      subst zero
      apply inner_of_le <;> omega
    · have := columns c zero
      apply inner_of_le <;> omega
  · intro r c
    have := cells r c
    apply inner_of_le <;> omega
  · intro r c
    have := cells r c
    have := paced.row_nonneg r
    have := rows r
    apply inner_of_le <;> omega
  · intro r c hc
    have := cells r c
    have := paced.row_nonneg r
    have := rows r
    have := paced.column_nonpos c
    have := columns c hc
    rw [Labelling.reduced]
    apply inner_of_le <;> omega

end TreeAlign.Assignment
