import Mathlib.Order.Bounds.Basic
import TreeAlign.Proofs.Assignment.Solve

namespace TreeAlign.Assignment

namespace Table

def weights (table : Table) : Set Nat :=
  {w | ∃ row ∈ table, w ∈ row}

/-- All rows are of one length. -/
def Even (table : Table) : Prop :=
  ∀ a ∈ table, ∀ b ∈ table, a.size = b.size

theorem width_eq {table : Table} (inhabited : 0 < table.size) : table.width = table[0].size := by
  simp [width, Array.getD, inhabited]

theorem isRagged_iff (table : Table) : table.isRagged = true ↔ ∃ a ∈ table, ∃ b ∈ table, a.size ≠ b.size := by
  simp only [isRagged, Array.any_eq_true', bne_iff_ne]
  constructor
  · rintro ⟨a, ha, other⟩
    have inhabited := Array.size_pos_of_mem ha
    rw [width_eq inhabited] at other
    exact ⟨a, ha, table[0], Array.getElem_mem inhabited, other⟩
  · rintro ⟨a, ha, b, hb, differ⟩
    by_cases same : a.size = table.width
    · exact ⟨b, hb, by omega⟩
    · exact ⟨a, ha, same⟩

theorem even_iff (table : Table) : table.Even ↔ table.isRagged = false := by
  rw [← Bool.not_eq_true, isRagged_iff]
  simp [Even]

theorem le_largest {table : Table} {w : Nat} (member : w ∈ table.weights) : w ≤ table.largest := by
  obtain ⟨row, hrow, hw⟩ := member
  rw [largest_eq]
  exact (le_foldl_max _ 0).2 w (List.mem_flatMap.mpr ⟨row, hrow.val, hw.val⟩)

theorem isGreatest_largest {table : Table} (inhabited : table.weights.Nonempty) :
    IsGreatest table.weights table.largest := by
  refine ⟨?_, fun w => le_largest⟩
  obtain ⟨w, member⟩ := inhabited
  by_contra missing
  -- Otherwise one less would bound all weights, so the largest would be zero, and so would be `w`.
  have bound : table.largest ≤ table.largest - 1 := by
    apply largest_le
    intro row hrow v hv
    have inside : v ∈ table.weights := ⟨row, ⟨hrow⟩, ⟨hv⟩⟩
    have below := le_largest inside
    have other : v ≠ table.largest := fun same => missing (same ▸ inside)
    omega
  have zero : w = table.largest := by
    have := le_largest member
    omega
  exact missing (zero ▸ member)

theorem nonempty_weights_iff {table : Table} (even : table.isRagged = false) :
    table.weights.Nonempty ↔ 0 < table.size ∧ 0 < table.width := by
  constructor
  · rintro ⟨w, row, hrow, hw⟩
    have inhabited := Array.size_pos_of_mem hrow
    have same : row.size = table[0].size :=
      (even_iff table).mpr even row hrow table[0] (Array.getElem_mem inhabited)
    have positive := Array.size_pos_of_mem hw
    rw [width_eq inhabited]
    omega
  · rintro ⟨rows, columns⟩
    rw [width_eq rows] at columns
    exact ⟨table[0][0], table[0], Array.getElem_mem rows, Array.getElem_mem columns⟩

end Table

theorem limit_eq (n : Nat) : limit n = (2 ^ 63 - 1) / (2 * (n + 1)) := rfl

theorem solve_cases (table : Table) :
    table.isRagged = true ∧ solve table = .error .ragged ∨
    table.isRagged = false ∧ table.weights.Nonempty ∧ limit (max table.size table.width) < table.largest ∧
      solve table = .error (.overflow table.largest) ∨
    table.Solvable ∧ ∃ solution, solve table = .ok solution ∧ solution.Optimal table := by
  by_cases ragged : table.isRagged = true
  · exact .inl ⟨ragged, by rw [solve, if_pos ragged]⟩
  have even : table.isRagged = false := by simpa using ragged
  by_cases solvable : table.Solvable
  · exact .inr (.inr ⟨solvable, solve_of_solvable solvable⟩)
  have heavy : 0 < table.size ∧ 0 < table.width ∧ limit (max table.size table.width) < table.largest := by
    simp only [Table.Solvable, even, true_and] at solvable
    omega
  refine .inr (.inl ⟨even, (Table.nonempty_weights_iff even).mpr ⟨heavy.1, heavy.2.1⟩, heavy.2.2, ?_⟩)
  rw [solve, if_neg ragged, if_neg (by omega)]
  exact if_pos heavy.2.2

/-- The answer to every table: what is refused and why, and what an assignment promises. -/
theorem solve_exact (table : Table) :
    (solve table = .error .ragged ↔ ∃ a ∈ table, ∃ b ∈ table, a.size ≠ b.size) ∧
    (∀ w, solve table = .error (.overflow w) ↔
      table.Even ∧ IsGreatest table.weights w ∧ (2 ^ 63 - 1) / (2 * (max table.size table.width + 1)) < w) ∧
    ((∃ solution, solve table = .ok solution) ↔
      table.Even ∧ ∀ w ∈ table.weights, w ≤ (2 ^ 63 - 1) / (2 * (max table.size table.width + 1))) ∧
    solve table ≠ .error .incomplete ∧
    ∀ solution, solve table = .ok solution → solution.Optimal table := by
  rw [← Table.isRagged_iff, ← limit_eq, Table.even_iff]
  rcases solve_cases table with ⟨ragged, run⟩ | ⟨even, inhabited, heavy, run⟩ | ⟨⟨even, small⟩, solution, run, optimal⟩
  · simp [run, ragged]
  · have greatest := Table.isGreatest_largest inhabited
    rw [run]
    refine ⟨by simp [even], fun w => ⟨?_, ?_⟩, ⟨by simp, ?_⟩, by simp, by simp⟩
    · rintro ⟨⟩
      exact ⟨even, greatest, heavy⟩
    · rintro ⟨-, other, -⟩
      rw [other.unique greatest]
    · rintro ⟨-, below⟩
      have := below _ greatest.1
      omega
  · have below : ∀ w ∈ table.weights, w ≤ limit (max table.size table.width) := by
      intro w member
      have positive := (Table.nonempty_weights_iff even).mp ⟨w, member⟩
      have := Table.le_largest member
      omega
    rw [run]
    refine ⟨by simp [even], fun w => ⟨by simp, ?_⟩, by simpa [even] using below, by simp, ?_⟩
    · rintro ⟨-, greatest, heavy⟩
      have := below w greatest.1
      omega
    · rintro _ ⟨⟩
      exact optimal

end TreeAlign.Assignment
