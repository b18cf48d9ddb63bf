import TreeAlign.Proofs.Assignment.Solve
import TreeAlign.Strategy.Pairing

namespace TreeAlign.Pairing

theorem weight_weights (table : List (List Answer)) (p : Nat × Nat) :
    (weights table).weight p.1 p.2 = weightAt Answer.score table p := by
  rw [Assignment.Table.weight_eq, weights, weightAt, cellAt]
  simp only [List.getElem?_toArray, List.getElem?_map]
  cases table[p.1]? with
  | none => rfl
  | some row =>
    simp only [Option.map_some, Option.getD_some, Option.bind_some, List.getElem?_toArray, List.getElem?_map]

theorem picked_eq_filterMap (table : List (List Answer)) (pairs : List (Nat × Nat)) :
    picked table pairs = pairs.filterMap fun p => (cellAt table p).filter (0 < ·.score) := rfl

theorem picked_eq (table : List (List Answer)) (pairs : List (Nat × Nat)) :
    (picked table pairs).map some =
      (pairs.filter fun p => 0 < weightAt Answer.score table p).map (cellAt table) := by
  rw [picked_eq_filterMap]
  induction pairs with
  | nil => rfl
  | cons p pairs ih =>
    rw [List.filterMap_cons, List.filter_cons, weightAt]
    cases found : cellAt table p with
    | none => exact ih
    | some a =>
      by_cases positive : 0 < a.score
      · simp only [Option.filter_some, positive, decide_true, if_true, List.map_cons, ih, Option.map_some,
          Option.getD_some, found]
      · simp only [Option.filter_some, positive, decide_false, Bool.false_eq_true, if_false, ih, Option.map_some,
          Option.getD_some]

theorem selects_of_solve {table : List (List Answer)} {solution : Assignment.Solution}
    (h : Assignment.solve (weights table) = .ok solution) :
    Selects OneToOne Answer.score table solution.objective (picked table solution.pairs) := by
  have optimal := Assignment.solve_optimal h
  have same := picked_eq table solution.pairs
  refine ⟨⟨_, optimal.rising.filter _, ?_, same⟩, ?_, ?_, fun cells single => ?_⟩
  · refine optimal.oneToOne.subset fun p member => ?_
    rw [List.mem_toFinset] at member ⊢
    exact List.mem_of_mem_filter member
  · intro a member
    rw [picked_eq_filterMap] at member
    obtain ⟨p, -, found⟩ := List.mem_filterMap.mp member
    exact of_decide_eq_true (Option.filter_eq_some_iff.mp found).2
  · rw [← sum_weightAt_eq same, optimal.objective_eq]
    -- The cells that are left out weigh nothing.
    induction solution.pairs with
    | nil => rfl
    | cons p pairs ih =>
      rw [List.filter_cons, List.map_cons, List.sum_cons, weight_weights]
      split
      · rw [List.map_cons, List.sum_cons, ih]
      · rename_i nothing
        have zero : weightAt Answer.score table p = 0 := by simpa using nothing
        rw [ih, zero, Nat.zero_add]
  · have best := optimal.best cells single
    rwa [Finset.sum_congr rfl fun p _ => weight_weights table p] at best

theorem size_weights {table : List (List Answer)} {width : Nat} (wide : ∀ row ∈ table, row.length = width) :
    ∀ row ∈ (weights table).toList, row.size = width := by
  intro row member
  obtain ⟨answers, hanswers, rfl⟩ := List.mem_map.mp member
  rw [List.size_toArray, List.length_map]
  exact wide answers hanswers

theorem width_weights {table : List (List Answer)} {width : Nat} (wide : ∀ row ∈ table, row.length = width) :
    (weights table).size = 0 ∨ (weights table).width = width := by
  cases table with
  | nil => exact .inl rfl
  | cons row table => exact .inr (size_weights wide _ List.mem_cons_self)

theorem even_weights {table : List (List Answer)} {width : Nat} (wide : ∀ row ∈ table, row.length = width) :
    (weights table).isRagged = false := by
  rw [Assignment.Table.isRagged, Array.any_eq_false]
  intro i bound
  have size : (weights table)[i].size = width := size_weights wide _ (Array.getElem_mem_toList bound)
  rcases width_weights wide with empty | same
  · omega
  · simp [size, same]

/-- Weights below `2 ^ 31` in a table with fewer than `2 ^ 31` rows and columns are within the limit. -/
theorem solvable_weights {table : List (List Answer)} {width : Nat} (wide : ∀ row ∈ table, row.length = width)
    (rows : table.length < 2 ^ 31) (columns : width < 2 ^ 31)
    (small : ∀ row ∈ table, ∀ a ∈ row, a.score < 2 ^ 31) : (weights table).Solvable := by
  have largest : (weights table).largest ≤ 2 ^ 31 - 1 := by
    refine Assignment.Table.largest_le fun row member w hw => ?_
    obtain ⟨answers, hanswers, rfl⟩ := List.mem_map.mp member
    obtain ⟨a, ha, rfl⟩ := List.mem_map.mp hw
    have := small answers hanswers a ha
    omega
  refine ⟨even_weights wide, ?_⟩
  rcases width_weights wide with empty | same
  · exact .inl empty
  · refine .inr (.inr (Nat.le_trans largest ?_))
    have count : (weights table).size = table.length := by simp [weights]
    have few : max (weights table).size (weights table).width + 1 ≤ 2 ^ 31 := by
      rw [count, same]
      omega
    rw [Assignment.limit, Nat.le_div_iff_mul_le (by omega)]
    calc (2 ^ 31 - 1) * (2 * (max (weights table).size (weights table).width + 1))
        ≤ (2 ^ 31 - 1) * (2 * 2 ^ 31) := Nat.mul_le_mul_left _ (Nat.mul_le_mul_left _ few)
      _ ≤ 2 ^ 63 - 1 := by decide

end TreeAlign.Pairing
