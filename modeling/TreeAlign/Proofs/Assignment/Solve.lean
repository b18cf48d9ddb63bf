import Mathlib.Algebra.BigOperators.Fin
import Mathlib.Data.Fintype.Sum
import TreeAlign.Proofs.Assignment.Augment
import TreeAlign.Proofs.Selection

namespace TreeAlign.Assignment

variable {n : Nat} {cost : Nat → Nat → Int}

theorem Labelling.Assigned.exists_perm {labelling : Labelling n} (assigned : labelling.Assigned cost n) :
    ∃ σ : Equiv.Perm (Fin n), ∀ r, labelling.rowAt (σ r).succ = r.succ := by
  have column (r : Fin n) : ∃ c : Fin n, labelling.rowAt c.succ = r.succ := by
    obtain ⟨c, nonzero, held⟩ := assigned.onto r.succ (Fin.succ_ne_zero r) r.isLt
    obtain ⟨c, rfl⟩ := Fin.exists_succ_eq.mpr nonzero
    exact ⟨c, held⟩
  choose f held using column
  have injective : Function.Injective f := by
    intro r s same
    have rows : r.succ = s.succ := by rw [← held r, ← held s, same]
    exact Fin.succ_injective n rows
  exact ⟨Equiv.ofBijective f (Finite.injective_iff_bijective.mp injective), held⟩

theorem Labelling.Assigned.sum_cost_le {labelling : Labelling n} (assigned : labelling.Assigned cost n)
    {σ : Equiv.Perm (Fin n)} (held : ∀ r, labelling.rowAt (σ r).succ = r.succ) (τ : Equiv.Perm (Fin n)) :
    ∑ r : Fin n, cost r (σ r) ≤ ∑ r : Fin n, cost r (τ r) := by
  let row (r : Fin n) : Int := labelling.rowPotential.get r.succ
  let column (c : Fin n) : Int := labelling.columnPotential.get c.succ
  have total (π : Equiv.Perm (Fin n)) : ∑ r, (row r + column (π r)) = ∑ r, row r + ∑ c, column c := by
    rw [Finset.sum_add_distrib, Equiv.sum_comp π column]
  have meets (r : Fin n) : cost r (σ r) = row r + column (σ r) := by
    have tight := assigned.tight (σ r).succ (Fin.succ_ne_zero _) (by rw [held]; exact Fin.succ_ne_zero r)
    rw [held, reduced] at tight
    simp only [Fin.val_succ, Nat.add_sub_cancel] at tight
    change cost r (σ r) - row r - column (σ r) = 0 at tight
    omega
  have below (r : Fin n) : row r + column (τ r) ≤ cost r (τ r) := by
    have feasible := assigned.feasible r.succ (τ r).succ (Fin.succ_ne_zero _) (Fin.succ_ne_zero _)
    rw [reduced] at feasible
    simp only [Fin.val_succ, Nat.add_sub_cancel] at feasible
    change 0 ≤ cost r (τ r) - row r - column (τ r) at feasible
    omega
  calc ∑ r : Fin n, cost r (σ r) = ∑ r, (row r + column (σ r)) := Finset.sum_congr rfl fun r _ => meets r
    _ = ∑ r, row r + ∑ c, column c := total σ
    _ = ∑ r, (row r + column (τ r)) := (total τ).symm
    _ ≤ ∑ r : Fin n, cost r (τ r) := Finset.sum_le_sum fun r _ => below r

theorem exists_perm_extending {cells : Finset (Nat × Nat)} (single : OneToOne cells)
    (inside : ∀ p ∈ cells, p.1 < n ∧ p.2 < n) :
    ∃ σ : Equiv.Perm (Fin n), ∀ p ∈ cells, ∀ h : p.1 < n, ((σ ⟨p.1, h⟩ : Fin n) : Nat) = p.2 := by
  classical
  let rows : Finset (Fin n) := Finset.univ.filter fun r => ∃ c, (r.val, c) ∈ cells
  have column (r : Fin n) : ∃ c : Fin n, r ∈ rows → (r.val, c.val) ∈ cells := by
    by_cases used : r ∈ rows
    · obtain ⟨c, member⟩ := (Finset.mem_filter.mp used).2
      exact ⟨⟨c, (inside _ member).2⟩, fun _ => member⟩
    · exact ⟨r, fun h => absurd h used⟩
  choose f chosen using column
  have injective : Set.InjOn f rows := by
    intro r hr s hs same
    have := (single _ (chosen r hr) _ (chosen s hs)).mpr (by rw [same])
    exact Fin.ext this
  obtain ⟨g, extends_f⟩ := Finset.exists_equiv_extend_of_card_eq (t := Finset.univ) (by simp)
    (Finset.subset_univ _) injective
  refine ⟨g.trans (Equiv.subtypeUnivEquiv Finset.mem_univ), fun p member h => ?_⟩
  have used : (⟨p.1, h⟩ : Fin n) ∈ rows := Finset.mem_filter.mpr ⟨Finset.mem_univ _, p.2, member⟩
  have value : ((g ⟨p.1, h⟩ : Fin n) : Nat) = f ⟨p.1, h⟩ := congrArg Fin.val (extends_f _ used)
  exact value.trans ((single _ (chosen _ used) _ member).mp rfl)

/-- An assignment of least cost has the largest weight, also among assignments of some rows only. -/
theorem sum_weight_le {weight : Nat → Nat → Nat} {bound : Int} {σ : Equiv.Perm (Fin n)}
    (least : ∀ τ : Equiv.Perm (Fin n),
      ∑ r : Fin n, (bound - weight r (σ r)) ≤ ∑ r : Fin n, (bound - weight r (τ r)))
    {cells : Finset (Nat × Nat)} (single : OneToOne cells) (inside : ∀ p ∈ cells, p.1 < n ∧ p.2 < n) :
    ∑ p ∈ cells, weight p.1 p.2 ≤ ∑ r : Fin n, weight r (σ r) := by
  obtain ⟨τ, extending⟩ := exists_perm_extending single inside
  have completed : ∑ p ∈ cells, weight p.1 p.2 ≤ ∑ r : Fin n, weight r (τ r) := by
    let place (p : cells) : Fin n := ⟨p.1.1, (inside p.1 p.2).1⟩
    have distinct : Function.Injective place := by
      intro p q same
      have rows : p.1.1 = q.1.1 := congrArg Fin.val same
      exact Subtype.ext (Prod.ext rows ((single _ p.2 _ q.2).mp rows))
    calc ∑ p ∈ cells, weight p.1 p.2 = ∑ p : cells, weight p.1.1 p.1.2 := (Finset.sum_coe_sort cells _).symm
      _ = ∑ p : cells, weight (place p) (τ (place p)) :=
          Finset.sum_congr rfl fun p _ => by rw [extending p.1 p.2 (inside p.1 p.2).1]
      _ = ∑ r ∈ Finset.univ.map ⟨place, distinct⟩, weight r (τ r) := by
          rw [Finset.sum_map]; rfl
      _ ≤ ∑ r : Fin n, weight r (τ r) := Finset.sum_le_sum_of_subset (Finset.subset_univ _)
  have heavier : ∑ r : Fin n, weight r (τ r) ≤ ∑ r : Fin n, weight r (σ r) := by
    have := least τ
    rw [Finset.sum_sub_distrib, Finset.sum_sub_distrib] at this
    have : (∑ r : Fin n, (weight r (τ r) : Int)) ≤ ∑ r : Fin n, (weight r (σ r) : Int) := by omega
    exact_mod_cast this
  exact Nat.le_trans completed heavier

def readColumns (σ : Equiv.Perm (Fin n)) (read : List (Fin n)) : Vector (Option Nat) n :=
  Vector.ofFn fun r => if σ r ∈ read then some (σ r : Nat) else none

theorem Labelling.readColumn_eq {labelling : Labelling n} {σ : Equiv.Perm (Fin n)}
    (held : ∀ r, labelling.rowAt (σ r).succ = r.succ) {r : Fin n} {read : List (Fin n)} (unread : σ r ∉ read) :
    labelling.readColumn (readColumns σ read) (σ r) = some (readColumns σ (read ++ [σ r])) := by
  have row : labelling.rowOf[(σ r).succ] = r.succ := held r
  have missing : ((readColumns σ read).get ⟨r.val, r.isLt⟩).isSome = false := by
    change (readColumns σ read)[r.val].isSome = false
    simp [readColumns, unread]
  have next : (readColumns σ read).set r (some (σ r).val) = readColumns σ (read ++ [σ r]) := by
    ext i hi : 1
    rw [Vector.getElem_set, readColumns, Vector.getElem_ofFn, readColumns, Vector.getElem_ofFn]
    by_cases here : r.val = i
    · subst here
      simp
    · have other : (⟨i, hi⟩ : Fin n) ≠ r := fun eq => here (congrArg Fin.val eq).symm
      simp [here, other]
  simp only [readColumn, row, Fin.val_succ, Nat.add_sub_cancel, ne_eq, Fin.succ_ne_zero, not_false_eq_true,
    and_true, r.isLt, dite_true]
  rw [missing, next]
  rfl

theorem Labelling.foldlM_readColumn {labelling : Labelling n} {σ : Equiv.Perm (Fin n)}
    (held : ∀ r, labelling.rowAt (σ r).succ = r.succ) (rest read : List (Fin n)) (distinct : (read ++ rest).Nodup) :
    rest.foldlM labelling.readColumn (readColumns σ read) = some (readColumns σ (read ++ rest)) := by
  induction rest generalizing read with
  | nil => rw [List.append_nil]; rfl
  | cons column rest ih =>
    obtain ⟨r, rfl⟩ := σ.surjective column
    have unread : σ r ∉ read := fun member =>
      (List.nodup_append.mp distinct).2.2 _ member _ List.mem_cons_self rfl
    have rest_run := ih (read ++ [σ r]) (by rw [List.append_assoc]; exact distinct)
    rw [List.append_assoc] at rest_run
    rw [List.foldlM_cons, readColumn_eq held unread]
    exact rest_run

theorem Labelling.columns?_eq {labelling : Labelling n} {σ : Equiv.Perm (Fin n)}
    (held : ∀ r, labelling.rowAt (σ r).succ = r.succ) :
    labelling.columns? = some (Vector.ofFn fun r => some (σ r : Nat)) := by
  have start : Vector.replicate n none = readColumns σ [] := by
    ext i hi : 1
    simp [readColumns]
  have final : readColumns σ (List.finRange n) = Vector.ofFn fun r => some (σ r : Nat) := by
    ext i hi : 1
    simp [readColumns]
  calc labelling.columns? = (List.finRange n).foldlM labelling.readColumn (Vector.replicate n none) := rfl
    _ = some (readColumns σ (List.finRange n)) := by
      rw [start]
      exact foldlM_readColumn held (List.finRange n) [] (List.nodup_finRange n)
    _ = some (Vector.ofFn fun r => some (σ r : Nat)) := by rw [final]

def pairsOf (table : Table) (σ : Equiv.Perm (Fin n)) : List (Nat × Nat) :=
  ((List.finRange n).take table.size).filterMap fun r =>
    if (σ r : Nat) < table.width then some (r.val, (σ r).val) else none

theorem readBack_eq (table : Table) (σ : Equiv.Perm (Fin n)) :
    readBack table (Vector.ofFn fun r => some (σ r : Nat)) =
      some ⟨pairsOf table σ, ((pairsOf table σ).map fun p => table.weight p.1 p.2).sum⟩ := by
  have assigned : ((Vector.ofFn fun r => some (σ r : Nat)).toList.take table.size).mapM id =
      some (((List.finRange n).take table.size).map fun r => (σ r : Nat)) := by
    rw [Vector.toList_ofFn, List.ofFn_eq_map, ← List.map_take]
    induction (List.finRange n).take table.size with
    | nil => rfl
    | cons r rest ih =>
      rw [List.map_cons, List.mapM_cons, ih]
      rfl
  have indexed : (((List.finRange n).take table.size).map fun r => (σ r : Nat)).zipIdx =
      ((List.finRange n).take table.size).map fun r => ((σ r : Nat), r.val) := by
    apply List.ext_getElem
    · simp
    · intro i _ _
      simp
  rw [readBack, assigned]
  simp only [Option.pure_def, Option.bind_eq_bind, Option.bind_some, indexed, List.filterMap_map]
  rfl

theorem mem_take_finRange {count : Nat} (r : Fin n) : r ∈ (List.finRange n).take count ↔ r.val < count := by
  rw [List.mem_take_iff_getElem]
  constructor
  · rintro ⟨i, bound, rfl⟩
    rw [List.length_finRange] at bound
    simp
    omega
  · intro bound
    exact ⟨r.val, by rw [List.length_finRange]; omega, by simp⟩

theorem mem_pairsOf {table : Table} {σ : Equiv.Perm (Fin n)} {p : Nat × Nat} :
    p ∈ pairsOf table σ ↔ p.1 < table.size ∧ p.2 < table.width ∧ ∃ r : Fin n, p = (r.val, (σ r).val) := by
  rw [pairsOf, List.mem_filterMap]
  constructor
  · rintro ⟨r, member, found⟩
    split at found
    · cases found
      exact ⟨(mem_take_finRange r).mp member, by assumption, r, rfl⟩
    · cases found
  · rintro ⟨row, column, r, rfl⟩
    exact ⟨r, (mem_take_finRange r).mpr row, if_pos column⟩

theorem pairsOf_rising (table : Table) (σ : Equiv.Perm (Fin n)) :
    (pairsOf table σ).Pairwise fun p q => p.1 < q.1 := by
  have rising : ((List.finRange n).take table.size).Pairwise (· < ·) :=
    (List.pairwise_lt_finRange n).sublist (List.take_sublist _ _)
  rw [pairsOf, List.pairwise_filterMap]
  refine rising.imp fun {r s} lt p hp q hq => ?_
  split at hp
  · split at hq
    · cases hp
      cases hq
      exact lt
    · cases hq
  · cases hp

theorem pairsOf_oneToOne (table : Table) (σ : Equiv.Perm (Fin n)) : OneToOne (pairsOf table σ).toFinset := by
  intro p hp q hq
  obtain ⟨-, -, r, rfl⟩ := mem_pairsOf.mp (List.mem_toFinset.mp hp)
  obtain ⟨-, -, s, rfl⟩ := mem_pairsOf.mp (List.mem_toFinset.mp hq)
  simp only [Fin.val_inj]
  exact σ.injective.eq_iff.symm

theorem length_pairsOf {table : Table} (square : n = max table.size table.width) (σ : Equiv.Perm (Fin n)) :
    (pairsOf table σ).length = min table.size table.width := by
  have distinct : (pairsOf table σ).Nodup :=
    (pairsOf_rising table σ).imp fun lt eq => by subst eq; exact Nat.lt_irrefl _ lt
  have single := pairsOf_oneToOne table σ
  rw [← List.toFinset_card_of_nodup distinct]
  rcases Nat.le_total table.size table.width with wide | tall
  · have rows : (pairsOf table σ).toFinset.image Prod.fst = Finset.range table.size := by
      ext row
      simp only [Finset.mem_image, List.mem_toFinset, mem_pairsOf, Finset.mem_range]
      constructor
      · rintro ⟨p, ⟨inside, -⟩, rfl⟩
        exact inside
      · intro inside
        let r : Fin n := ⟨row, by omega⟩
        exact ⟨(row, σ r), ⟨inside, by have := (σ r).isLt; omega, r, rfl⟩, rfl⟩
    have injective : Set.InjOn Prod.fst ((pairsOf table σ).toFinset : Set (Nat × Nat)) :=
      fun p hp q hq same => Prod.ext same ((single p hp q hq).mp same)
    rw [← Finset.card_image_of_injOn injective, rows, Finset.card_range]
    omega
  · have columns : (pairsOf table σ).toFinset.image Prod.snd = Finset.range table.width := by
      ext column
      simp only [Finset.mem_image, List.mem_toFinset, mem_pairsOf, Finset.mem_range]
      constructor
      · rintro ⟨p, ⟨-, inside, -⟩, rfl⟩
        exact inside
      · intro inside
        let c : Fin n := ⟨column, by omega⟩
        refine ⟨(σ.symm c, column), ⟨by have := (σ.symm c).isLt; omega, inside, σ.symm c, ?_⟩, rfl⟩
        rw [Equiv.apply_symm_apply]
    have injective : Set.InjOn Prod.snd ((pairsOf table σ).toFinset : Set (Nat × Nat)) :=
      fun p hp q hq same => Prod.ext ((single p hp q hq).mpr same) same
    rw [← Finset.card_image_of_injOn injective, columns, Finset.card_range]
    omega

namespace Table

theorem weight_eq (table : Table) (row column : Nat) :
    table.weight row column = ((table[row]?.getD #[])[column]?).getD 0 := by
  rw [weight, Array.getD_eq_getD_getElem?, Array.getD_eq_getD_getElem?]

theorem size_getElem {table : Table} (even : table.isRagged = false) {row : Nat} (inside : row < table.size) :
    table[row].size = table.width := by
  have := Array.any_eq_false.mp even row inside
  simpa using this

theorem weight_eq_zero {table : Table} (even : table.isRagged = false) {row column : Nat}
    (outside : ¬ (row < table.size ∧ column < table.width)) : table.weight row column = 0 := by
  rw [weight_eq]
  by_cases inRows : row < table.size
  · have same := size_getElem even inRows
    rw [Array.getElem?_eq_getElem inRows, Option.getD_some, Array.getElem?_eq_none (by omega), Option.getD_none]
  · have none : table[row]? = none := Array.getElem?_eq_none (Nat.le_of_not_lt inRows)
    rw [none, Option.getD_none]
    rfl

theorem le_foldl_max (weights : List Nat) (best : Nat) :
    best ≤ weights.foldl max best ∧ ∀ w ∈ weights, w ≤ weights.foldl max best := by
  induction weights generalizing best with
  | nil => exact ⟨Nat.le_refl _, by simp⟩
  | cons v weights ih =>
    obtain ⟨start, rest⟩ := ih (max best v)
    rw [List.foldl_cons]
    refine ⟨by omega, fun w member => ?_⟩
    rcases List.mem_cons.mp member with rfl | member
    · omega
    · exact rest w member

theorem largest_eq (table : Table) : table.largest = (table.toList.flatMap Array.toList).foldl max 0 := by
  rw [largest, ← Array.foldl_toList, List.foldl_flatMap]
  simp

theorem weight_mem_or (table : Table) (row column : Nat) :
    table.weight row column = 0 ∨ table.weight row column ∈ table.toList.flatMap Array.toList := by
  rw [weight_eq]
  cases hrow : table[row]? with
  | none => simp
  | some cells =>
    rw [Option.getD_some]
    cases hcell : cells[column]? with
    | none => simp
    | some w =>
      refine .inr (List.mem_flatMap.mpr ⟨cells, ?_, ?_⟩)
      · exact (Array.mem_of_getElem? hrow).val
      · exact (Array.mem_of_getElem? hcell).val

theorem weight_le_largest (table : Table) (row column : Nat) : table.weight row column ≤ table.largest := by
  rcases table.weight_mem_or row column with zero | member
  · rw [zero]
    exact Nat.zero_le _
  · rw [largest_eq]
    exact (le_foldl_max _ 0).2 _ member

theorem largest_le {table : Table} {bound : Nat} (h : ∀ row ∈ table.toList, ∀ w ∈ row.toList, w ≤ bound) :
    table.largest ≤ bound := by
  have upper : ∀ (weights : List Nat) (best : Nat), best ≤ bound → (∀ w ∈ weights, w ≤ bound) →
      weights.foldl max best ≤ bound := by
    intro weights
    induction weights with
    | nil => intro best start _; exact start
    | cons w weights ih =>
      intro best start each
      exact ih (max best w) (Nat.max_le.mpr ⟨start, each w List.mem_cons_self⟩)
        fun v member => each v (List.mem_cons_of_mem _ member)
  rw [largest_eq]
  refine upper _ 0 (Nat.zero_le _) fun w member => ?_
  obtain ⟨row, hrow, hw⟩ := List.mem_flatMap.mp member
  exact h row hrow w hw

end Table

theorem sum_pairsOf {table : Table} (even : table.isRagged = false) (σ : Equiv.Perm (Fin n)) :
    ((pairsOf table σ).map fun p => table.weight p.1 p.2).sum = ∑ r : Fin n, table.weight r (σ r) := by
  have distinct : (pairsOf table σ).Nodup :=
    (pairsOf_rising table σ).imp fun lt eq => by subst eq; exact Nat.lt_irrefl _ lt
  have place : Function.Injective fun r : Fin n => (r.val, (σ r).val) :=
    fun r s same => Fin.ext (congrArg Prod.fst same)
  have all : ∑ r : Fin n, table.weight r (σ r) = ∑ p ∈ Finset.univ.map ⟨_, place⟩, table.weight p.1 p.2 := by
    rw [Finset.sum_map]; rfl
  rw [← List.sum_toFinset _ distinct, all]
  refine Finset.sum_subset (fun p member => ?_) (fun p member missing => ?_)
  · obtain ⟨-, -, r, rfl⟩ := mem_pairsOf.mp (List.mem_toFinset.mp member)
    exact Finset.mem_map.mpr ⟨r, Finset.mem_univ r, rfl⟩
  · obtain ⟨r, -, rfl⟩ := Finset.mem_map.mp member
    refine Table.weight_eq_zero even fun bound => missing ?_
    exact List.mem_toFinset.mpr (mem_pairsOf.mpr ⟨bound.1, bound.2, r, rfl⟩)

/-- Pairs of different rows and columns of a table, row by row, that no other such pairs outweigh. -/
structure Solution.Optimal (table : Table) (solution : Solution) : Prop where
  rising : solution.pairs.Pairwise fun p q => p.1 < q.1
  oneToOne : OneToOne solution.pairs.toFinset
  inside : ∀ p ∈ solution.pairs, p.1 < table.size ∧ p.2 < table.width
  objective_eq : solution.objective = (solution.pairs.map fun p => table.weight p.1 p.2).sum
  best : ∀ cells, OneToOne cells → ∑ p ∈ cells, table.weight p.1 p.2 ≤ solution.objective
  complete : solution.pairs.length = min table.size table.width

/-- The tables that the solver takes: all rows are of one length, and no weight passes the limit. -/
def Table.Solvable (table : Table) : Prop :=
  table.isRagged = false ∧
    (table.size = 0 ∨ table.width = 0 ∨ table.largest ≤ limit (max table.size table.width))

theorem solvable_of_solve {table : Table} {solution : Solution} (h : solve table = .ok solution) :
    table.Solvable := by
  unfold solve at h
  split at h
  · cases h
  · rename_i even
    split at h
    · rename_i empty
      exact ⟨by simpa using even, by omega⟩
    · dsimp only at h
      split at h
      · cases h
      · rename_i small
        exact ⟨by simpa using even, .inr (.inr (Nat.le_of_not_lt small))⟩

theorem solve_of_solvable {table : Table} (solvable : table.Solvable) :
    ∃ solution, solve table = .ok solution ∧ solution.Optimal table := by
  obtain ⟨even, small⟩ := solvable
  rw [solve, if_neg (by rw [even]; exact Bool.false_ne_true)]
  by_cases empty : table.size = 0 ∨ table.width = 0
  · rw [if_pos empty]
    refine ⟨_, rfl, .nil, by simp [OneToOne], by simp, rfl, fun cells _ => ?_, ?_⟩
    · rw [Finset.sum_eq_zero fun p _ => Table.weight_eq_zero even (by omega)]
    · dsimp only [List.length_nil]
      omega
  · have small : table.largest ≤ limit (max table.size table.width) := by omega
    rw [if_neg empty]
    simp only [if_neg (Nat.not_lt.mpr small), gt_iff_lt]
    set n := max table.size table.width with square
    let cost : Nat → Nat → Int := fun row column => (table.largest : Int) - table.weight row column
    have nonnegative (i j : Nat) : 0 ≤ cost i j := by
      have := table.weight_le_largest i j
      simp only [cost]
      omega
    obtain ⟨labelling, run, assigned⟩ := assignRows_assigned (n := n) nonnegative
    obtain ⟨σ, held⟩ := assigned.exists_perm
    have run' : assignRows n (fun row column => (table.largest : Int) - table.weight row column) = some labelling := run
    simp only [run', Option.bind_eq_bind, Option.bind_some, Labelling.columns?_eq held, readBack_eq]
    refine ⟨_, rfl, pairsOf_rising table σ, pairsOf_oneToOne table σ, fun p member => ?_, rfl, fun cells single => ?_,
      length_pairsOf square σ⟩
    · obtain ⟨row, column, -⟩ := mem_pairsOf.mp member
      exact ⟨row, column⟩
    -- Cells outside the table weigh nothing, so only those inside the square matter.
    · have inside : ∑ p ∈ cells.filter (fun p => p.1 < n ∧ p.2 < n), table.weight p.1 p.2 ≤
          ∑ r : Fin n, table.weight r (σ r) :=
        sum_weight_le (assigned.sum_cost_le held) (single.subset (Finset.filter_subset _ _))
          fun p member => (Finset.mem_filter.mp member).2
      rw [Finset.sum_filter_of_ne (fun p _ nonzero => by
        by_contra outside
        exact nonzero (Table.weight_eq_zero even (by omega)))] at inside
      rwa [← sum_pairsOf even] at inside

theorem solve_optimal {table : Table} {solution : Solution} (h : solve table = .ok solution) :
    solution.Optimal table := by
  obtain ⟨found, run, optimal⟩ := solve_of_solvable (solvable_of_solve h)
  rw [run] at h
  cases h
  exact optimal

end TreeAlign.Assignment
