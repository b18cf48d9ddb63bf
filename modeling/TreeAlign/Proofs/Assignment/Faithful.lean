import TreeAlign.Proofs.Assignment.Rounds
import TreeAlign.Proofs.Assignment.Solve

namespace TreeAlign.Assignment

variable {n : Nat} {cost : Nat → Nat → Int} {bound low : Int}

theorem insertRow_registers {costs : List (List Int64)} (listed : Listed cost n costs) (bounded : Bounded cost bound low)
    {labelling : Labelling n} {count : Nat} (assigned : labelling.Assigned cost count) (signed : labelling.Signed count)
    (moved : low ≤ labelling.columnPotential.get 0) {row : Fin (n + 1)} (new : row.val = count + 1) {result : Labelling n}
    (run : insertRow cost labelling row = some result) :
    Words.insertRow costs labelling.registers row = .ok result.registers ∧ result.Signed (count + 1) ∧
      low - bound ≤ result.columnPotential.get 0 := by
  have paced := Search.start_paced assigned signed moved new
  have first := Search.rowAt_start_zero labelling row
  have row_nonzero : (Search.start labelling row).rowAt 0 ≠ 0 := by
    rw [first]
    intro zero
    rw [zero, Fin.val_zero] at new
    omega
  obtain ⟨free, free_nonzero, isFree⟩ := assigned.exists_free (by have := row.isLt; omega)
  rw [← Search.rowAt_start labelling row free_nonzero] at isFree
  obtain ⟨found, trail, search_run, grown, nonzero, -, rows⟩ := Search.start_grows assigned new
  obtain ⟨grow_run, paced'⟩ := Search.grow_round listed bounded (Search.start_growing assigned (by omega)) paced row_nonzero
    free_nonzero isFree search_run
  obtain ⟨rest, way, -, short⟩ := grown.exists_way
  have augment_run := Search.augment_round way nonzero short
  have result_eq : result = (found.augment (n + 1)).toLabelling := by
    rw [insertRow, search_run] at run
    exact (Option.some.inj run).symm
  have columns := (found.augment_potentials (n + 1)).2
  refine ⟨?_, ?_, ?_⟩
  · have grow_run' : (Search.start labelling row).round.grow costs (n + 2) 0 = .ok (found.round, found.column.val) := grow_run
    rw [Words.insertRow, Search.round_start, Words.ok_bind, grow_run', Words.ok_bind, result_eq]
    simp only [augment_run, Words.ok_bind]
    rfl
  · rw [result_eq, ← new]
    exact paced'.augment grown nonzero
  · have taken := paced'.moved
    have upper := paced'.row_le grown.toBalanced bounded.costs free_nonzero (by rw [rows]; exact isFree) row
    rw [result_eq, columns]
    omega

theorem Labelling.registers_start : (start n).registers = Words.Registers.mk (Vector.replicate (n + 1) 0)
    (Vector.replicate (n + 1) 0) (Vector.replicate (n + 1) 0) (Vector.replicate (n + 1) 0) := by
  simp only [registers, start, Vector.map_replicate]
  rfl

theorem assignRows_registers {costs : List (List Int64)} (listed : Listed cost n costs)
    (bounds : ∀ i j, 0 ≤ cost i j ∧ cost i j ≤ bound) (room : 2 * bound ≤ 2 ^ 62) (fits : n * bound ≤ 2 ^ 62) :
    ∃ labelling, Words.assignRows n costs = .ok labelling.registers ∧ assignRows n cost = some labelling ∧
      labelling.Assigned cost n := by
  let step (labelling : Labelling n) (row : Fin n) := insertRow cost labelling row.succ
  let holds (seen : List (Fin n)) (registers : Words.Registers n) : Prop :=
    ∃ labelling : Labelling n, registers = labelling.registers ∧ seen.foldlM step (.start n) = some labelling ∧
      labelling.Assigned cost seen.length ∧ labelling.Signed seen.length ∧
      -(seen.length * bound) ≤ labelling.columnPotential.get 0
  have first : holds [] (Labelling.start n).registers := by
    refine ⟨_, rfl, rfl, Labelling.start_assigned fun i j => (bounds i j).1, Labelling.start_signed, ?_⟩
    simp [Labelling.start]
  have next (seen : List (Fin n)) (row : Fin n) (rest : List (Fin n)) (registers : Words.Registers n)
      (split : List.finRange n = seen ++ row :: rest) (held : holds seen registers) :
      ∃ registers', Words.insertRow costs registers (row.val + 1) = .ok registers' ∧ holds (seen ++ [row]) registers' := by
    obtain ⟨labelling, rfl, run, assigned, signed, moved⟩ := held
    have index : row.succ.val = seen.length + 1 := by rw [Fin.val_succ, length_of_split split]
    have total : (seen.length + 1) * bound = seen.length * bound + bound := by ring
    have below : -2 ^ 62 ≤ -(seen.length * bound) - bound := by
      have nonneg : 0 ≤ bound := Int.le_trans (bounds 0 0).1 (bounds 0 0).2
      have count : (seen.length : Int) + 1 ≤ n := by
        have := row.isLt
        rw [Fin.val_succ] at index
        omega
      have := Int.mul_le_mul_of_nonneg_right count nonneg
      omega
    obtain ⟨result, inserted, assigned'⟩ := insertRow_assigned assigned index
    obtain ⟨words, signed', moved'⟩ := insertRow_registers listed ⟨bounds, room, below⟩ assigned signed moved index inserted
    refine ⟨_, words, result, rfl, ?_, ?_, ?_, ?_⟩
    · have taken : step labelling row = some result := inserted
      rw [List.foldlM_append, run, Option.bind_eq_bind, Option.bind_some, List.foldlM_cons, taken]
      rfl
    · rwa [List.length_append, List.length_singleton]
    · rwa [List.length_append, List.length_singleton]
    · rw [List.length_append, List.length_singleton, Nat.cast_add, Nat.cast_one, total]
      omega
  obtain ⟨registers, run, labelling, rfl, exact_run, assigned, -⟩ := foldlM_ok first next
  rw [List.length_finRange] at assigned
  refine ⟨labelling, ?_, exact_run, assigned⟩
  rw [Labelling.registers_start] at run
  exact run

theorem readColumn_registers {labelling : Labelling n} {columns next : Vector (Option Nat) n} {c : Fin n}
    (read : labelling.readColumn columns c = some next) :
    Words.readColumn labelling.registers columns (c.val + 1) = .ok next := by
  have rowEntry : Words.entry labelling.registers.rowOf[c.val + 1]? = .ok labelling.rowOf[c.succ].val :=
    Words.entry_map Fin.val labelling.rowOf c.succ
  unfold Labelling.readColumn at read
  dsimp only at read
  split at read
  · rename_i inside
    have found := Words.entry_get columns ⟨labelling.rowOf[c.succ].val - 1, inside.1⟩
    have written := Words.put_eq columns ⟨labelling.rowOf[c.succ].val - 1, inside.1⟩ (some c.val)
    have held : labelling.rowOf[c.succ].val ≠ 0 := Fin.val_ne_zero_iff.mpr inside.2
    dsimp only at found written
    split at read
    · cases read
    · rename_i unread
      cases read
      rw [Words.readColumn, rowEntry, Words.ok_bind, if_neg held, Words.predecessor_of_ne held, Words.ok_bind, found,
        Words.ok_bind, if_neg unread, Words.predecessor_succ, Words.ok_bind, written]
  · cases read

theorem columns_registers {labelling : Labelling n} {σ : Equiv.Perm (Fin n)}
    (held : ∀ r, labelling.rowAt (σ r).succ = r.succ) :
    (List.finRange n).foldlM (fun columns (j : Fin n) => Words.readColumn labelling.registers columns (j.val + 1))
      (Vector.replicate n none) = .ok (Vector.ofFn fun r => some (σ r : Nat)) := by
  have start : Vector.replicate n none = readColumns σ [] := by
    apply ext_get
    simp [readColumns]
  have final : (Vector.ofFn fun r => some (σ r : Nat)) = readColumns σ (List.finRange n) := by
    apply ext_get
    simp [readColumns]
  rw [start, final]
  apply foldlM_eq (readColumns σ)
  intro seen c rest split
  obtain ⟨r, rfl⟩ := σ.surjective c
  apply readColumn_registers
  exact Labelling.readColumn_eq held (notMem_of_split (List.nodup_finRange n) split)

theorem mapM_ok {α β : Type} {f : α → Except Stop β} {g : α → β} (each : ∀ a, f a = .ok (g a)) (xs : List α) :
    xs.mapM f = .ok (xs.map g) := by
  induction xs with
  | nil => rfl
  | cons a xs ih =>
    rw [List.mapM_cons, each, Words.ok_bind, ih, Words.ok_bind]
    rfl

theorem getElem?_map_finRange {α : Type} (f : Fin n → α) (i : Fin n) : ((List.finRange n).map f)[i.val]? = some (f i) := by
  simp

theorem costs_ok {table : Table} (even : table.isRagged = false) (small : Inner table.largest) :
    ∃ costs, Words.costs table (Int64.ofInt table.largest) n = .ok costs ∧
      Listed (fun i j => (table.largest : Int) - table.weight i j) n costs := by
  have each (i j : Nat) : Words.costAt table (Int64.ofInt table.largest) i j =
      .ok (Int64.ofInt ((table.largest : Int) - table.weight i j)) := by
    rw [Words.costAt]
    by_cases inside : i < table.size ∧ j < table.width
    · have lighter := table.weight_le_largest i j
      have weight : Inner (table.weight i j) := by
        rw [Inner, Int64.toInt_minValue, Int64.toInt_maxValue] at small ⊢
        omega
      have difference : Inner ((table.largest : Int) - table.weight i j) := by
        rw [Inner, Int64.toInt_minValue, Int64.toInt_maxValue] at small ⊢
        omega
      rw [if_pos inside, Words.ofWeight, if_pos weight, Words.ok_bind, Words.sub_ofInt small weight difference]
    · rw [if_neg inside, Table.weight_eq_zero even inside]
      simp
  have row (i : Fin n) := mapM_ok (fun j : Fin n => each i.val j.val) (List.finRange n)
  exact ⟨_, mapM_ok row (List.finRange n), fun i j => ⟨_, getElem?_map_finRange _ i, getElem?_map_finRange _ j⟩⟩

def placeOf (table : Table) (σ : Equiv.Perm (Fin n)) (r : Fin n) : Option (Nat × Nat) :=
  if (σ r : Nat) < table.width then some (r.val, (σ r).val) else none

def solutionOf (table : Table) (σ : Equiv.Perm (Fin n)) (rows : List (Fin n)) : Solution where
  pairs := rows.filterMap (placeOf table σ)
  objective := ((rows.filterMap (placeOf table σ)).map fun p => table.weight p.1 p.2).sum

theorem solutionOf_append {table : Table} {σ : Equiv.Perm (Fin n)} {seen : List (Fin n)} {r : Fin n}
    (column : (σ r).val < table.width) : solutionOf table σ (seen ++ [r]) =
      ⟨(solutionOf table σ seen).pairs ++ [(r.val, (σ r).val)],
        (solutionOf table σ seen).objective + table.weight r (σ r)⟩ := by
  have here : [r].filterMap (placeOf table σ) = [(r.val, (σ r).val)] := by
    simp [placeOf, column]
  simp [solutionOf, List.filterMap_append, here]

theorem solutionOf_append_of_not {table : Table} {σ : Equiv.Perm (Fin n)} {seen : List (Fin n)} {r : Fin n}
    (column : ¬ (σ r).val < table.width) : solutionOf table σ (seen ++ [r]) = solutionOf table σ seen := by
  have here : [r].filterMap (placeOf table σ) = [] := by
    simp [placeOf, column]
  simp [solutionOf, List.filterMap_append, here]

theorem objective_le (table : Table) (σ : Equiv.Perm (Fin n)) (rows : List (Fin n)) :
    (solutionOf table σ rows).objective ≤ rows.length * table.largest := by
  have each : ∀ w ∈ (rows.filterMap (placeOf table σ)).map (fun p => table.weight p.1 p.2), w ≤ table.largest := by
    intro w member
    obtain ⟨p, -, rfl⟩ := List.mem_map.mp member
    exact table.weight_le_largest p.1 p.2
  have total := List.sum_le_card_nsmul _ _ each
  rw [List.length_map, smul_eq_mul] at total
  exact Nat.le_trans total (Nat.mul_le_mul_right _ (List.length_filterMap_le _ _))

theorem readPair_solutionOf {table : Table} (even : table.isRagged = false) (σ : Equiv.Perm (Fin n))
    (fits : n * table.largest < UInt64.size) {seen : List (Fin n)} {r : Fin n} (early : seen.length < n)
    (inside : r.val < table.size) :
    Words.readPair table (solutionOf table σ seen) (some (σ r).val, r.val) = .ok (solutionOf table σ (seen ++ [r])) := by
  rw [Words.readPair]
  by_cases column : (σ r).val < table.width
  · have width := Table.size_getElem even inside
    have row_entry : Words.entry table[r.val]? = .ok table[r.val] := by
      rw [Array.getElem?_eq_getElem inside, Words.entry_some]
    have weight_entry : Words.entry table[r.val][(σ r).val]? = .ok (table.weight r (σ r)) := by
      rw [Table.weight_eq, Array.getElem?_eq_getElem inside, Option.getD_some,
        Array.getElem?_eq_getElem (by omega), Words.entry_some, Option.getD_some]
    have room : (solutionOf table σ seen).objective + table.weight r (σ r) < UInt64.size := by
      have sofar := objective_le table σ seen
      have weight := table.weight_le_largest r (σ r)
      have rows : (seen.length + 1) * table.largest ≤ n * table.largest := Nat.mul_le_mul_right _ early
      rw [Nat.add_mul] at rows
      omega
    rw [if_pos column, row_entry, Words.ok_bind, weight_entry, Words.ok_bind, Words.addWeight, if_pos room, Words.ok_bind,
      solutionOf_append column]
    rfl
  · rw [if_neg column, solutionOf_append_of_not column]
    rfl

theorem readBack_ok {table : Table} (even : table.isRagged = false) (σ : Equiv.Perm (Fin n))
    (fits : n * table.largest < UInt64.size) :
    Words.readBack table (Vector.ofFn fun r => some (σ r : Nat)) =
      .ok ⟨pairsOf table σ, ((pairsOf table σ).map fun p => table.weight p.1 p.2).sum⟩ := by
  have items : ((Vector.ofFn fun r => some (σ r : Nat)).toList.zipIdx.take table.size) =
      ((List.finRange n).take table.size).map fun r => (some (σ r).val, r.val) := by
    apply List.ext_getElem
    · simp
    · intro i _ _
      simp
  rw [Words.readBack, items, List.foldlM_map]
  apply foldlM_eq (solutionOf table σ)
  intro seen r rest split
  have member : r ∈ (List.finRange n).take table.size := by
    rw [split]
    exact List.mem_append_right _ List.mem_cons_self
  have early : seen.length < n := by
    have := congrArg List.length split
    rw [List.length_take, List.length_finRange, List.length_append, List.length_cons] at this
    omega
  exact readPair_solutionOf even σ fits early ((mem_take_finRange r).mp member)

/-- A weight within the limit leaves room for all sums. -/
theorem room_of_le_limit {largest : Nat} (nonempty : 0 < n) (small : largest ≤ limit n) :
    2 * (largest : Int) ≤ 2 ^ 62 ∧ (n : Int) * largest ≤ 2 ^ 62 := by
  have product : largest * (2 * (n + 1)) ≤ UInt64.size / 2 - 1 :=
    (Nat.le_div_iff_mul_le (by omega)).mp small
  have spread : largest * (2 * (n + 1)) = 2 * (n * largest) + 2 * largest := by ring
  have rows : 1 * largest ≤ n * largest := Nat.mul_le_mul_right _ nonempty
  have size : UInt64.size = 2 ^ 64 := rfl
  norm_cast
  omega

theorem run_words {table : Table} (even : table.isRagged = false) (nonempty : 0 < n) (small : table.largest ≤ limit n) :
    ∃ costs labelling columns solution,
      Words.ofWeight table.largest >>= (Words.costs table · n) = .ok costs ∧
      Words.assignRows n costs = .ok labelling.registers ∧
      assignRows n (fun row column => (table.largest : Int) - table.weight row column) = some labelling ∧
      (List.finRange n).foldlM (fun columns (j : Fin n) => Words.readColumn labelling.registers columns (j.val + 1))
        (Vector.replicate n none) = .ok columns ∧
      labelling.columns? = some columns ∧ Words.readBack table columns = .ok solution ∧
      readBack table columns = some solution := by
  obtain ⟨room, fits⟩ := room_of_le_limit nonempty small
  have inner : Inner table.largest := by apply inner_of_le <;> omega
  have total : n * table.largest < UInt64.size := by
    have size : UInt64.size = 2 ^ 64 := rfl
    norm_cast at fits
    omega
  have bounds (i j : Nat) : 0 ≤ (table.largest : Int) - table.weight i j ∧
      (table.largest : Int) - table.weight i j ≤ table.largest := by
    have := table.weight_le_largest i j
    omega
  obtain ⟨costs, built, listed⟩ := costs_ok even inner
  obtain ⟨labelling, words, run, assigned⟩ := assignRows_registers listed bounds room fits
  obtain ⟨σ, held⟩ := assigned.exists_perm
  refine ⟨costs, labelling, _, _, ?_, words, run, columns_registers held, Labelling.columns?_eq held,
    readBack_ok even σ total, readBack_eq table σ⟩
  rw [Words.ofWeight, if_pos inner, Words.ok_bind, built]

/-- The solver gives the same result on words as on integers of any size, and no run on words traps. -/
theorem solve_words (table : Table) :
    Words.solve table = (solve table).mapError Stop.fault ∧ Words.solve table ≠ .error .trap := by
  have same : Words.solve table = (solve table).mapError Stop.fault := by
    rw [Words.solve, solve]
    by_cases ragged : table.isRagged = true
    · rw [if_pos ragged, if_pos ragged]
      rfl
    rw [if_neg ragged, if_neg ragged]
    by_cases empty : table.size = 0 ∨ table.width = 0
    · rw [if_pos empty, if_pos empty]
      rfl
    rw [if_neg empty, if_neg empty]
    dsimp only
    set n := max table.size table.width with square
    by_cases large : table.largest > limit n
    · rw [if_pos large, if_pos large]
      rfl
    rw [if_neg large, if_neg large]
    have even : table.isRagged = false := by simpa using ragged
    obtain ⟨costs, labelling, columns, solution, built, words, run, read, columns_eq, sum, solution_eq⟩ :=
      run_words (n := n) even (by omega) (Nat.le_of_not_lt large)
    rw [← bind_assoc, built, Words.ok_bind, words, Words.ok_bind, read, Words.ok_bind, sum]
    simp only [run, Option.bind_eq_bind, Option.bind_some, columns_eq, solution_eq]
    rfl
  refine ⟨same, ?_⟩
  rw [same]
  cases solve table <;> simp [Except.mapError]

end TreeAlign.Assignment
