import TreeAlign.Proofs.Answers
import TreeAlign.Strategy.Alignment

namespace TreeAlign.Alignment

theorem fold_induction {α : Type} {motive : Nat → α → Prop} {n : Nat} {f : (i : Nat) → i < n → α → α} {a : α}
    (start : motive 0 a) (step : ∀ i hi a, motive i a → motive (i + 1) (f i hi a)) : motive n (n.fold f a) := by
  induction n with
  | zero => exact start
  | succ n ih =>
    rw [Nat.fold_succ]
    exact step n _ _ (ih fun i hi => step i _)

theorem getElem_put {α : Type} {rows columns : Nat} (entries : Vector (Vector α columns) rows) {i j k l : Nat} (a : α)
    (hi : i < rows) (hj : j < columns) (hk : k < rows) (hl : l < columns) :
    (put entries i j a hi hj)[k][l] = if i = k ∧ j = l then a else entries[k][l] := by
  simp only [put, Vector.getElem_set]
  by_cases same : i = k
  · subst same
    simp [Vector.getElem_set]
  · simp [same]

theorem choose_cases (paired top skip : Nat) :
    choose paired top skip = (top, .top) ∧ paired ≤ top ∧ skip ≤ top ∨
      choose paired top skip = (skip, .left) ∧ paired ≤ skip ∧ top ≤ skip ∨
      choose paired top skip = (paired, .diagonal) ∧ top ≤ paired ∧ skip ≤ paired := by
  unfold choose
  split
  · split
    · exact .inl ⟨rfl, by omega, by omega⟩
    · exact .inr (.inr ⟨rfl, by omega, by omega⟩)
  · split
    · exact .inr (.inl ⟨rfl, by omega, by omega⟩)
    · exact .inr (.inr ⟨rfl, by omega, by omega⟩)

namespace Tables

variable {rows columns : Nat} {weight : Nat × Nat → Nat} {tables : Tables rows columns}

theorem score_enter {i j k l : Nat} {hi : i < rows} {hj : j < columns} (hk : k ≤ rows) (hl : l ≤ columns) :
    (tables.enter weight i j hi hj).score k l hk hl = if i + 1 = k ∧ j + 1 = l then
      (choose (tables.score i j hi.le hj.le + weight (i, j)) (tables.score i (j + 1) hi.le hj)
        (tables.score (i + 1) j hi hj.le)).1 else tables.score k l hk hl :=
  getElem_put ..

theorem direction_enter {i j k l : Nat} {hi : i < rows} {hj : j < columns} (hk : k ≤ rows) (hl : l ≤ columns) :
    (tables.enter weight i j hi hj).direction k l hk hl = if i + 1 = k ∧ j + 1 = l then
      (choose (tables.score i j hi.le hj.le + weight (i, j)) (tables.score i (j + 1) hi.le hj)
        (tables.score (i + 1) j hi hj.le)).2 else tables.direction k l hk hl :=
  getElem_put ..

/-- What is entered for the rows before `i`, and for the columns before `j` in row `i`, was chosen from its
neighbours. -/
structure Filled (weight : Nat × Nat → Nat) (tables : Tables rows columns) (i j : Nat) : Prop where
  noRow : ∀ l (hl : l ≤ columns), tables.score 0 l (Nat.zero_le _) hl = 0
  noColumn : ∀ k (hk : k ≤ rows), tables.score k 0 hk (Nat.zero_le _) = 0
  chosen : ∀ k l (hk : k < rows) (hl : l < columns), k < i ∨ k = i ∧ l < j →
    (tables.score (k + 1) (l + 1) hk hl, tables.direction (k + 1) (l + 1) hk hl) =
      choose (tables.score k l hk.le hl.le + weight (k, l)) (tables.score k (l + 1) hk.le hl)
        (tables.score (k + 1) l hk hl.le)

theorem start_filled : (start rows columns).Filled weight 0 0 where
  noRow l hl := by simp [start, score]
  noColumn k hk := by simp [start, score]
  chosen k l hk hl before := by omega

theorem Filled.enter {i j : Nat} {hi : i < rows} {hj : j < columns} (h : tables.Filled weight i j) :
    (tables.enter weight i j hi hj).Filled weight i (j + 1) where
  noRow l hl := by
    rw [score_enter, if_neg (by omega)]
    exact h.noRow l hl
  noColumn k hk := by
    rw [score_enter, if_neg (by omega)]
    exact h.noColumn k hk
  chosen k l hk hl before := by
    -- The three entries that are read are not the one that is entered now.
    rw [score_enter hk.le hl.le, if_neg (by omega), score_enter hk.le hl, if_neg (by omega), score_enter hk hl.le,
      if_neg (by omega), score_enter hk hl, direction_enter hk hl]
    by_cases here : k = i ∧ l = j
    · obtain ⟨rfl, rfl⟩ := here
      simp
    · rw [if_neg (by omega), if_neg (by omega)]
      exact h.chosen k l hk hl (by omega)

theorem Filled.fillRow {i : Nat} {hi : i < rows} (h : tables.Filled weight i 0) :
    (tables.fillRow weight i hi).Filled weight (i + 1) 0 := by
  have row : (tables.fillRow weight i hi).Filled weight i columns :=
    fold_induction (motive := fun j tables => Filled weight tables i j) h fun _ _ _ filled => filled.enter
  exact ⟨row.noRow, row.noColumn, fun k l hk hl before => row.chosen k l hk hl (by omega)⟩

theorem fill_filled (rows columns : Nat) (weight : Nat × Nat → Nat) : (fill rows columns weight).Filled weight rows 0 :=
  fold_induction (motive := fun i tables => Filled weight tables i 0) start_filled fun _ _ _ filled => filled.fillRow

end Tables

/-- `places`, from the last to the first, are a choice of the first `rows` rows and the first `columns` columns that does
not cross. They all weigh something, they weigh `total`, and no such choice weighs more. -/
structure Optimal (weight : Nat × Nat → Nat) (rows columns total : Nat) (places : List (Nat × Nat)) : Prop where
  falling : places.Pairwise fun p q => q.1 < p.1 ∧ q.2 < p.2
  inside : ∀ p ∈ places, p.1 < rows ∧ p.2 < columns
  positive : ∀ p ∈ places, 0 < weight p
  total_eq : (places.map weight).sum = total
  bound : ∀ cells, NonCrossing cells → (∀ p ∈ cells, p.1 < rows ∧ p.2 < columns) → ∑ p ∈ cells, weight p ≤ total

theorem nonCrossing_cases {cells : Finset (Nat × Nat)} {row column : Nat} (h : NonCrossing cells)
    (inside : ∀ p ∈ cells, p.1 < row + 1 ∧ p.2 < column + 1) :
    (row, column) ∈ cells ∧ (∀ p ∈ cells.erase (row, column), p.1 < row ∧ p.2 < column) ∨
      (∀ p ∈ cells, p.1 < row ∧ p.2 < column + 1) ∨ (∀ p ∈ cells, p.1 < row + 1 ∧ p.2 < column) := by
  by_cases last : (row, column) ∈ cells
  · refine .inl ⟨last, fun p member => ?_⟩
    obtain ⟨different, member⟩ := Finset.mem_erase.mp member
    have order := h p member _ last
    have range := inside p member
    have places : ¬ (p.1 = row ∧ p.2 = column) := fun eq => different (Prod.ext eq.1 eq.2)
    dsimp only at order
    omega
  · by_cases row_used : ∃ p ∈ cells, p.1 = row
    · obtain ⟨p, hp, atRow⟩ := row_used
      refine .inr (.inr fun q hq => ?_)
      have order := h q hq p hp
      have rangeP := inside p hp
      have rangeQ := inside q hq
      have placeP : p.2 ≠ column := fun eq => last (by rwa [← atRow, ← eq])
      have placeQ : ¬ (q.1 = row ∧ q.2 = column) := fun eq => last (by rwa [← eq.1, ← eq.2])
      omega
    · refine .inr (.inl fun p member => ?_)
      have range := inside p member
      have elsewhere : p.1 ≠ row := fun eq => row_used ⟨p, member, eq⟩
      omega

theorem nonCrossing_of_rising {places : List (Nat × Nat)}
    (rising : places.Pairwise fun p q => p.1 < q.1 ∧ p.2 < q.2) : NonCrossing places.toFinset := by
  intro p hp q hq
  obtain ⟨i, hi, rfl⟩ := List.getElem_of_mem (List.mem_toFinset.mp hp)
  obtain ⟨j, hj, rfl⟩ := List.getElem_of_mem (List.mem_toFinset.mp hq)
  rcases Nat.lt_trichotomy i j with lt | rfl | gt
  · have := List.pairwise_iff_getElem.mp rising i j hi hj lt
    omega
  · omega
  · have := List.pairwise_iff_getElem.mp rising j i hj hi gt
    omega

namespace Optimal

variable {weight : Nat × Nat → Nat} {row column total : Nat} {places : List (Nat × Nat)}

theorem none {rows columns : Nat} (empty : rows = 0 ∨ columns = 0) : Optimal weight rows columns 0 [] where
  falling := .nil
  inside := by simp
  positive := by simp
  total_eq := rfl
  bound := by
    intro cells _ inside
    have nothing : cells = ∅ := by
      refine Finset.eq_empty_of_forall_notMem fun p member => ?_
      have := inside p member
      omega
    rw [nothing, Finset.sum_empty]

theorem more {rows columns : Nat} (h : Optimal weight rows columns total places) (hr : rows ≤ row) (hc : columns ≤ column)
    (bound : ∀ cells, NonCrossing cells → (∀ p ∈ cells, p.1 < row ∧ p.2 < column) → ∑ p ∈ cells, weight p ≤ total) :
    Optimal weight row column total places :=
  { h with
    inside := fun p member => ⟨(h.inside p member).1.trans_le hr, (h.inside p member).2.trans_le hc⟩
    bound := bound }

theorem pair (h : Optimal weight row column total places) (positive : 0 < weight (row, column))
    (bound : ∀ cells, NonCrossing cells → (∀ p ∈ cells, p.1 < row + 1 ∧ p.2 < column + 1) →
      ∑ p ∈ cells, weight p ≤ total + weight (row, column)) :
    Optimal weight (row + 1) (column + 1) (total + weight (row, column)) ((row, column) :: places) where
  falling := .cons h.inside h.falling
  inside := by
    intro p member
    rcases List.mem_cons.mp member with rfl | member
    · exact ⟨Nat.lt_succ_self _, Nat.lt_succ_self _⟩
    · have := h.inside p member
      omega
  positive := List.forall_mem_cons.mpr ⟨positive, h.positive⟩
  total_eq := by rw [List.map_cons, List.sum_cons, h.total_eq, Nat.add_comm]
  bound := bound

theorem sum_le {above before : Nat} {places' places'' : List (Nat × Nat)} (h : Optimal weight row column total places)
    (hr : Optimal weight row (column + 1) above places') (hc : Optimal weight (row + 1) column before places'')
    (limit : Nat) (paired : total + weight (row, column) ≤ limit) (noRow : above ≤ limit) (noColumn : before ≤ limit)
    (cells : Finset (Nat × Nat)) (crossing : NonCrossing cells)
    (inside : ∀ p ∈ cells, p.1 < row + 1 ∧ p.2 < column + 1) : ∑ p ∈ cells, weight p ≤ limit := by
  rcases nonCrossing_cases crossing inside with ⟨last, rest⟩ | within | within
  · have others := h.bound _ (crossing.subset (Finset.erase_subset _ _)) rest
    rw [← Finset.add_sum_erase _ _ last]
    omega
  · exact (hr.bound cells crossing within).trans noRow
  · exact (hc.bound cells crossing within).trans noColumn

theorem isGreatest {rows columns : Nat} (h : Optimal weight rows columns total places) :
    IsGreatest {w | ∃ choice : Finset (Nat × Nat), NonCrossing choice ∧ (∀ p ∈ choice, p.1 < rows ∧ p.2 < columns) ∧
      w = ∑ p ∈ choice, weight p} total := by
  have distinct : places.Nodup := h.falling.imp fun lt eq => by subst eq; exact Nat.lt_irrefl _ lt.1
  refine ⟨⟨places.toFinset, ?_, fun p member => h.inside p (List.mem_toFinset.mp member), ?_⟩, ?_⟩
  · rw [← List.toFinset_reverse]
    exact nonCrossing_of_rising (List.pairwise_reverse.mpr h.falling)
  · rw [List.sum_toFinset _ distinct, h.total_eq]
  · rintro w ⟨choice, crossing, inside, rfl⟩
    exact h.bound choice crossing inside

theorem total_le {rows columns : Nat} (h : Optimal weight row column total places) (hr : row ≤ rows) (hc : column ≤ columns) :
    total ≤ ∑ p ∈ Finset.range rows ×ˢ Finset.range columns, weight p := by
  obtain ⟨choice, -, inside, eq⟩ := h.isGreatest.1
  rw [eq]
  apply Finset.sum_le_sum_of_subset
  intro p member
  have := inside p member
  simp only [Finset.mem_product, Finset.mem_range]
  omega

end Optimal

namespace Tables

variable {rows columns : Nat} {weight : Nat × Nat → Nat} {tables : Tables rows columns}

theorem Filled.optimal (h : tables.Filled weight rows 0) {i j : Nat} (hi : i ≤ rows) (hj : j ≤ columns) :
    Optimal weight i j (tables.score i j hi hj) (tables.back i hi j hj) := by
  induction i generalizing j with
  | zero =>
    rw [h.noRow]
    exact .none (.inl rfl)
  | succ i above =>
    induction j with
    | zero =>
      rw [h.noColumn]
      exact .none (.inr rfl)
    | succ j before =>
      have both := above (Nat.le_of_lt hi) (Nat.le_of_lt hj)
      have noRow := above (Nat.le_of_lt hi) hj
      have noColumn := before (Nat.le_of_lt hj)
      have chosen := h.chosen i j hi hj (.inl hi)
      have bound := fun limit => both.sum_le noRow noColumn limit
      rw [back, backRow]
      -- The direction says which of the three the score comes from.
      rcases choose_cases (tables.score i j (Nat.le_of_lt hi) (Nat.le_of_lt hj) + weight (i, j))
          (tables.score i (j + 1) (Nat.le_of_lt hi) hj) (tables.score (i + 1) j hi (Nat.le_of_lt hj)) with
        ⟨eq, le, le'⟩ | ⟨eq, le, le'⟩ | ⟨eq, le, le'⟩ <;> rw [eq] at chosen <;>
        obtain ⟨score, direction⟩ := Prod.mk.inj chosen <;> rw [score, direction]
      · exact noRow.more (Nat.le_succ _) (Nat.le_refl _) (bound _ le (Nat.le_refl _) le')
      · exact noColumn.more (Nat.le_refl _) (Nat.le_succ _) (bound _ le le' (Nat.le_refl _))
      · simp only
        split
        · exact both.pair (by omega) (bound _ (Nat.le_refl _) le le')
        · have nothing : weight (i, j) = 0 := by omega
          rw [nothing]
          exact both.more (Nat.le_succ _) (Nat.le_succ _) (bound _ (by omega) (by omega) (by omega))

theorem fill_optimal (weight : Nat × Nat → Nat) {i j : Nat} (hi : i ≤ rows) (hj : j ≤ columns) :
    Optimal weight i j ((fill rows columns weight).score i j hi hj) ((fill rows columns weight).back i hi j hj) :=
  (fill_filled rows columns weight).optimal hi hj

theorem fill_total (rows columns : Nat) (weight : Nat × Nat → Nat) :
    Optimal weight rows columns (fill rows columns weight).total (fill rows columns weight).places.reverse := by
  rw [places, List.reverse_reverse]
  exact fill_optimal weight (Nat.le_refl rows) (Nat.le_refl columns)

theorem places_rising : (fill rows columns weight).places.Pairwise fun p q => p.1 < q.1 ∧ p.2 < q.2 :=
  List.pairwise_reverse.mp (fill_total rows columns weight).falling

theorem add_weight_le (weight : Nat × Nat → Nat) {i j : Nat} (hi : i < rows) (hj : j < columns) :
    (fill rows columns weight).score i j hi.le hj.le + weight (i, j) ≤
      (fill rows columns weight).score (i + 1) (j + 1) hi hj := by
  have chosen := (fill_filled rows columns weight).chosen i j hi hj (.inl hi)
  rcases choose_cases ((fill rows columns weight).score i j hi.le hj.le + weight (i, j))
    ((fill rows columns weight).score i (j + 1) hi.le hj) ((fill rows columns weight).score (i + 1) j hi hj.le) with
    ⟨eq, le, -⟩ | ⟨eq, le, -⟩ | ⟨eq, -⟩ <;> rw [eq] at chosen <;> rw [(Prod.mk.inj chosen).1]
  · exact le
  · exact le

section Cells

variable {α : Type} {weight : α → Nat} {table : List (List α)}

theorem weightAt_pos {p : Nat × Nat} (positive : 0 < weightAt weight table p) :
    ∃ a, cellAt table p = some a ∧ 0 < weight a := by
  rw [weightAt] at positive
  cases found : cellAt table p with
  | none => simp [found] at positive
  | some a => exact ⟨a, rfl, by simpa [found] using positive⟩

theorem places_pos {p : Nat × Nat} (member : p ∈ (fill rows columns (weightAt weight table)).places) :
    ∃ a, cellAt table p = some a ∧ 0 < weight a :=
  weightAt_pos ((fill_total rows columns _).positive p (List.mem_reverse.mpr member))

theorem map_some_picked : ((fill rows columns (weightAt weight table)).places.filterMap (cellAt table)).map some =
    (fill rows columns (weightAt weight table)).places.map (cellAt table) := by
  apply map_some_filterMap
  intro p member
  obtain ⟨a, found, -⟩ := places_pos member
  rw [found]
  rfl

/-- What the way back through the filled tables finds is a best choice of cells that do not cross. -/
theorem fill_selects (inside : ∀ p a, cellAt table p = some a → p.1 < rows ∧ p.2 < columns) :
    Selects NonCrossing weight table (fill rows columns (weightAt weight table)).total
      ((fill rows columns (weightAt weight table)).places.filterMap (cellAt table)) where
  cells := ⟨_, places_rising.imp fun lt => lt.1, nonCrossing_of_rising places_rising, map_some_picked⟩
  positive := by
    intro a member
    obtain ⟨p, hp, found⟩ := List.mem_filterMap.mp member
    obtain ⟨b, found', weighs⟩ := places_pos hp
    rwa [Option.some_inj.mp (found.symm.trans found')]
  total_eq := by
    rw [← sum_weightAt_eq map_some_picked, ← (fill_total rows columns _).total_eq, List.map_reverse, List.sum_reverse]
  best := by
    intro cells crossing
    have within := (fill_total rows columns (weightAt weight table)).bound (cells.filter fun p => p.1 < rows ∧ p.2 < columns)
      (crossing.subset (Finset.filter_subset _ _)) fun p member => (Finset.mem_filter.mp member).2
    rwa [Finset.sum_filter_of_ne] at within
    intro p _ nonzero
    obtain ⟨a, found, -⟩ := weightAt_pos (Nat.pos_of_ne_zero nonzero)
    exact inside p a found

end Cells

end Tables

theorem answers_selects (left right : Node) (cells : List (List Matchings)) :
    let table := Answer.table left.children right.children cells
    let tables := Tables.fill left.children.length right.children.length (weightAt Answer.score table)
    Selects NonCrossing Answer.score table tables.total (tables.places.filterMap (cellAt table)) := by
  apply Tables.fill_selects
  intro p a found
  obtain ⟨l, r, hl, hr, -⟩ := Answer.cellAt_table_eq_some found
  exact ⟨(List.getElem?_eq_some_iff.mp hl).1, (List.getElem?_eq_some_iff.mp hr).1⟩

end TreeAlign.Alignment
