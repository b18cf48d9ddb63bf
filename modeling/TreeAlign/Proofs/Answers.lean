import Mathlib.Data.List.Forall2
import Mathlib.Data.List.Sort
import TreeAlign.Proofs.Found

namespace TreeAlign

variable {left right : Node}

/-- Matchings of every left with every right node, in rows. -/
def Grid (each : Node → Node → Matchings → Prop) (lefts rights : List Node) (cells : List (List Matchings)) : Prop :=
  List.Forall₂ (fun l => List.Forall₂ (each l) rights) lefts cells

theorem forall₂_getElem? {α β : Type} {each : α → β → Prop} {xs : List α} {ys : List β} (h : List.Forall₂ each xs ys)
    {i : Nat} {x : α} (hx : xs[i]? = some x) : ∃ y, ys[i]? = some y ∧ each x y := by
  obtain ⟨inside, rfl⟩ := List.getElem?_eq_some_iff.mp hx
  have inside' : i < ys.length := h.length_eq ▸ inside
  exact ⟨ys[i], List.getElem?_eq_getElem inside', h.get inside inside'⟩

theorem map_some_filterMap {α β : Type} {f : α → Option β} {xs : List α} (all : ∀ x ∈ xs, (f x).isSome = true) :
    (xs.filterMap f).map some = xs.map f := by
  induction xs with
  | nil => rfl
  | cons x xs ih =>
    obtain ⟨y, image⟩ := Option.isSome_iff_exists.mp (all x List.mem_cons_self)
    have rest := ih fun z member => all z (List.mem_cons_of_mem _ member)
    rw [List.filterMap_cons_some image, List.map_cons, List.map_cons, rest, image]

theorem exists_cellAt {α : Type} {table : List (List α)} {row : List α} {a : α} (hrow : row ∈ table) (ha : a ∈ row) :
    ∃ place, cellAt table place = some a := by
  obtain ⟨i, hi⟩ := List.mem_iff_getElem?.mp hrow
  obtain ⟨j, hj⟩ := List.mem_iff_getElem?.mp ha
  refine ⟨(i, j), ?_⟩
  rw [cellAt, hi]
  exact hj

namespace Answer

theorem cellAt_table (lefts rights : List Node) (cells : List (List Matchings)) (place : Nat × Nat) :
    cellAt (table lefts rights cells) place = (do
      let l ← lefts[place.1]?
      let r ← rights[place.2]?
      let all ← cellAt cells place
      return of l r all) := by
  rw [cellAt, cellAt, table, List.getElem?_zipWith]
  cases lefts[place.1]? with
  | none => rfl
  | some l =>
    cases cells[place.1]? with
    | none => cases rights[place.2]? <;> rfl
    | some row =>
      change (List.zipWith (fun right all => of l right all) rights row)[place.2]? = _
      rw [List.getElem?_zipWith]
      cases rights[place.2]? with
      | none => rfl
      | some r =>
        change _ = (row[place.2]?).bind _
        cases row[place.2]? <;> rfl

theorem cellAt_table_eq_some {lefts rights : List Node} {cells : List (List Matchings)} {place : Nat × Nat}
    {answer : Answer} (h : cellAt (table lefts rights cells) place = some answer) :
    ∃ l r : Node, lefts[place.1]? = some l ∧ rights[place.2]? = some r ∧ cellAt cells place = some answer.all ∧
      answer = of l r answer.all := by
  rw [cellAt_table] at h
  obtain ⟨l, hl, h⟩ := Option.bind_eq_some_iff.mp h
  obtain ⟨r, hr, h⟩ := Option.bind_eq_some_iff.mp h
  obtain ⟨all, hall, h⟩ := Option.bind_eq_some_iff.mp h
  cases h
  exact ⟨l, r, hl, hr, hall, rfl⟩

end Answer

namespace Grid

variable {each : Node → Node → Matchings → Prop} {lefts rights : List Node} {cells : List (List Matchings)}

theorem exists_cell (grid : Grid each lefts rights cells) {place : Nat × Nat} {l r : Node}
    (hl : lefts[place.1]? = some l) (hr : rights[place.2]? = some r) :
    ∃ ms, cellAt cells place = some ms ∧ each l r ms := by
  obtain ⟨row, hrow, rowEach⟩ := forall₂_getElem? grid hl
  obtain ⟨ms, hms, holds⟩ := forall₂_getElem? rowEach hr
  refine ⟨ms, ?_, holds⟩
  rw [cellAt, hrow]
  exact hms

theorem imp_of_mem {other : Node → Node → Matchings → Prop} (grid : Grid each lefts rights cells)
    (imp : ∀ l ∈ lefts, ∀ r ∈ rights, ∀ ms, each l r ms → other l r ms) : Grid other lefts rights cells := by
  have rows := (List.forall₂_and_left _ _).mpr ⟨fun _ member => member, grid⟩
  refine rows.imp fun l row h => ?_
  have columns := (List.forall₂_and_left _ _).mpr ⟨fun _ member => member, h.2⟩
  exact columns.imp fun r ms holds => imp l h.1 r holds.1 ms holds.2

theorem answer (grid : Grid each lefts rights cells) {place : Nat × Nat} {answer : Answer}
    (h : cellAt (Answer.table lefts rights cells) place = some answer) :
    ∃ l r : Node, lefts[place.1]? = some l ∧ rights[place.2]? = some r ∧ each l r answer.all ∧
      answer = .of l r answer.all := by
  obtain ⟨l, r, hl, hr, cell, same⟩ := Answer.cellAt_table_eq_some h
  obtain ⟨ms, cell', holds⟩ := grid.exists_cell hl hr
  rw [cell, Option.some_inj] at cell'
  exact ⟨l, r, hl, hr, cell' ▸ holds, same⟩

theorem length_table (grid : Grid each lefts rights cells) :
    (Answer.table lefts rights cells).length = lefts.length := by
  rw [Answer.table, List.length_zipWith, ← grid.length_eq, Nat.min_self]

theorem table_wide (grid : Grid each lefts rights cells) :
    ∀ row ∈ Answer.table lefts rights cells, row.length = rights.length := by
  induction grid with
  | nil => exact fun row member => absurd member List.not_mem_nil
  | cons head _ ih =>
    intro row member
    rcases List.mem_cons.mp member with rfl | member
    · rw [List.length_zipWith, ← head.length_eq, Nat.min_self]
    · exact ih row member

theorem weightAt_table (grid : Grid each lefts rights cells) {place : Nat × Nat} {l r : Node}
    (hl : lefts[place.1]? = some l) (hr : rights[place.2]? = some r) :
    ∃ ms, each l r ms ∧ weightAt Answer.score (Answer.table lefts rights cells) place = ms.scoreOf l.id r.id := by
  obtain ⟨ms, cell, holds⟩ := grid.exists_cell hl hr
  refine ⟨ms, holds, ?_⟩
  rw [weightAt, Answer.cellAt_table, hl, hr, cell]
  rfl

end Grid

theorem weightAt_table_outside (lefts rights : List Node) (cells : List (List Matchings)) {place : Nat × Nat}
    (outside : lefts[place.1]? = none ∨ rights[place.2]? = none) :
    weightAt Answer.score (Answer.table lefts rights cells) place = 0 := by
  rw [weightAt, Answer.cellAt_table]
  rcases outside with none | none
  · rw [none]
    rfl
  · rw [none]
    cases lefts[place.1]? <;> rfl

section Picked

variable {algorithm : Algorithm} {total : Nat} {picked : List Answer}

def allAt (table : List (List Answer)) (place : Nat × Nat) : Matchings :=
  match cellAt table place with
  | some answer => answer.all
  | none => .empty

theorem get?_ofPicked (algorithm : Algorithm) (left right : Node) (total : Nat) (picked : List Answer) :
    ∃ m, (Matchings.ofPicked algorithm left right total picked).get? left.id right.id = some m ∧
      m.score = total + left.ownScore right :=
  ⟨_, Matchings.get?_foldl_union (Matchings.get?_single rfl), rfl⟩

theorem mem_picked_iff {table : List (List Answer)} {places : List (Nat × Nat)}
    (cells : picked.map some = places.map (cellAt table)) {answer : Answer} :
    answer ∈ picked ↔ ∃ place ∈ places, cellAt table place = some answer := by
  rw [← List.mem_map, ← cells, List.mem_map]
  constructor
  · exact fun member => ⟨answer, member, rfl⟩
  · rintro ⟨other, member, same⟩
    rwa [← Option.some_inj.mp same]

theorem exists_picked {table : List (List Answer)} {places : List (Nat × Nat)}
    (cells : picked.map some = places.map (cellAt table)) {place : Nat × Nat} (used : place ∈ places) :
    ∃ answer ∈ picked, cellAt table place = some answer := by
  have member : cellAt table place ∈ picked.map some := cells ▸ List.mem_map_of_mem used
  obtain ⟨answer, member, same⟩ := List.mem_map.mp member
  exact ⟨answer, member, same.symm⟩

theorem sublist_of_rising (hl : left.Numbered) {ids : List NodeId} (rising : ids.Pairwise (· < ·))
    (inside : ids ⊆ left.children.map Tree.id) : ids.Sublist (left.children.map Tree.id) := by
  have ordered : (left.children.map Tree.id).Pairwise (· < ·) := by
    rw [List.pairwise_map]
    refine (Tree.numbered_iff.mp hl).pairwise.imp fun {a b} apart => ?_
    have := a.size_pos
    lia
  have subperm : ids.Subperm (left.children.map Tree.id) := List.subperm_of_subset (rising.imp Nat.ne_of_lt) inside
  exact List.sublist_of_subperm_of_pairwise subperm rising ordered

def entryOf (algorithm : Algorithm) (left right : Node) (total : Nat) (picked : List Answer) : Matching :=
  { left := left.id, right := right.id, score := total + left.ownScore right, algorithm := algorithm,
    runtime := some .zero, children := picked.filterMap fun a => a.direct.map Matching.shallow }

theorem ofPicked_eq (algorithm : Algorithm) (left right : Node) (total : Nat) (picked : List Answer) :
    Matchings.ofPicked algorithm left right total picked =
      picked.foldl (fun ms a => ms.union a.all) (.single (entryOf algorithm left right total picked)) := rfl

section Gathered

variable {cells : List (List Matchings)} {places : List (Nat × Nat)}

theorem Grid.direct (grid : Grid Found left.children right.children cells) {place : Nat × Nat} {answer : Answer}
    (cell : cellAt (Answer.table left.children right.children cells) place = some answer) :
    ∃ a b n, left.children[place.1]? = some a ∧ right.children[place.2]? = some b ∧ answer.direct = some n ∧
      n ∈ answer.all.entries ∧ n.pair = (a.id, b.id) ∧ n.score = answer.score ∧ Found a b answer.all := by
  obtain ⟨a, b, ha, hb, found, same⟩ := grid.answer cell
  obtain ⟨n, member, pair, root⟩ := found.exists_root
  have direct : answer.direct = some n := (congrArg Answer.direct same).trans root
  have score : answer.score = n.score := by
    rw [same]
    change answer.all.scoreOf a.id b.id = n.score
    rw [Matchings.scoreOf, root]
  exact ⟨a, b, n, ha, hb, direct, member, pair, score.symm, found⟩

theorem sum_direct (direct : ∀ answer ∈ picked, ∃ n, answer.direct = some n ∧ n.score = answer.score) :
    ((picked.filterMap fun a => a.direct.map Matching.shallow).map Matching.score).sum = (picked.map Answer.score).sum := by
  induction picked with
  | nil => rfl
  | cons answer picked ih =>
    obtain ⟨n, found, score⟩ := direct answer List.mem_cons_self
    have rest := ih fun a member => direct a (List.mem_cons_of_mem _ member)
    rw [List.filterMap_cons_some (b := n.shallow) (by rw [found]; rfl), List.map_cons, List.sum_cons, rest, List.map_cons,
      List.sum_cons, ← score]
    rfl

theorem filterMap_direct {table : List (List Answer)} (same : picked.map some = places.map (cellAt table)) :
    picked.filterMap (fun a => a.direct.map Matching.shallow) =
      places.filterMap fun place => (cellAt table place).bind fun a => a.direct.map Matching.shallow := by
  calc picked.filterMap (fun a => a.direct.map Matching.shallow)
      = (picked.map some).filterMap (·.bind fun a => a.direct.map Matching.shallow) := by
        rw [List.filterMap_map]
        rfl
    _ = (places.map (cellAt table)).filterMap (·.bind fun a => a.direct.map Matching.shallow) := by rw [same]
    _ = _ := List.filterMap_map

theorem gathers_entryOf (hl : left.Numbered) (grid : Grid Found left.children right.children cells)
    (rising : places.Pairwise fun p q => p.1 < q.1)
    (same : picked.map some = places.map (cellAt (Answer.table left.children right.children cells)))
    (sum : (picked.map Answer.score).sum = total) :
    Gathers left right places.toFinset (allAt (Answer.table left.children right.children cells))
      (entryOf algorithm left right total picked) := by
  have listed : (entryOf algorithm left right total picked).children = _ := filterMap_direct same
  have child {place : Nat × Nat} {c : Matching}
      (h : ((cellAt (Answer.table left.children right.children cells) place).bind
        fun a => a.direct.map Matching.shallow) = some c) :
      ∃ a b n, left.children[place.1]? = some a ∧ right.children[place.2]? = some b ∧
        n ∈ (allAt (Answer.table left.children right.children cells) place).entries ∧ n.pair = (a.id, b.id) ∧
        n.shallow = c := by
    obtain ⟨answer, cell, h⟩ := Option.bind_eq_some_iff.mp h
    obtain ⟨a, b, n, ha, hb, direct, member, pair, -⟩ := grid.direct cell
    rw [direct] at h
    refine ⟨a, b, n, ha, hb, ?_, pair, Option.some_inj.mp h⟩
    rwa [allAt, cell]
  refine ⟨rfl, sublist_of_rising hl ?_ ?_, fun c => ?_, .inr ?_⟩
  · rw [listed, List.pairwise_map, List.pairwise_filterMap]
    refine rising.imp fun {p q} lt c hc d hd => ?_
    obtain ⟨a, b, n, ha, -, -, pair, rfl⟩ := child hc
    obtain ⟨a', b', n', ha', -, -, pair', rfl⟩ := child hd
    have apart := hl.children_lt ha ha' lt
    have positive := a.size_pos
    have here : n.left = a.id := congrArg Prod.fst pair
    have there : n'.left = a'.id := congrArg Prod.fst pair'
    change n.left < n'.left
    lia
  · intro i member
    obtain ⟨c, hc, rfl⟩ := List.mem_map.mp member
    rw [listed] at hc
    obtain ⟨place, -, hc⟩ := List.mem_filterMap.mp hc
    obtain ⟨a, b, n, ha, -, -, pair, rfl⟩ := child hc
    exact List.mem_map.mpr ⟨a, List.mem_of_getElem? ha, (congrArg Prod.fst pair).symm⟩
  · rw [listed, List.mem_filterMap]
    constructor
    · rintro ⟨place, used, hc⟩
      obtain ⟨a, b, n, ha, hb, member, pair, rfl⟩ := child hc
      exact ⟨place, List.mem_toFinset.mpr used, a, b, ha, hb, n, member, pair, rfl⟩
    · rintro ⟨place, used, a, b, ha, hb, n, member, pair, rfl⟩
      have used := List.mem_toFinset.mp used
      obtain ⟨answer, -, cell⟩ := exists_picked same used
      obtain ⟨a', b', n', ha', hb', direct, member', pair', -, found⟩ := grid.direct cell
      rw [ha, Option.some_inj] at ha'
      rw [hb, Option.some_inj] at hb'
      subst ha'
      subst hb'
      rw [allAt, cell] at member
      refine ⟨place, used, ?_⟩
      rw [cell, found.distinct.eq member member' (pair.trans pair'.symm)]
      simp [direct]
  · change total + left.ownScore right = _
    rw [← sum]
    congr 1
    refine (sum_direct fun answer chosen => ?_).symm
    obtain ⟨place, -, cell⟩ := (mem_picked_iff same).mp chosen
    obtain ⟨a, b, n, -, -, direct, -, -, score, -⟩ := grid.direct cell
    exact ⟨n, direct, score⟩

end Gathered

/-- The matchings of two nodes whose children are matched as a strategy picks. -/
theorem Selects.found (hl : left.Numbered) (hr : right.Numbered) {cells : List (List Matchings)}
    (grid : Grid Found left.children right.children cells)
    (selects : Selects (Selectable (Dispatcher.isOrdered left right)) Answer.score
      (Answer.table left.children right.children cells) total picked) :
    Found left right (Matchings.ofPicked algorithm left right total picked) := by
  obtain ⟨places, rising, selectable, same⟩ := selects.cells
  let table := Answer.table left.children right.children cells
  have known : ∀ place answer, cellAt table place = some answer → allAt table place = answer.all := by
    intro place answer cell
    rw [allAt, cell]
  have each : ∀ place ∈ places.toFinset, ∃ a b, left.children[place.1]? = some a ∧ right.children[place.2]? = some b ∧
      Found a b (allAt table place) ∧ 0 < (allAt table place).scoreOf a.id b.id := by
    intro place used
    obtain ⟨answer, chosen, cell⟩ := exists_picked same (List.mem_toFinset.mp used)
    obtain ⟨a, b, ha, hb, found, eq⟩ := grid.answer cell
    have score : answer.score = answer.all.scoreOf a.id b.id := congrArg Answer.score eq
    refine ⟨a, b, ha, hb, ?_⟩
    rw [known place answer cell, ← score]
    exact ⟨found, selects.positive answer chosen⟩
  have mapping : (Matchings.ofPicked algorithm left right total picked).mapping =
      Mapping.glue left right places.toFinset fun place => (allAt table place).mapping := by
    ext p
    rw [ofPicked_eq, Matchings.mem_mapping_foldl_union, Matchings.mapping_single, Mapping.mem_glue, Finset.mem_singleton]
    refine or_congr_right ?_
    constructor
    · rintro ⟨answer, chosen, member⟩
      obtain ⟨place, used, cell⟩ := (mem_picked_iff same).mp chosen
      exact ⟨place, List.mem_toFinset.mpr used, known place answer cell ▸ member⟩
    · rintro ⟨place, used, member⟩
      obtain ⟨answer, chosen, cell⟩ := exists_picked same (List.mem_toFinset.mp used)
      exact ⟨answer, chosen, known place answer cell ▸ member⟩
  have glued : Glued left right places.toFinset (allAt table) (Matchings.ofPicked algorithm left right total picked) := by
    refine ⟨selectable, each, mapping, Matchings.distinct_single.foldl_union, fun m member => ?_⟩
    rw [ofPicked_eq] at member
    rcases Matchings.mem_foldl_union member with root | ⟨answer, chosen, below⟩
    · rw [Matchings.single, List.mem_singleton] at root
      subst root
      refine .inl ⟨gathers_entryOf hl grid rising same selects.total_eq, fun zero => ?_⟩
      -- A root without a score has picked nothing.
      have nothing : (picked.map Answer.score).sum = 0 := by
        rw [selects.total_eq]
        exact (Nat.add_eq_zero_iff.mp zero).1
      cases picked with
      | nil => rfl
      | cons answer rest =>
        rw [List.map_cons, List.sum_cons] at nothing
        have weighs := selects.positive answer List.mem_cons_self
        omega
    · obtain ⟨place, used, cell⟩ := (mem_picked_iff same).mp chosen
      exact .inr ⟨place, List.mem_toFinset.mpr used, known place answer cell ▸ below⟩
  exact glued.found hl hr

/-- If the answers are the best for the children, what a strategy picks is best for their parents. -/
theorem Selects.isGreatest_agreements (hl : left.Numbered) (hr : right.Numbered) {cells : List (List Matchings)}
    (grid : Grid (fun a b ms => IsGreatest (Mapping.agreements a b) (ms.scoreOf a.id b.id)) left.children right.children
      cells)
    (selects : Selects (Selectable (Dispatcher.isOrdered left right)) Answer.score
      (Answer.table left.children right.children cells) total picked) :
    IsGreatest (Mapping.agreements left right) (total + left.ownScore right) := by
  refine Mapping.isGreatest_agreements hl hr ?_ (fun _ => weightAt_table_outside _ _ _) selects.isGreatest
  intro place a b ha hb
  obtain ⟨ms, best, weight⟩ := grid.weightAt_table ha hb
  rw [weight]
  exact best

end Picked

end TreeAlign
