import TreeAlign.Proofs.Assignment.Growth

namespace TreeAlign.Assignment

variable {n : Nat} {cost : Nat → Nat → Int}

/-- Columns each reached from the next, down to column 0. -/
inductive Way (origin : Fin (n + 1) → Fin (n + 1)) : List (Fin (n + 1)) → Prop
  | start : Way origin [0]
  | step {c d : Fin (n + 1)} {rest : List (Fin (n + 1))} (later : Way origin (d :: rest)) (new : c ∉ d :: rest)
    (reached : origin c = d) : Way origin (c :: d :: rest)

def after : List (Fin (n + 1)) → Fin (n + 1) → Fin (n + 1)
  | c :: d :: rest, column => if column = c then d else after (d :: rest) column
  | _, column => column

theorem Way.nodup {origin : Fin (n + 1) → Fin (n + 1)} {way : List (Fin (n + 1))} (h : Way origin way) :
    way.Nodup := by
  induction h with
  | start => exact List.nodup_singleton 0
  | step _ new _ ih => exact List.nodup_cons.mpr ⟨new, ih⟩

theorem Way.zero_mem {origin : Fin (n + 1) → Fin (n + 1)} {way : List (Fin (n + 1))} (h : Way origin way) :
    0 ∈ way := by
  induction h with
  | start => exact List.mem_singleton.mpr rfl
  | step _ _ _ ih => exact List.mem_cons_of_mem _ ih

theorem Way.exists_next {origin : Fin (n + 1) → Fin (n + 1)} {c : Fin (n + 1)} {rest : List (Fin (n + 1))}
    (h : Way origin (c :: rest)) (nonzero : c ≠ 0) :
    ∃ rest', rest = origin c :: rest' ∧ Way origin (origin c :: rest') ∧ c ∉ origin c :: rest' := by
  generalize eq : c :: rest = way at h
  cases h with
  | start => exact absurd (List.cons.inj eq).1 nonzero
  | step later new reached =>
    cases eq
    subst reached
    exact ⟨_, rfl, later, new⟩

theorem after_of_notMem {way : List (Fin (n + 1))} {column : Fin (n + 1)} (outside : column ∉ way) :
    after way column = column := by
  induction way with
  | nil => rfl
  | cons c rest ih =>
    cases rest with
    | nil => rfl
    | cons d rest =>
      rw [after, if_neg (fun eq => outside (List.mem_cons.mpr (.inl eq)))]
      exact ih (fun member => outside (List.mem_cons_of_mem _ member))

theorem after_mem_or (way : List (Fin (n + 1))) (column : Fin (n + 1)) :
    after way column = column ∨ after way column ∈ way.tail := by
  induction way with
  | nil => exact .inl rfl
  | cons c rest ih =>
    cases rest with
    | nil => exact .inl rfl
    | cons d rest =>
      rw [after]
      split
      · exact .inr List.mem_cons_self
      · rcases ih with same | member
        · exact .inl same
        · exact .inr (List.mem_cons_of_mem _ member)

theorem Way.after_eq {origin : Fin (n + 1) → Fin (n + 1)} {way : List (Fin (n + 1))} (h : Way origin way)
    {column : Fin (n + 1)} (member : column ∈ way) (nonzero : column ≠ 0) : after way column = origin column := by
  induction h with
  | start => exact absurd (List.mem_singleton.mp member) nonzero
  | @step c d rest later new reached ih =>
    rw [after]
    split
    · rename_i eq
      rw [eq, reached]
    · rename_i other
      exact ih ((List.mem_cons.mp member).resolve_left other)

theorem Way.after_ne_head {origin : Fin (n + 1) → Fin (n + 1)} {first : Fin (n + 1)} {rest : List (Fin (n + 1))}
    (h : Way origin (first :: rest)) {column : Fin (n + 1)} (nonzero : column ≠ 0) :
    after (first :: rest) column ≠ first := by
  cases h with
  | start => exact nonzero
  | @step c d rest later new reached =>
    rw [after]
    split
    · exact fun eq => new (eq ▸ List.mem_cons_self)
    · rename_i other
      rcases after_mem_or (d :: rest) column with same | member
      · rwa [same]
      · exact fun eq => new (List.mem_cons_of_mem _ (eq ▸ member))

theorem Way.after_injective {origin : Fin (n + 1) → Fin (n + 1)} {way : List (Fin (n + 1))} (h : Way origin way)
    {i j : Fin (n + 1)} (hi : i ≠ 0) (hj : j ≠ 0) (same : after way i = after way j) : i = j := by
  induction h with
  | start => exact same
  | @step c d rest later new reached ih =>
    rw [after, after] at same
    by_cases ci : i = c <;> by_cases cj : j = c
    · rw [ci, cj]
    · rw [if_pos ci, if_neg cj] at same
      exact absurd same.symm (later.after_ne_head hj)
    · rw [if_neg ci, if_pos cj] at same
      exact absurd same (later.after_ne_head hi)
    · rw [if_neg ci, if_neg cj] at same
      exact ih same

theorem Way.exists_after {origin : Fin (n + 1) → Fin (n + 1)} {first : Fin (n + 1)} {rest : List (Fin (n + 1))}
    (h : Way origin (first :: rest)) {column : Fin (n + 1)} (other : column ≠ first) :
    ∃ j, j ≠ 0 ∧ after (first :: rest) j = column := by
  generalize eq : first :: rest = way at h
  induction h generalizing first rest with
  | start =>
    cases eq
    exact ⟨column, other, rfl⟩
  | @step c d rest later new reached ih =>
    cases eq
    by_cases second : column = d
    · have nonzero : c ≠ 0 := fun zero => new (zero ▸ later.zero_mem)
      exact ⟨c, nonzero, by rw [after, if_pos rfl, second]⟩
    · obtain ⟨j, nonzero, found⟩ := ih second rfl
      have distinct : j ≠ c := by
        rintro rfl
        rw [after_of_notMem new] at found
        exact other found.symm
      exact ⟨j, nonzero, by rw [after, if_neg distinct, found]⟩

theorem Labelling.Traced.tight_of_mem {labelling : Labelling n} {trail : List (Fin (n + 1))}
    (traced : labelling.Traced cost trail) {c : Fin (n + 1)} (member : c ∈ trail) (nonzero : c ≠ 0) :
    labelling.reduced cost (labelling.rowAt (labelling.origin c)) c = 0 := by
  induction traced with
  | start => exact absurd (List.mem_singleton.mp member) nonzero
  | step _ _ _ tight ih =>
    rcases List.mem_cons.mp member with rfl | member
    · exact tight
    · exact ih member

theorem Labelling.Traced.exists_way {labelling : Labelling n} {trail : List (Fin (n + 1))}
    (traced : labelling.Traced cost trail) {c : Fin (n + 1)} (member : c ∈ trail) :
    ∃ rest, Way labelling.origin (c :: rest) ∧ c :: rest ⊆ trail := by
  induction traced generalizing c with
  | start =>
    obtain rfl := List.mem_singleton.mp member
    exact ⟨[], .start, List.Subset.refl _⟩
  | @step trail column earlier new reached tight ih =>
    rcases List.mem_cons.mp member with rfl | member
    · obtain ⟨rest, way, sub⟩ := ih reached
      refine ⟨_, .step way (fun again => new (sub again)) rfl, ?_⟩
      exact List.cons_subset_cons _ sub
    · obtain ⟨rest, way, sub⟩ := ih member
      exact ⟨rest, way, fun d hd => List.mem_cons_of_mem _ (sub hd)⟩

theorem Search.augment_spec {search : Search n} {rest : List (Fin (n + 1))}
    (way : Way search.origin (search.column :: rest)) (nonzero : search.column ≠ 0) {steps : Nat}
    (enough : rest.length ≤ steps) :
    (∀ j, (search.augment steps).rowAt j = search.rowAt (after (search.column :: rest) j)) ∧
      (search.augment steps).reduced cost = search.reduced cost := by
  induction steps generalizing search rest with
  | zero =>
    obtain ⟨rest', eq, -, -⟩ := way.exists_next nonzero
    rw [eq] at enough
    cases enough
  | succ steps ih =>
    obtain ⟨rest, rfl, later, new⟩ := way.exists_next nonzero
    rw [Search.augment]
    set next : Search n := { search with
      rowOf := search.rowOf.set search.column search.rowOf[search.reachedFrom[search.column]]
      column := search.reachedFrom[search.column] } with hnext
    have handed (j : Fin (n + 1)) : next.rowAt j =
        if j = search.column then search.rowAt (search.origin search.column) else search.rowAt j := by
      simp only [hnext, Labelling.rowAt, Labelling.origin, Fin.getElem_fin, getElem_eq_get, get_set, eq_comm]
    by_cases done : search.origin search.column = 0
    · have stop : search.reachedFrom[search.column] = 0 := done
      simp only [stop, if_true]
      refine ⟨fun j => ?_, rfl⟩
      rw [after]
      refine Eq.trans ?_ ((handed j).trans ?_)
      · simp only [hnext, stop]
      · rw [done] at later ⊢
        split
        · rfl
        · generalize eq : 0 :: rest = columns at later
          cases later with
          | start => rfl
          | step later' new' _ =>
            cases eq
            exact absurd later'.zero_mem new'
    · have goOn : ¬ search.reachedFrom[search.column] = 0 := done
      simp only [goOn, if_false]
      have onwards : Way next.origin (next.column :: rest) := later
      obtain ⟨rows, same⟩ := ih onwards done (Nat.le_of_succ_le_succ enough)
      refine ⟨fun j => (rows j).trans ?_, same⟩
      rw [handed, after]
      change (if after (search.origin search.column :: rest) j = search.column then _ else
        search.rowAt (after (search.origin search.column :: rest) j)) = _
      by_cases first : j = search.column
      · rw [if_pos first, first, after_of_notMem new, if_pos rfl]
      · rw [if_neg first, if_neg]
        rcases after_mem_or (search.origin search.column :: rest) j with stays | member
        · rwa [stays]
        · exact fun eq => new (List.mem_cons_of_mem _ (eq ▸ member))

/-- Handing the rows on from a free column keeps them all, each at one column other than column 0. -/
structure Labelling.HandedOn (cost : Nat → Nat → Int) (search : Search n) (result : Labelling n) : Prop
    extends result.Balanced cost where
  injective : ∀ c d : Fin (n + 1), c ≠ 0 → d ≠ 0 → result.rowAt c ≠ 0 → result.rowAt c = result.rowAt d → c = d
  from_before : ∀ c : Fin (n + 1), c ≠ 0 → ∃ d, result.rowAt c = search.rowAt d
  kept : ∀ d, search.rowAt d ≠ 0 → ∃ c : Fin (n + 1), c ≠ 0 ∧ result.rowAt c = search.rowAt d

theorem Search.Growing.exists_way {search : Search n} {trail : List (Fin (n + 1))} (grown : search.Growing cost trail) :
    ∃ rest, Way search.origin (search.column :: rest) ∧ search.column :: rest ⊆ search.column :: trail ∧
      rest.length ≤ n + 1 := by
  obtain ⟨rest, way, sub⟩ := grown.traced.exists_way List.mem_cons_self
  have short := List.Nodup.length_le_card way.nodup
  rw [List.length_cons, Fintype.card_fin] at short
  exact ⟨rest, way, sub, by omega⟩

theorem Search.Growing.augment {search : Search n} {trail : List (Fin (n + 1))} (grown : search.Growing cost trail)
    (nonzero : search.column ≠ 0) (reached : search.rowAt search.column = 0) :
    (search.augment (n + 1)).HandedOn cost search := by
  obtain ⟨rest, way, sub, short⟩ := grown.exists_way
  obtain ⟨handed, same⟩ : (∀ j, (search.augment (n + 1)).rowAt j = search.rowAt (after (search.column :: rest) j)) ∧
      (search.augment (n + 1)).reduced cost = search.reduced cost := Search.augment_spec way nonzero short
  refine ⟨⟨?_, ?_⟩, ?_, fun c _ => ⟨_, handed c⟩, ?_⟩
  · intro r c hr hc
    rw [same]
    exact grown.feasible r c hr hc
  · intro c hc held
    rw [handed] at held
    rw [same, handed]
    by_cases onWay : c ∈ search.column :: rest
    · rw [way.after_eq onWay hc]
      exact grown.traced.tight_of_mem (sub onWay) hc
    · rw [after_of_notMem onWay] at held ⊢
      exact grown.tight c hc held
  · intro c d hc hd held equal
    rw [handed] at held equal
    rw [handed] at equal
    exact way.after_injective hc hd (grown.injective _ _ held equal)
  · intro d held
    have other : d ≠ search.column := fun eq => held (eq ▸ reached)
    obtain ⟨c, hc, eq⟩ := way.exists_after other
    exact ⟨c, hc, by rw [handed, eq]⟩

theorem Search.start_grows {labelling : Labelling n} {count : Nat} (assigned : labelling.Assigned cost count)
    {row : Fin (n + 1)} (new : row.val = count + 1) :
    ∃ found trail, (start labelling row).grow cost (n + 2) = some found ∧ found.Growing cost trail ∧
      found.column ≠ 0 ∧ found.rowAt found.column = 0 ∧ found.rowAt = (start labelling row).rowAt := by
  have growing : (start labelling row).Growing cost [] := start_growing assigned (by omega)
  have first := rowAt_start_zero labelling row
  have row_nonzero : row ≠ 0 := by
    rintro rfl
    rw [Fin.val_zero] at new
    omega
  obtain ⟨free, free_nonzero, isFree⟩ := assigned.exists_free (by have := row.isLt; omega)
  have enough : n + 1 ≤ ([] : List (Fin (n + 1))).length + (n + 2) := by simp
  obtain ⟨found, trail, run, grown, reached, rows⟩ := growing.grow
    (fun zero => row_nonzero (first.symm.trans zero)) ((rowAt_start labelling row free_nonzero).trans isFree) enough
  have column_nonzero : found.column ≠ 0 := by
    intro zero
    rw [rows, zero, first] at reached
    exact row_nonzero reached
  exact ⟨found, trail, run, grown, column_nonzero, reached, rows⟩

theorem insertRow_assigned {labelling : Labelling n} {count : Nat} (assigned : labelling.Assigned cost count)
    {row : Fin (n + 1)} (new : row.val = count + 1) :
    ∃ result, insertRow cost labelling row = some result ∧ result.Assigned cost (count + 1) := by
  have first := Search.rowAt_start_zero labelling row
  have others (c : Fin (n + 1)) := Search.rowAt_start labelling row (c := c)
  obtain ⟨found, trail, run, grown, column_nonzero, reached, rows⟩ := Search.start_grows assigned new
  have handed := grown.augment column_nonzero reached
  refine ⟨(found.augment (n + 1)).toLabelling, ?_, handed.toBalanced, handed.injective, ?_, ?_⟩
  · simp [insertRow, run]
  · intro c hc
    obtain ⟨d, eq⟩ := handed.from_before c hc
    rw [eq, rows]
    by_cases zero : d = 0
    · rw [zero, first, new]
    · rw [others d zero]
      have := assigned.bounded d zero
      omega
  · intro r hr bound
    have held : ∃ d, found.rowAt d = r := by
      rw [rows]
      by_cases this_row : r = row
      · exact ⟨0, first.trans this_row.symm⟩
      · have different : r.val ≠ row.val := fun eq => this_row (Fin.ext eq)
        obtain ⟨d, hd, eq⟩ := assigned.onto r hr (by omega)
        exact ⟨d, (others d hd).trans eq⟩
    obtain ⟨d, rfl⟩ := held
    exact handed.kept d hr

/-- All rows get columns of their own. -/
theorem assignRows_assigned (nonnegative : ∀ i j, 0 ≤ cost i j) :
    ∃ labelling, assignRows n cost = some labelling ∧ labelling.Assigned cost n := by
  have run : ∀ (rest : List (Fin n)) (count : Nat) (labelling : Labelling n),
      (List.finRange n).drop count = rest → count ≤ n → labelling.Assigned cost count →
      ∃ result, rest.foldlM (fun labelling row => insertRow cost labelling row.succ) labelling = some result ∧
        result.Assigned cost n := by
    intro rest
    induction rest with
    | nil =>
      intro count labelling remaining bound assigned
      have : count = n := by
        have := List.drop_eq_nil_iff.mp remaining
        rw [List.length_finRange] at this
        omega
      subst this
      exact ⟨labelling, rfl, assigned⟩
    | cons row rest ih =>
      intro count labelling remaining bound assigned
      have inside : count < (List.finRange n).length := by
        by_contra outside
        rw [List.drop_eq_nil_of_le (by omega)] at remaining
        cases remaining
      rw [List.drop_eq_getElem_cons inside, List.cons.injEq] at remaining
      rw [List.length_finRange] at inside
      have index : row.succ.val = count + 1 := by
        rw [← remaining.1]
        simp
      obtain ⟨next, step, assigned'⟩ := insertRow_assigned assigned index
      obtain ⟨result, run, final⟩ := ih (count + 1) next remaining.2 inside assigned'
      exact ⟨result, by rw [List.foldlM_cons, step]; exact run, final⟩
  exact run _ 0 _ rfl (Nat.zero_le n) (Labelling.start_assigned nonnegative)

end TreeAlign.Assignment
