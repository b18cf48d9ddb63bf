import TreeAlign.Proofs.Assignment.Words

namespace TreeAlign.Assignment

variable {n : Nat} {cost : Nat → Nat → Int} {bound low : Int}

attribute [ext] Search

def slackWord : Option Int → Int64
  | none => Int64.maxValue
  | some slack => Int64.ofInt slack

def Labelling.registers (labelling : Labelling n) : Words.Registers n where
  rowPotential := labelling.rowPotential.map Int64.ofInt
  columnPotential := labelling.columnPotential.map Int64.ofInt
  rowOf := labelling.rowOf.map Fin.val
  reachedFrom := labelling.reachedFrom.map Fin.val

def Search.round (search : Search n) : Words.Round n where
  toRegisters := search.registers
  slack := search.slack.map slackWord
  visited := search.visited

/-- The words of a search that has looked for the best column so far. -/
def Search.sweepWords (search : Search n) (best : Option (Fin (n + 1) × Int)) : Words.Sweep n where
  toRound := search.round
  least := slackWord (best.map Prod.snd)
  nearest := best.elim 0 fun b => b.1.val

@[simp]
theorem Search.toRound_sweepWords (search : Search n) (best : Option (Fin (n + 1) × Int)) :
    (search.sweepWords best).toRound = search.round := rfl

@[simp]
theorem Search.least_sweepWords (search : Search n) (column : Fin (n + 1)) (slack : Int) :
    (search.sweepWords (some (column, slack))).least = Int64.ofInt slack := rfl

@[simp]
theorem Search.nearest_sweepWords (search : Search n) (column : Fin (n + 1)) (slack : Int) :
    (search.sweepWords (some (column, slack))).nearest = column.val := rfl

def Listed (cost : Nat → Nat → Int) (n : Nat) (costs : List (List Int64)) : Prop :=
  ∀ i j : Fin n, ∃ cells, costs[i.val]? = some cells ∧ cells[j.val]? = some (Int64.ofInt (cost i j))

theorem ext_get {α : Type} {k : Nat} {xs ys : Vector α k} (same : ∀ i, xs.get i = ys.get i) : xs = ys := by
  ext i hi
  exact same ⟨i, hi⟩

theorem ofInt_lt_slackWord {x : Int} {slack : Option Int} (inner : Inner x) (known : ∀ s, slack = some s → Inner s) :
    Int64.ofInt x < slackWord slack ↔ ∀ s, slack = some s → x < s := by
  cases slack with
  | none => simp [slackWord, Words.ofInt_lt_maxValue inner]
  | some s => simp [slackWord, Words.ofInt_lt_ofInt inner (known s rfl)]

/-- A loop that can always take its next step ends. What holds of the state may depend on the items done so far. -/
theorem foldlM_ok {α β : Type} {step : β → α → Except Stop β} {holds : List α → β → Prop} {items : List α} {start : β}
    (first : holds [] start)
    (next : ∀ seen c rest state, items = seen ++ c :: rest → holds seen state →
      ∃ state', step state c = .ok state' ∧ holds (seen ++ [c]) state') :
    ∃ state, items.foldlM step start = .ok state ∧ holds items state := by
  have run : ∀ rest seen state, items = seen ++ rest → holds seen state →
      ∃ state', rest.foldlM step state = .ok state' ∧ holds items state' := by
    intro rest
    induction rest with
    | nil =>
      intro seen state split held
      rw [List.append_nil] at split
      exact ⟨state, rfl, split ▸ held⟩
    | cons c rest ih =>
      intro seen state split held
      obtain ⟨state', taken, held'⟩ := next seen c rest state split held
      rw [List.foldlM_cons, taken, Words.ok_bind]
      apply ih (seen ++ [c]) state' _ held'
      rw [split, List.append_assoc, List.singleton_append]
  exact run items [] start rfl first

theorem foldlM_eq {α β : Type} {step : β → α → Except Stop β} (state : List α → β) {items : List α}
    (next : ∀ seen c rest, items = seen ++ c :: rest → step (state seen) c = .ok (state (seen ++ [c]))) :
    items.foldlM step (state []) = .ok (state items) := by
  have always (seen : List α) (c : α) (rest : List α) (s : β) (split : items = seen ++ c :: rest) (eq : s = state seen) :
      ∃ s', step s c = .ok s' ∧ s' = state (seen ++ [c]) :=
    ⟨_, eq ▸ next seen c rest split, rfl⟩
  obtain ⟨final, run, eq⟩ := @foldlM_ok α β step (fun seen s => s = state seen) items _ rfl always
  rw [run, eq]

theorem notMem_of_split {α : Type} {items seen rest : List α} {c : α} (distinct : items.Nodup)
    (split : items = seen ++ c :: rest) : c ∉ seen := by
  rw [split] at distinct
  intro member
  exact (List.nodup_append.mp distinct).2.2 c member c List.mem_cons_self rfl

theorem length_of_split {seen rest : List (Fin n)} {c : Fin n} (split : List.finRange n = seen ++ c :: rest) :
    c.val = seen.length := by
  have early : seen.length < (List.finRange n).length := by
    rw [split, List.length_append, List.length_cons]
    omega
  have here := List.getElem_of_eq split early
  rw [List.getElem_finRange, List.getElem_append_right (Nat.le_refl _)] at here
  simp only [Nat.sub_self, List.getElem_cons_zero] at here
  rw [← here]
  rfl

namespace Search

section Sweep

variable {search : Search n} {seen : List (Fin (n + 1))} {c : Fin (n + 1)}

def relaxIn (cost : Nat → Nat → Int) (seen : List (Fin (n + 1))) (search : Search n) : Search n :=
  { search with
    slack := Vector.ofFn fun c => if c ∈ seen then (search.relax cost).slack.get c else search.slack.get c
    reachedFrom := Vector.ofFn fun c => if c ∈ seen then (search.relax cost).origin c else search.origin c }

theorem relaxIn_nil : search.relaxIn cost [] = search := by
  refine Search.ext rfl rfl rfl ?_ ?_ rfl rfl
  · apply ext_get
    simp [relaxIn, Labelling.origin]
  · apply ext_get
    simp [relaxIn]

theorem relaxIn_eq_relax (all : ∀ c, c ≠ 0 → c ∈ seen) : search.relaxIn cost seen = search.relax cost := by
  have kept (c : Fin (n + 1)) (outside : c ∉ seen) : ¬ search.improves cost c = true := by
    intro better
    exact outside (all c ((improves_iff search c).mp better).1)
  refine Search.ext rfl rfl rfl ?_ ?_ rfl rfl
  · apply ext_get
    intro c
    simp only [relaxIn, get_ofFn]
    split
    · rfl
    · exact ((origin_relax search c).trans (if_neg (kept c (by assumption)))).symm
  · apply ext_get
    intro c
    simp only [relaxIn, get_ofFn]
    split
    · rfl
    · rw [slack_relax, if_neg (kept c (by assumption))]

theorem relaxIn_append_of_not (worse : ¬ search.improves cost c = true) :
    search.relaxIn cost (seen ++ [c]) = search.relaxIn cost seen := by
  have slack := (slack_relax search c).trans (if_neg worse)
  have origin := (origin_relax search c).trans (if_neg worse)
  refine Search.ext rfl rfl rfl ?_ ?_ rfl rfl
  · apply ext_get
    intro d
    simp only [relaxIn, get_ofFn, List.mem_append, List.mem_singleton]
    by_cases here : d = c
    · rw [here, origin]
      simp
    · simp [here]
  · apply ext_get
    intro d
    simp only [relaxIn, get_ofFn, List.mem_append, List.mem_singleton]
    by_cases here : d = c
    · rw [here, slack]
      simp
    · simp [here]

theorem relaxIn_append (better : search.improves cost c = true) :
    search.relaxIn cost (seen ++ [c]) = { search.relaxIn cost seen with
      slack := (search.relaxIn cost seen).slack.set c.val
        (some (search.reduced cost (search.rowAt search.column) c)) c.isLt
      reachedFrom := (search.relaxIn cost seen).reachedFrom.set c.val search.column c.isLt } := by
  have slack := (slack_relax search c).trans (if_pos better)
  have origin := (origin_relax search c).trans (if_pos better)
  refine Search.ext rfl rfl rfl ?_ ?_ rfl rfl
  · apply ext_get
    intro d
    simp only [relaxIn, get_ofFn, get_set, List.mem_append, List.mem_singleton]
    by_cases here : c = d
    · subst here
      simp [origin]
    · simp [here, Ne.symm here]
  · apply ext_get
    intro d
    simp only [relaxIn, get_ofFn, get_set, List.mem_append, List.mem_singleton]
    by_cases here : c = d
    · subst here
      simp [slack]
    · simp [here, Ne.symm here]

/-- All that is known of the columns not visited are inner numbers. -/
structure Measured (search : Search n) : Prop where
  inner : ∀ c, c ≠ 0 → ¬ search.visited.get c = true → ∀ s, search.slack.get c = some s → Inner s

theorem improve_round (ranged : search.Ranged cost) (measured : search.Measured) (nonzero : c ≠ 0)
    (unvisited : ¬ search.visited.get c = true) (new : c ∉ seen) :
    (search.relaxIn cost seen).round.improve search.column c
      (Int64.ofInt (search.reduced cost (search.rowAt search.column) c)) =
      .ok (search.relaxIn cost (seen ++ [c])).round := by
  have slack : (search.relaxIn cost seen).slack.get c = search.slack.get c := by
    simp [relaxIn, new]
  have entry : Words.entry (search.relaxIn cost seen).round.slack[c.val]? = .ok (slackWord (search.slack.get c)) := by
    rw [← slack]
    exact Words.entry_map slackWord _ c
  have smaller := ofInt_lt_slackWord (ranged.reduced (search.rowAt search.column) c nonzero)
    (measured.inner c nonzero unvisited)
  rw [Words.Round.improve, entry, Words.ok_bind]
  by_cases better : search.improves cost c = true
  · have known := ((improves_iff search c).mp better).2.2
    have setSlack : Words.put (search.relaxIn cost seen).round.slack c.val
        (Int64.ofInt (search.reduced cost (search.rowAt search.column) c)) = .ok (((search.relaxIn cost seen).slack.set
          c.val (some (search.reduced cost (search.rowAt search.column) c))).map slackWord) :=
      Words.put_map slackWord (search.relaxIn cost seen).slack c (some _)
    have setReached : Words.put (search.relaxIn cost seen).round.reachedFrom c.val search.column.val =
        .ok (((search.relaxIn cost seen).reachedFrom.set c.val search.column).map Fin.val) :=
      Words.put_map Fin.val _ c _
    rw [if_pos (smaller.mpr known), relaxIn_append better, setSlack, Words.ok_bind, setReached, Words.ok_bind]
    rfl
  · have known : ¬ ∀ s, search.slack.get c = some s → search.reduced cost (search.rowAt search.column) c < s := by
      intro all
      exact better ((improves_iff search c).mpr ⟨nonzero, unvisited, all⟩)
    rw [if_neg (fun less => known (smaller.mp less)), relaxIn_append_of_not better]
    rfl

theorem compare_sweepWords {best : Option (Fin (n + 1) × Int)} {slack : Int} (opened : search.Open c slack)
    (inner : Inner slack) (known : ∀ b, best = some b → Inner b.2) :
    (search.sweepWords best).compare c = .ok (search.sweepWords (search.nearer best c)) := by
  have entry : Words.entry (search.sweepWords best).slack[c.val]? = .ok (Int64.ofInt slack) := by
    have found := Words.entry_map slackWord search.slack c
    rwa [opened.slack_eq] at found
  have going : ¬ (c == 0 || search.visited[c]) = true := by
    rw [Bool.or_eq_true, beq_iff_eq, not_or]
    exact ⟨opened.nonzero, opened.unvisited⟩
  have here : search.slack[c] = some slack := opened.slack_eq
  rw [Words.Sweep.compare, entry, Words.ok_bind]
  unfold nearer
  rw [if_neg going, here]
  cases best with
  | none =>
    change (if Int64.ofInt slack < Int64.maxValue then _ else _) = _
    rw [if_pos (Words.ofInt_lt_maxValue inner)]
    rfl
  | some b =>
    have less := Words.ofInt_lt_ofInt inner (known b rfl)
    change (if Int64.ofInt slack < Int64.ofInt b.2 then _ else _) = _
    by_cases smaller : slack < b.2
    · rw [if_pos (less.mpr smaller)]
      simp only [smaller, if_true]
      rfl
    · rw [if_neg (fun h => smaller (less.mp h))]
      simp only [smaller, if_false]
      rfl

theorem exists_slack_relax (ranged : search.Ranged cost) (measured : search.Measured) (nonzero : c ≠ 0)
    (unvisited : ¬ search.visited.get c = true) : ∃ slack, (search.relax cost).slack.get c = some slack ∧ Inner slack := by
  rw [slack_relax]
  by_cases better : search.improves cost c = true
  · rw [if_pos better]
    exact ⟨_, rfl, ranged.reduced _ c nonzero⟩
  · rw [if_neg better]
    cases known : search.slack.get c with
    | some slack => exact ⟨slack, rfl, measured.inner c nonzero unvisited slack known⟩
    | none =>
      apply absurd _ better
      rw [improves_iff, known]
      exact ⟨nonzero, unvisited, by simp⟩

theorem look_sweepWords {costs : List (List Int64)} (listed : Listed cost n costs) (ranged : search.Ranged cost)
    (measured : search.Measured) (held : search.rowAt search.column ≠ 0) {j : Fin n} (new : j.succ ∉ seen)
    {best : Option (Fin (n + 1) × Int)} (known : ∀ b, best = some b → Inner b.2) :
    ((search.relaxIn cost seen).sweepWords best).look costs search.column (search.rowAt search.column) (j.val + 1) =
      .ok ((search.relaxIn cost (seen ++ [j.succ])).sweepWords ((search.relax cost).nearer best j.succ)) := by
  have visited : Words.entry ((search.relaxIn cost seen).sweepWords best).visited[j.val + 1]? =
      .ok (search.visited.get j.succ) := Words.entry_get search.visited j.succ
  rw [Words.Sweep.look, visited, Words.ok_bind]
  by_cases before : search.visited.get j.succ = true
  · have worse : ¬ search.improves cost j.succ = true := fun better => ((improves_iff search _).mp better).2.1 before
    have passed : (j.succ == 0 || (search.relax cost).visited[j.succ]) = true := by
      rw [Bool.or_eq_true]
      exact .inr before
    unfold nearer
    rw [if_pos before, relaxIn_append_of_not worse, if_pos passed]
    rfl
  · obtain ⟨r, row⟩ := Fin.exists_succ_eq.mpr held
    obtain ⟨cells, line, cell⟩ := listed r j
    have rowEntry : Words.entry ((search.relaxIn cost seen).sweepWords best).rowPotential[r.val + 1]? =
        .ok (Int64.ofInt (search.rowPotential.get r.succ)) := Words.entry_map Int64.ofInt search.rowPotential r.succ
    have columnEntry : Words.entry ((search.relaxIn cost seen).sweepWords best).columnPotential[j.val + 1]? =
        .ok (Int64.ofInt (search.columnPotential.get j.succ)) :=
      Words.entry_map Int64.ofInt search.columnPotential j.succ
    have lessRow : Words.sub (Int64.ofInt (cost r j)) (Int64.ofInt (search.rowPotential.get r.succ)) =
        .ok (Int64.ofInt (cost r j - search.rowPotential.get r.succ)) :=
      Words.sub_ofInt (ranged.cell r.succ j.succ) (ranged.row r.succ) (ranged.less_row r.succ j.succ)
    have current : Words.sub (Int64.ofInt (cost r j - search.rowPotential.get r.succ))
        (Int64.ofInt (search.columnPotential.get j.succ)) = .ok (Int64.ofInt (search.reduced cost r.succ j.succ)) :=
      Words.sub_ofInt (ranged.less_row r.succ j.succ) (ranged.column j.succ)
        (ranged.reduced r.succ j.succ (Fin.succ_ne_zero j))
    have improved := improve_round ranged measured (Fin.succ_ne_zero j) before new
    obtain ⟨slack, found, inner⟩ := exists_slack_relax ranged measured (Fin.succ_ne_zero j) before
    have opened : (search.relaxIn cost (seen ++ [j.succ])).Open j.succ slack :=
      ⟨Fin.succ_ne_zero j, before, by simp [relaxIn, found]⟩
    have nearer_eq : (search.relaxIn cost (seen ++ [j.succ])).nearer best j.succ =
        (search.relax cost).nearer best j.succ := by
      have same : (search.relaxIn cost (seen ++ [j.succ])).slack[j.succ] = (search.relax cost).slack[j.succ] :=
        opened.slack_eq.trans found.symm
      unfold nearer
      rw [same]
      rfl
    rw [← row] at improved ⊢
    simp only [if_neg before, Fin.val_succ, Words.predecessor_succ, Words.ok_bind, line, Words.entry_some, cell, rowEntry,
      columnEntry, lessRow, current]
    have step : ((search.relaxIn cost seen).sweepWords best).improve search.column (j.val + 1)
        (Int64.ofInt (search.reduced cost r.succ j.succ)) = .ok (search.relaxIn cost (seen ++ [j.succ])).round := improved
    rw [step, Words.ok_bind, ← nearer_eq]
    exact compare_sweepWords opened inner known

theorem sweep_round {costs : List (List Int64)} (listed : Listed cost n costs) (ranged : search.Ranged cost)
    (measured : search.Measured) (held : search.rowAt search.column ≠ 0) :
    (List.finRange n).foldlM
      (fun sweep (j : Fin n) => sweep.look costs search.column (search.rowAt search.column) (j.val + 1))
      search.round.unswept =
      .ok ((search.relax cost).sweepWords (search.relax cost).nearest) := by
  let best (seen : List (Fin n)) := (seen.map Fin.succ).foldl (search.relax cost).nearer none
  let state (seen : List (Fin n)) := (search.relaxIn cost (seen.map Fin.succ)).sweepWords (best seen)
  have known (seen : List (Fin n)) : ∀ b, best seen = some b → Inner b.2 := by
    intro b found
    have opened := (foldl_nearer_spec (search.relax cost) (seen.map Fin.succ) none (by simp)).1 b found
    obtain ⟨slack, eq, inner⟩ := exists_slack_relax ranged measured opened.nonzero opened.unvisited
    rw [opened.slack_eq] at eq
    cases eq
    exact inner
  have start : state [] = search.round.unswept := by
    simp only [state, List.map_nil, relaxIn_nil]
    rfl
  have all : ∀ c : Fin (n + 1), c ≠ 0 → c ∈ (List.finRange n).map Fin.succ := by
    intro c nonzero
    obtain ⟨j, rfl⟩ := Fin.exists_succ_eq.mpr nonzero
    exact List.mem_map_of_mem (List.mem_finRange j)
  have nearest : (search.relax cost).nearest = best (List.finRange n) := by
    rw [Search.nearest, List.finRange_succ]
    rfl
  rw [← start, nearest, ← relaxIn_eq_relax all]
  apply foldlM_eq state
  intro seen j rest split
  have new : j.succ ∉ seen.map Fin.succ := by
    intro member
    obtain ⟨i, before, eq⟩ := List.mem_map.mp member
    rw [Fin.succ_injective n eq] at before
    exact notMem_of_split (List.nodup_finRange n) split before
  have step := look_sweepWords listed ranged measured held new (known seen)
  simp only [state, best, List.map_append, List.map_singleton, List.foldl_append, List.foldl_cons, List.foldl_nil]
  exact step

end Sweep

section Shift

variable {search : Search n} {trail seen : List (Fin (n + 1))} {c column : Fin (n + 1)} {delta : Int}

def shiftIn (delta : Int) (seen : List (Fin (n + 1))) (search : Search n) : Search n :=
  { search with
    rowPotential := seen.foldl (fun potential c =>
      if search.visited.get c then potential.set (search.rowAt c) (potential.get (search.rowAt c) + delta)
      else potential) search.rowPotential
    columnPotential := Vector.ofFn fun c =>
      if c ∈ seen ∧ search.visited.get c = true then search.columnPotential.get c - delta
      else search.columnPotential.get c
    slack := Vector.ofFn fun c =>
      if c ∈ seen ∧ ¬ search.visited.get c = true then (search.slack.get c).map (· - delta) else search.slack.get c }

theorem shiftIn_nil : search.shiftIn delta [] = search := by
  refine Search.ext rfl ?_ rfl rfl ?_ rfl rfl
  · apply ext_get
    simp [shiftIn]
  · apply ext_get
    simp [shiftIn]

theorem round_shiftIn_finRange (column : Fin (n + 1)) :
    (search.shiftIn delta (List.finRange (n + 1))).round = (search.shift column delta).round := by
  have same : { search.shiftIn delta (List.finRange (n + 1)) with column := column } = search.shift column delta := by
    refine Search.ext rfl ?_ rfl rfl ?_ rfl rfl
    · apply ext_get
      intro c
      simp [shiftIn, shift, getElem_eq_get]
    · apply ext_get
      intro c
      by_cases before : search.visited.get c = true <;> simp [shiftIn, shift, getElem_eq_get, before]
  rw [← same]
  rfl

theorem shiftIn_append_visited (before : search.visited.get c = true) :
    search.shiftIn delta (seen ++ [c]) = { search.shiftIn delta seen with
      rowPotential := (search.shiftIn delta seen).rowPotential.set (search.rowAt c).val
        ((search.shiftIn delta seen).rowPotential.get (search.rowAt c) + delta) (search.rowAt c).isLt
      columnPotential := (search.shiftIn delta seen).columnPotential.set c.val (search.columnPotential.get c - delta)
        c.isLt } := by
  refine Search.ext ?_ ?_ rfl rfl ?_ rfl rfl
  · simp [shiftIn, List.foldl_append, before]
  · apply ext_get
    intro d
    by_cases here : c = d
    · subst here
      simp [shiftIn, before]
    · simp [shiftIn, here, Ne.symm here]
  · apply ext_get
    intro d
    by_cases here : d = c
    · simp [shiftIn, here, before]
    · simp [shiftIn, here]

theorem shiftIn_append_unvisited (before : ¬ search.visited.get c = true) :
    search.shiftIn delta (seen ++ [c]) = { search.shiftIn delta seen with
      slack := (search.shiftIn delta seen).slack.set c.val ((search.slack.get c).map (· - delta)) c.isLt } := by
  refine Search.ext ?_ ?_ rfl rfl ?_ rfl rfl
  · simp [shiftIn, List.foldl_append, before]
  · apply ext_get
    intro d
    by_cases here : d = c
    · simp [shiftIn, here, before]
    · simp [shiftIn, here]
  · apply ext_get
    intro d
    by_cases here : c = d
    · subst here
      simp [shiftIn, before]
    · simp [shiftIn, here, Ne.symm here]

theorem rowPotential_shiftIn (consistent : search.Consistent cost trail) (member : c ∈ trail) (new : c ∉ seen) :
    (search.shiftIn delta seen).rowPotential.get (search.rowAt c) = search.rowPotential.get (search.rowAt c) := by
  have sum := get_foldl_add (fun d => search.visited.get d) search.rowAt delta seen search.rowPotential (search.rowAt c)
  have none : (seen.countP fun d => search.visited.get d && search.rowAt d == search.rowAt c) = 0 := by
    rw [List.countP_eq_zero]
    intro d before both
    rw [Bool.and_eq_true, beq_iff_eq] at both
    rw [consistent.injective c d (consistent.rows c member) both.2.symm] at new
    exact new before
  rw [none] at sum
  exact sum.trans (by simp)

theorem move_visited (swept : search.Swept cost trail) (ranged : search.Ranged cost)
    (next : (search.shift column delta).Ranged cost) (inner : Inner delta) (new : c ∉ seen)
    (before : search.visited.get c = true) :
    (search.shiftIn delta seen).round.move (Int64.ofInt delta) c = .ok (search.shiftIn delta (seen ++ [c])).round := by
  have visited : Words.entry (search.shiftIn delta seen).round.visited[c.val]? = .ok (search.visited.get c) :=
    Words.entry_get search.visited c
  have member := (swept.visited_iff c).mp before
  have rowEntry : Words.entry (search.shiftIn delta seen).round.rowOf[c.val]? = .ok (search.rowAt c).val :=
    Words.entry_map Fin.val search.rowOf c
  have rowPotential : Words.entry (search.shiftIn delta seen).round.rowPotential[(search.rowAt c).val]? =
      .ok (Int64.ofInt (search.rowPotential.get (search.rowAt c))) := by
    rw [← rowPotential_shiftIn swept.toConsistent member new]
    exact Words.entry_map Int64.ofInt _ _
  have columnPotential : Words.entry (search.shiftIn delta seen).round.columnPotential[c.val]? =
      .ok (Int64.ofInt (search.columnPotential.get c)) := by
    have found := Words.entry_map Int64.ofInt (search.shiftIn delta seen).columnPotential c
    rwa [shiftIn, get_ofFn, if_neg (fun both => new both.1)] at found
  have raised : Inner (search.rowPotential.get (search.rowAt c) + delta) := by
    have moved := next.row (search.rowAt c)
    rwa [rowPotential_shift swept.toConsistent, if_pos ⟨c, member, rfl⟩] at moved
  have lowered : Inner (search.columnPotential.get c - delta) := by
    have moved := next.column c
    rwa [columnPotential_shift swept.toConsistent, if_pos member] at moved
  have setRow : Words.put (search.shiftIn delta seen).round.rowPotential (search.rowAt c).val
      (Int64.ofInt (search.rowPotential.get (search.rowAt c) + delta)) =
      .ok (((search.shiftIn delta seen).rowPotential.set (search.rowAt c).val
        (search.rowPotential.get (search.rowAt c) + delta)).map Int64.ofInt) :=
    Words.put_map Int64.ofInt _ _ _
  have setColumn : Words.put (search.shiftIn delta seen).round.columnPotential c.val
      (Int64.ofInt (search.columnPotential.get c - delta)) =
      .ok (((search.shiftIn delta seen).columnPotential.set c.val
        (search.columnPotential.get c - delta)).map Int64.ofInt) :=
    Words.put_map Int64.ofInt _ _ _
  rw [Words.Round.move, visited, Words.ok_bind, if_pos before, rowEntry, Words.ok_bind, rowPotential, Words.ok_bind,
    Words.add_ofInt (ranged.row _) inner raised, Words.ok_bind, setRow, Words.ok_bind, columnPotential, Words.ok_bind,
    Words.sub_ofInt (ranged.column c) inner lowered, Words.ok_bind, setColumn, Words.ok_bind,
    shiftIn_append_visited before, rowPotential_shiftIn swept.toConsistent member new]
  rfl

theorem move_unvisited (swept : search.Swept cost trail) (ranged : search.Ranged cost)
    (next : (search.shift column delta).Ranged cost) (inner : Inner delta) (new : c ∉ seen)
    (before : ¬ search.visited.get c = true) :
    (search.shiftIn delta seen).round.move (Int64.ofInt delta) c = .ok (search.shiftIn delta (seen ++ [c])).round := by
  have visited : Words.entry (search.shiftIn delta seen).round.visited[c.val]? = .ok (search.visited.get c) :=
    Words.entry_get search.visited c
  have outside : c ∉ trail := fun member => before ((swept.visited_iff c).mpr member)
  have nonzero : c ≠ 0 := fun zero => outside (zero ▸ swept.traced.zero_mem)
  obtain ⟨slack, known, reached, eq, -⟩ := swept.slack c outside
  have innerSlack : Inner slack := by
    rw [← eq]
    exact ranged.reduced _ c nonzero
  have lowered : Inner (slack - delta) := by
    rw [← eq, ← swept.toConsistent.reduced_shift_leaving reached outside]
    exact next.reduced _ c nonzero
  have slackEntry : Words.entry (search.shiftIn delta seen).round.slack[c.val]? = .ok (Int64.ofInt slack) := by
    have found := Words.entry_map slackWord (search.shiftIn delta seen).slack c
    rwa [shiftIn, get_ofFn, if_neg (fun both => new both.1), known] at found
  have setSlack : Words.put (search.shiftIn delta seen).round.slack c.val (Int64.ofInt (slack - delta)) =
      .ok (((search.shiftIn delta seen).slack.set c.val (some (slack - delta))).map slackWord) :=
    Words.put_map slackWord (search.shiftIn delta seen).slack c (some _)
  rw [Words.Round.move, visited, Words.ok_bind, if_neg before, slackEntry, Words.ok_bind,
    Words.sub_ofInt innerSlack inner lowered, Words.ok_bind, setSlack, Words.ok_bind, shiftIn_append_unvisited before,
    known]
  rfl

theorem move_round (swept : search.Swept cost trail) (ranged : search.Ranged cost)
    (next : (search.shift column delta).Ranged cost) (inner : Inner delta) (new : c ∉ seen) :
    (search.shiftIn delta seen).round.move (Int64.ofInt delta) c = .ok (search.shiftIn delta (seen ++ [c])).round := by
  by_cases before : search.visited.get c = true
  · exact move_visited swept ranged next inner new before
  · exact move_unvisited swept ranged next inner new before

theorem shift_round (swept : search.Swept cost trail) (ranged : search.Ranged cost)
    (next : (search.shift column delta).Ranged cost) (inner : Inner delta) :
    (List.finRange (n + 1)).foldlM
      (fun round (j : Fin (n + 1)) => round.move (Int64.ofInt delta) j.val) search.round =
      .ok (search.shift column delta).round := by
  let state (seen : List (Fin (n + 1))) := (search.shiftIn delta seen).round
  have start : state [] = search.round := by
    simp only [state, shiftIn_nil]
  rw [← start, ← round_shiftIn_finRange column]
  apply foldlM_eq state
  intro seen c rest split
  apply move_round swept ranged next inner
  exact notMem_of_split (List.nodup_finRange (n + 1)) split

end Shift

variable {search : Search n} {trail : List (Fin (n + 1))} {row : Fin (n + 1)} {costs : List (List Int64)}

theorem Growing.measured (growing : search.Growing cost trail) (ranged : search.Ranged cost) : search.visit.Measured := by
  constructor
  intro c nonzero unvisited slack known
  have outside : c ∉ trail := by
    intro member
    exact unvisited ((visited_visit search c).mpr (.inr ((growing.visited_iff c).mpr member)))
  have known' : search.slack.get c = some slack := known
  have slackens := growing.slack c nonzero outside
  rw [known'] at slackens
  rw [← slackens.2.1]
  exact ranged.reduced _ c nonzero

theorem Paced.sweep (paced : search.Paced low row) : (search.visit.relax cost).Paced low row where
  row_nonneg := paced.row_nonneg
  row_later := paced.row_later
  column_nonpos := paced.column_nonpos
  column_free := paced.column_free
  first := paced.first
  rows_le := paced.rows_le
  moved := paced.moved

theorem grow_round (listed : Listed cost n costs) (bounded : Bounded cost bound low)
    (growing : search.Growing cost trail) (paced : search.Paced low row) (held : search.rowAt search.column ≠ 0)
    {free : Fin (n + 1)} (nonzero : free ≠ 0) (isFree : search.rowAt free = 0) {steps : Nat} {result : Search n}
    (run : search.grow cost steps = some result) :
    search.round.grow costs steps search.column = .ok (result.round, result.column.val) ∧ result.Paced low row := by
  induction steps generalizing search trail with
  | zero => cases run
  | succ steps ih =>
    have ranged := paced.ranged growing.toBalanced bounded nonzero isFree
    have swept := growing.sweep held
    have ranged_sweep := paced.sweep.ranged swept.toBalanced bounded nonzero isFree
    have outside : free ∉ search.column :: trail := fun member => swept.rows free member isFree
    obtain ⟨column, delta, found, new, slackens, least⟩ := swept.nearest outside
    have next := swept.shift new slackens least
    have paced' := paced.sweep.shift swept column (swept.slack_nonneg new slackens)
    have ranged' := paced'.ranged next.toBalanced bounded nonzero isFree
    have column_nonzero : column ≠ 0 := fun zero => new (zero ▸ swept.traced.zero_mem)
    have inner : Inner delta := by
      rw [← slackens.2.1]
      exact ranged.reduced _ column column_nonzero
    have visit : search.round.visit search.column = .ok search.visit.round := by
      rw [Words.Round.visit, Words.put_eq]
      rfl
    have rowEntry : Words.entry search.visit.round.rowOf[search.column.val]? = .ok (search.rowAt search.column).val :=
      Words.entry_map Fin.val search.rowOf search.column
    have sweeping : (List.finRange n).foldlM
        (fun sweep (j : Fin n) => sweep.look costs search.column (search.rowAt search.column) (j.val + 1))
        search.visit.round.unswept = .ok ((search.visit.relax cost).sweepWords (some (column, delta))) := by
      rw [← found]
      exact @sweep_round n cost search.visit costs listed ranged (growing.measured ranged) held
    have shifting := shift_round swept ranged_sweep ranged' inner
    have reached : Words.entry ((search.visit.relax cost).shift column delta).round.rowOf[column.val]? =
        .ok (search.rowAt column).val := Words.entry_map Fin.val search.rowOf column
    rw [Search.grow] at run
    simp only [found] at run
    rw [Words.Round.grow, visit, Words.ok_bind, rowEntry, Words.ok_bind, sweeping, Words.ok_bind]
    simp only [nearest_sweepWords, least_sweepWords, toRound_sweepWords, Fin.val_eq_zero_iff, column_nonzero, if_false,
      shifting, Words.ok_bind, reached]
    split at run
    · have stop : search.rowAt column = 0 := by assumption
      cases run
      rw [if_pos stop]
      exact ⟨rfl, paced'⟩
    · have goOn : ¬ search.rowAt column = 0 := by assumption
      rw [if_neg goOn]
      exact ih next paced' goOn isFree run

theorem round_start (labelling : Labelling n) (row : Fin (n + 1)) :
    labelling.registers.round row = .ok (start labelling row).round := by
  have set_row : Words.put labelling.registers.rowOf 0 row.val = .ok ((labelling.rowOf.set 0 row).map Fin.val) :=
    Words.put_map Fin.val labelling.rowOf 0 row
  have unknown : (Vector.replicate (n + 1) none).map slackWord = Vector.replicate (n + 1) Int64.maxValue :=
    Vector.map_replicate
  rw [Words.Registers.round, set_row, Words.ok_bind, ← unknown]
  rfl

theorem augment_round {search : Search n} {rest : List (Fin (n + 1))}
    (way : Way search.origin (search.column :: rest)) (nonzero : search.column ≠ 0) {steps : Nat}
    (enough : rest.length ≤ steps) :
    search.round.augment steps search.column = .ok (search.augment steps).round := by
  induction steps generalizing search rest with
  | zero =>
    obtain ⟨rest', eq, -, -⟩ := way.exists_next nonzero
    rw [eq] at enough
    cases enough
  | succ steps ih =>
    obtain ⟨rest, rfl, later, -⟩ := way.exists_next nonzero
    have from_entry : Words.entry search.round.reachedFrom[search.column.val]? = .ok (search.origin search.column).val :=
      Words.entry_map Fin.val search.reachedFrom search.column
    have row_entry : Words.entry search.round.rowOf[(search.origin search.column).val]? =
        .ok (search.rowAt (search.origin search.column)).val := Words.entry_map Fin.val search.rowOf _
    have handed : Words.put search.round.rowOf search.column.val (search.rowAt (search.origin search.column)).val =
        .ok ((search.rowOf.set search.column.val (search.rowAt (search.origin search.column))).map Fin.val) :=
      Words.put_map Fin.val search.rowOf search.column _
    rw [Words.Round.augment, from_entry, Words.ok_bind, row_entry, Words.ok_bind, handed, Words.ok_bind, Search.augment]
    by_cases done : search.origin search.column = 0
    · have stop : search.reachedFrom[search.column] = 0 := done
      rw [if_pos (Fin.val_eq_zero_iff.mpr done), if_pos stop]
      rfl
    · have goOn : ¬ search.reachedFrom[search.column] = 0 := done
      rw [if_neg (fun zero => done (Fin.val_eq_zero_iff.mp zero)), if_neg goOn]
      have onwards := @ih { search with
        rowOf := search.rowOf.set search.column.val (search.rowAt (search.origin search.column))
        column := search.origin search.column } rest later done (Nat.le_of_succ_le_succ enough)
      exact onwards

end Search

end TreeAlign.Assignment
