import Mathlib.Tactic.Ring
import TreeAlign.Proofs.Assignment.Labelling

namespace TreeAlign.Assignment

variable {n : Nat} {cost : Nat → Nat → Int}

namespace Search

/-- The slack of a column is the least reduced cost that a row of the trail has in it, and the column was
reached from the one that holds such a row. -/
def Slackens (cost : Nat → Nat → Int) (search : Search n) (trail : List (Fin (n + 1))) (column : Fin (n + 1))
    (slack : Int) : Prop :=
  search.origin column ∈ trail ∧ search.reduced cost (search.rowAt (search.origin column)) column = slack ∧
    ∀ c ∈ trail, slack ≤ search.reduced cost (search.rowAt c) column

structure Consistent (cost : Nat → Nat → Int) (trail : List (Fin (n + 1))) (search : Search n) : Prop
    extends search.Balanced cost where
  injective : ∀ c d : Fin (n + 1), search.rowAt c ≠ 0 → search.rowAt c = search.rowAt d → c = d
  visited_iff : ∀ c : Fin (n + 1), search.visited.get c = true ↔ c ∈ trail
  rows : ∀ c ∈ trail, search.rowAt c ≠ 0

/-- A search about to visit its current column. -/
structure Growing (cost : Nat → Nat → Int) (trail : List (Fin (n + 1))) (search : Search n) : Prop
    extends Consistent cost trail search where
  traced : search.Traced cost (search.column :: trail)
  slack : ∀ c : Fin (n + 1), c ≠ 0 → c ∉ trail →
    match search.slack.get c with
    | none => trail = []
    | some slack => search.Slackens cost trail c slack

/-- A search that has looked at every column from the ones it has visited. -/
structure Swept (cost : Nat → Nat → Int) (trail : List (Fin (n + 1))) (search : Search n) : Prop
    extends Consistent cost trail search where
  traced : search.Traced cost trail
  slack : ∀ c : Fin (n + 1), c ∉ trail → ∃ slack, search.slack.get c = some slack ∧ search.Slackens cost trail c slack

theorem visited_visit (search : Search n) (c : Fin (n + 1)) :
    search.visit.visited.get c = true ↔ c = search.column ∨ search.visited.get c = true := by
  unfold visit
  by_cases here : search.column = c
  · simp [here]
  · simp [here, Ne.symm here]

theorem origin_relax (search : Search n) (c : Fin (n + 1)) :
    (search.relax cost).origin c = if search.improves cost c then search.column else search.origin c := by
  simp [relax, Labelling.origin, getElem_eq_get]

theorem slack_relax (search : Search n) (c : Fin (n + 1)) :
    (search.relax cost).slack.get c =
      if search.improves cost c then some (search.reduced cost (search.rowAt search.column) c)
      else search.slack.get c := by
  simp [relax, reducedCost, Labelling.reduced, Labelling.rowAt, getElem_eq_get]

theorem improves_iff (search : Search n) (c : Fin (n + 1)) :
    search.improves cost c = true ↔ c ≠ 0 ∧ ¬ search.visited.get c = true ∧
      ∀ known, search.slack.get c = some known → search.reduced cost (search.rowAt search.column) c < known := by
  have slack_same : search.slack[c] = search.slack.get c := rfl
  have reduced_same : search.reducedCost cost c = search.reduced cost (search.rowAt search.column) c := rfl
  rw [improves, slack_same, reduced_same]
  cases search.slack.get c <;> simp [and_assoc, getElem_eq_get]

theorem improves_visit_iff (search : Search n) (c : Fin (n + 1)) :
    search.visit.improves cost c = true ↔ c ≠ 0 ∧ ¬ search.visit.visited.get c = true ∧
      ∀ known, search.slack.get c = some known → search.reduced cost (search.rowAt search.column) c < known :=
  search.visit.improves_iff c

theorem Growing.sweep {trail : List (Fin (n + 1))} {search : Search n} (growing : search.Growing cost trail)
    (held : search.rowAt search.column ≠ 0) : (search.visit.relax cost).Swept cost (search.column :: trail) := by
  have visited (c : Fin (n + 1)) : search.visit.visited.get c = true ↔ c ∈ search.column :: trail := by
    rw [visited_visit, growing.visited_iff, List.mem_cons]
  have unchanged (c : Fin (n + 1)) (member : c ∈ search.column :: trail) :
      (search.visit.relax cost).origin c = search.origin c := by
    rw [origin_relax, if_neg]
    · rfl
    · rw [improves_visit_iff, visited]
      exact fun h => h.2.1 member
  have zero_mem : 0 ∈ search.column :: trail := growing.traced.zero_mem
  refine ⟨⟨⟨growing.feasible, growing.tight⟩, growing.injective, visited, ?_⟩, ?_, ?_⟩
  · intro c member
    rcases List.mem_cons.mp member with rfl | member
    · exact held
    · exact growing.rows c member
  · exact growing.traced.transfer rfl (fun c member _ => unchanged c member) (fun _ _ _ _ => rfl)
  · intro c outside
    have nonzero : c ≠ 0 := fun zero => outside (zero ▸ zero_mem)
    have known := growing.slack c nonzero (fun member => outside (List.mem_cons_of_mem _ member))
    rw [slack_relax]
    simp only [Slackens, origin_relax]
    by_cases better : search.visit.improves cost c = true
    · rw [if_pos better, if_pos better]
      refine ⟨_, rfl, List.mem_cons_self, rfl, ?_⟩
      have smaller := ((improves_visit_iff search c).mp better).2.2
      intro d member
      rcases List.mem_cons.mp member with rfl | member
      · exact Int.le_refl _
      · cases found : search.slack.get c with
        | none => rw [found] at known; rw [known] at member; cases member
        | some slack =>
          rw [found] at known
          exact Int.le_trans (Int.le_of_lt (smaller slack found)) (known.2.2 d member)
    · rw [if_neg better, if_neg better]
      cases found : search.slack.get c with
      | none =>
        refine absurd ((improves_visit_iff search c).mpr ⟨nonzero, ?_, ?_⟩) better
        · rw [visited]; exact outside
        · intro slack some_slack; rw [found] at some_slack; cases some_slack
      | some slack =>
        rw [found] at known
        have least : slack ≤ search.reduced cost (search.rowAt search.column) c := by
          by_contra smaller
          refine better ((improves_visit_iff search c).mpr ⟨nonzero, ?_, ?_⟩)
          · rw [visited]; exact outside
          · intro other some_other; rw [found] at some_other; cases some_other; omega
        refine ⟨slack, found, List.mem_cons_of_mem _ known.1, known.2.1, ?_⟩
        intro d member
        rcases List.mem_cons.mp member with rfl | member
        · exact least
        · exact known.2.2 d member

structure Open (search : Search n) (column : Fin (n + 1)) (slack : Int) : Prop where
  nonzero : column ≠ 0
  unvisited : ¬ search.visited.get column = true
  slack_eq : search.slack.get column = some slack

theorem nearer_spec (search : Search n) (column : Fin (n + 1)) (best : Option (Fin (n + 1) × Int))
    (start : ∀ b, best = some b → search.Open b.1 b.2) :
    (∀ b, search.nearer best column = some b → search.Open b.1 b.2) ∧
      (∀ b, best = some b → ∃ b', search.nearer best column = some b' ∧ b'.2 ≤ b.2) ∧
      ∀ slack, search.Open column slack → ∃ b, search.nearer best column = some b ∧ b.2 ≤ slack := by
  unfold nearer
  by_cases closed : (column == 0 || search.visited[column]) = true
  · rw [if_pos closed]
    refine ⟨start, fun b hb => ⟨b, hb, Int.le_refl _⟩, fun slack opened => ?_⟩
    simp only [Bool.or_eq_true, beq_iff_eq] at closed
    exact absurd closed (not_or.mpr ⟨opened.nonzero, opened.unvisited⟩)
  · rw [if_neg closed]
    simp only [Bool.or_eq_true, beq_iff_eq, not_or] at closed
    cases slack_eq : search.slack[column] with
    | none =>
      refine ⟨start, fun b hb => ⟨b, hb, Int.le_refl _⟩, fun slack opened => ?_⟩
      have impossible := slack_eq.symm.trans opened.slack_eq
      cases impossible
    | some slack =>
      have here : search.Open column slack := ⟨closed.1, closed.2, slack_eq⟩
      have only (other : Int) (opened : search.Open column other) : other = slack :=
        Option.some.inj (opened.slack_eq.symm.trans slack_eq)
      cases best with
      | none =>
        refine ⟨fun b hb => by cases hb; exact here, by simp, fun other opened => ?_⟩
        exact ⟨_, rfl, Int.le_of_eq (only other opened).symm⟩
      | some b =>
        by_cases better : slack < b.2
        · simp only [better, if_true]
          refine ⟨fun b hb => by cases hb; exact here, fun b' hb' => ?_, fun other opened => ?_⟩
          · cases hb'; exact ⟨_, rfl, Int.le_of_lt better⟩
          · exact ⟨_, rfl, Int.le_of_eq (only other opened).symm⟩
        · simp only [better, if_false]
          refine ⟨start, fun b' hb' => ⟨b', hb', Int.le_refl _⟩, fun other opened => ⟨b, rfl, ?_⟩⟩
          rw [only other opened]
          omega

theorem foldl_nearer_spec (search : Search n) (columns : List (Fin (n + 1))) (best : Option (Fin (n + 1) × Int))
    (start : ∀ b, best = some b → search.Open b.1 b.2) :
    (∀ b, columns.foldl search.nearer best = some b → search.Open b.1 b.2) ∧
      (∀ b, best = some b → ∃ b', columns.foldl search.nearer best = some b' ∧ b'.2 ≤ b.2) ∧
      ∀ c ∈ columns, ∀ slack, search.Open c slack →
        ∃ b, columns.foldl search.nearer best = some b ∧ b.2 ≤ slack := by
  induction columns generalizing best with
  | nil => exact ⟨start, fun b hb => ⟨b, hb, Int.le_refl _⟩, by simp⟩
  | cons column columns ih =>
    rw [List.foldl_cons]
    obtain ⟨opens, keeps, takes⟩ := search.nearer_spec column best start
    obtain ⟨opens', keeps', takes'⟩ := ih (search.nearer best column) opens
    refine ⟨opens', fun b hb => ?_, fun c member slack opened => ?_⟩
    · obtain ⟨b', hb', le⟩ := keeps b hb
      obtain ⟨b'', hb'', le'⟩ := keeps' b' hb'
      exact ⟨b'', hb'', Int.le_trans le' le⟩
    · rcases List.mem_cons.mp member with rfl | member
      · obtain ⟨b, hb, le⟩ := takes slack opened
        obtain ⟨b', hb', le'⟩ := keeps' b hb
        exact ⟨b', hb', Int.le_trans le' le⟩
      · exact takes' c member slack opened

theorem Swept.nearest {trail : List (Fin (n + 1))} {search : Search n} (swept : search.Swept cost trail)
    {free : Fin (n + 1)} (outside : free ∉ trail) :
    ∃ column delta, search.nearest = some (column, delta) ∧ column ∉ trail ∧
      search.Slackens cost trail column delta ∧
      ∀ c ∉ trail, ∀ d ∈ trail, delta ≤ search.reduced cost (search.rowAt d) c := by
  obtain ⟨opens, -, takes⟩ := foldl_nearer_spec search (List.finRange (n + 1)) none (by simp)
  have opened (c : Fin (n + 1)) (hc : c ∉ trail) : ∃ slack, search.Open c slack ∧ search.Slackens cost trail c slack := by
    obtain ⟨slack, known, slackens⟩ := swept.slack c hc
    refine ⟨slack, ⟨fun zero => hc (zero ▸ swept.traced.zero_mem), ?_, known⟩, slackens⟩
    rw [swept.visited_iff]; exact hc
  obtain ⟨slack, free_open, -⟩ := opened free outside
  obtain ⟨⟨column, delta⟩, found, -⟩ := takes free (List.mem_finRange free) slack free_open
  have column_open : search.Open column delta := opens _ found
  have column_outside : column ∉ trail := by
    rw [← swept.visited_iff]; exact column_open.unvisited
  refine ⟨column, delta, found, column_outside, ?_, ?_⟩
  · obtain ⟨other, other_open, slackens⟩ := opened column column_outside
    have same : other = delta := Option.some.inj (other_open.slack_eq.symm.trans column_open.slack_eq)
    rwa [same] at slackens
  · intro c hc d hd
    obtain ⟨other, other_open, slackens⟩ := opened c hc
    obtain ⟨b, again, le⟩ := takes c (List.mem_finRange c) other other_open
    have same : b = (column, delta) := Option.some.inj (again.symm.trans found)
    rw [same] at le
    exact Int.le_trans le (slackens.2.2 d hd)

theorem get_foldl_add (visited : Fin (n + 1) → Bool) (rowAt : Fin (n + 1) → Fin (n + 1)) (delta : Int)
    (columns : List (Fin (n + 1))) (potential : Vector Int (n + 1)) (row : Fin (n + 1)) :
    (columns.foldl (fun potential c =>
      if visited c then potential.set (rowAt c) (potential.get (rowAt c) + delta) else potential) potential).get row =
      potential.get row + (columns.countP fun c => visited c && rowAt c == row) * delta := by
  induction columns generalizing potential with
  | nil => simp
  | cons c columns ih =>
    rw [List.foldl_cons, ih, List.countP_cons]
    by_cases seen : visited c = true
    · by_cases here : rowAt c = row
      · subst here
        simp [seen]
        ring
      · simp [seen, here]
    · simp [seen]

theorem rowPotential_shift {trail : List (Fin (n + 1))} {search : Search n} (consistent : search.Consistent cost trail)
    (column : Fin (n + 1)) (delta : Int) (row : Fin (n + 1)) :
    (search.shift column delta).rowPotential.get row =
      search.rowPotential.get row + if ∃ c ∈ trail, search.rowAt c = row then delta else 0 := by
  have sum := get_foldl_add (fun c => search.visited.get c) search.rowAt delta (List.finRange (n + 1))
    search.rowPotential row
  refine Eq.trans sum ?_
  by_cases held : ∃ c ∈ trail, search.rowAt c = row
  · obtain ⟨c, member, rfl⟩ := held
    have one : (List.finRange (n + 1)).countP (fun d => search.visited.get d && search.rowAt d == search.rowAt c) = 1 := by
      have same : ∀ d ∈ List.finRange (n + 1),
          (search.visited.get d && search.rowAt d == search.rowAt c) = true ↔ (d == c) = true := by
        intro d _
        rw [Bool.and_eq_true, beq_iff_eq, beq_iff_eq, consistent.visited_iff]
        constructor
        · rintro ⟨_, eq⟩
          exact (consistent.injective c d (consistent.rows c member) eq.symm).symm
        · rintro rfl
          exact ⟨member, rfl⟩
      rw [List.countP_congr same]
      exact List.count_eq_one_of_mem (List.nodup_finRange _) (List.mem_finRange c)
    rw [one, if_pos ⟨c, member, rfl⟩]
    simp
  · have none : (List.finRange (n + 1)).countP (fun d => search.visited.get d && search.rowAt d == row) = 0 := by
      rw [List.countP_eq_zero]
      intro d _ both
      rw [Bool.and_eq_true, beq_iff_eq, consistent.visited_iff] at both
      exact held ⟨d, both⟩
    rw [none, if_neg held]
    simp

theorem columnPotential_shift {trail : List (Fin (n + 1))} {search : Search n}
    (consistent : search.Consistent cost trail) (column : Fin (n + 1)) (delta : Int) (c : Fin (n + 1)) :
    (search.shift column delta).columnPotential.get c =
      search.columnPotential.get c - if c ∈ trail then delta else 0 := by
  simp only [shift, get_ofFn, Fin.getElem_fin, getElem_eq_get]
  have visited := consistent.visited_iff c
  by_cases seen : c ∈ trail
  · rw [if_pos (visited.mpr seen), if_pos seen]
  · rw [if_neg (fun h => seen (visited.mp h)), if_neg seen, Int.sub_zero]

theorem reduced_shift {trail : List (Fin (n + 1))} {search : Search n} (consistent : search.Consistent cost trail)
    (column : Fin (n + 1)) (delta : Int) (row c : Fin (n + 1)) :
    (search.shift column delta).reduced cost row c = search.reduced cost row c
      - (if ∃ d ∈ trail, search.rowAt d = row then delta else 0) + (if c ∈ trail then delta else 0) := by
  rw [Labelling.reduced, Labelling.reduced, rowPotential_shift consistent, columnPotential_shift consistent]
  ring

section Shift

variable {trail : List (Fin (n + 1))} {search : Search n} {column : Fin (n + 1)} {delta : Int} {c d : Fin (n + 1)}

theorem Consistent.reduced_shift_inside (consistent : search.Consistent cost trail) (hc : c ∈ trail) (hd : d ∈ trail) :
    (search.shift column delta).reduced cost (search.rowAt c) d = search.reduced cost (search.rowAt c) d := by
  rw [reduced_shift consistent, if_pos ⟨c, hc, rfl⟩, if_pos hd]
  omega

theorem Consistent.reduced_shift_leaving (consistent : search.Consistent cost trail) (hc : c ∈ trail) (hd : d ∉ trail) :
    (search.shift column delta).reduced cost (search.rowAt c) d = search.reduced cost (search.rowAt c) d - delta := by
  rw [reduced_shift consistent, if_pos ⟨c, hc, rfl⟩, if_neg hd]
  omega

theorem Consistent.slack_shift (consistent : search.Consistent cost trail) {slack : Int} (hc : c ∉ trail)
    (known : search.slack.get c = some slack) : (search.shift column delta).slack.get c = some (slack - delta) := by
  have unvisited : ¬ search.visited.get c = true := fun h => hc ((consistent.visited_iff c).mp h)
  simp only [Search.shift, get_ofFn, Fin.getElem_fin, getElem_eq_get]
  rw [if_neg unvisited, known]
  rfl

theorem Consistent.shift_balanced (consistent : search.Consistent cost trail) (delta_nonneg : 0 ≤ delta)
    (least : ∀ c ∉ trail, ∀ d ∈ trail, delta ≤ search.reduced cost (search.rowAt d) c) :
    (search.shift column delta).Balanced cost where
  feasible := by
    intro row c hrow hc
    have before := consistent.feasible row c hrow hc
    rw [reduced_shift consistent]
    by_cases held : ∃ d ∈ trail, search.rowAt d = row
    · obtain ⟨d, member, rfl⟩ := held
      rw [if_pos ⟨d, member, rfl⟩]
      by_cases inside : c ∈ trail
      · rw [if_pos inside]; omega
      · have := least c inside d member
        rw [if_neg inside]
        omega
    · rw [if_neg held]
      split <;> omega
  tight := by
    intro c hc row
    have before := consistent.tight c hc row
    change (search.shift column delta).reduced cost (search.rowAt c) c = 0
    by_cases inside : c ∈ trail
    · rw [consistent.reduced_shift_inside inside inside, before]
    · have alone : ¬ ∃ d ∈ trail, search.rowAt d = search.rowAt c := by
        rintro ⟨d, member, eq⟩
        rw [consistent.injective c d row eq.symm] at inside
        exact inside member
      rw [reduced_shift consistent, before, if_neg alone, if_neg inside]
      rfl

theorem Swept.slack_nonneg (swept : search.Swept cost trail) (outside : column ∉ trail)
    (slackens : search.Slackens cost trail column delta) : 0 ≤ delta := by
  rw [← slackens.2.1]
  exact swept.feasible _ _ (swept.rows _ slackens.1) (fun zero => outside (zero ▸ swept.traced.zero_mem))

theorem Swept.shift (swept : search.Swept cost trail) (outside : column ∉ trail)
    (slackens : search.Slackens cost trail column delta)
    (least : ∀ c ∉ trail, ∀ d ∈ trail, delta ≤ search.reduced cost (search.rowAt d) c) :
    (search.shift column delta).Growing cost trail := by
  have consistent := swept.toConsistent
  refine ⟨⟨consistent.shift_balanced (swept.slack_nonneg outside slackens) least, swept.injective, swept.visited_iff, swept.rows⟩, ?_, ?_⟩
  · refine .step (swept.traced.transfer rfl (fun _ _ _ => rfl)
      fun c hc d hd => consistent.reduced_shift_inside hc hd) outside slackens.1 ?_
    change (search.shift column delta).reduced cost (search.rowAt (search.origin column)) column = 0
    rw [consistent.reduced_shift_leaving slackens.1 outside, slackens.2.1]
    omega
  · intro c _ hc
    obtain ⟨slack, known, reached, eq, bound⟩ := swept.slack c hc
    rw [consistent.slack_shift hc known]
    refine ⟨reached, ?_, fun d member => ?_⟩
    · change (search.shift column delta).reduced cost (search.rowAt (search.origin c)) c = slack - delta
      rw [consistent.reduced_shift_leaving reached hc, eq]
    · have := bound d member
      change slack - delta ≤ (search.shift column delta).reduced cost (search.rowAt d) c
      rw [consistent.reduced_shift_leaving member hc]
      omega

end Shift

theorem Growing.length_lt {trail : List (Fin (n + 1))} {search : Search n} (growing : search.Growing cost trail) :
    trail.length < n + 1 := by
  have distinct := growing.traced.nodup
  have := List.Nodup.length_le_card distinct
  rw [List.length_cons, Fintype.card_fin] at this
  omega

/-- A search ends at a free column, if there is one, with the same rows at all columns. -/
theorem Growing.grow {trail : List (Fin (n + 1))} {search : Search n} (growing : search.Growing cost trail)
    (held : search.rowAt search.column ≠ 0) {free : Fin (n + 1)} (isFree : search.rowAt free = 0) {steps : Nat}
    (enough : n + 1 ≤ trail.length + steps) :
    ∃ result trail, search.grow cost steps = some result ∧ result.Growing cost trail ∧
      result.rowAt result.column = 0 ∧ result.rowAt = search.rowAt := by
  induction steps generalizing search trail with
  | zero =>
    have := growing.length_lt
    omega
  | succ steps ih =>
    have swept := growing.sweep held
    have outside : free ∉ search.column :: trail := fun member => swept.rows free member isFree
    obtain ⟨column, delta, found, new, slackens, least⟩ := swept.nearest outside
    have next := swept.shift new slackens least
    rw [Search.grow]
    simp only [found]
    split
    · exact ⟨_, _, rfl, next, by assumption, rfl⟩
    · obtain ⟨result, trail', run, grown, reached, rows⟩ := ih next (by assumption) isFree
        (by rw [List.length_cons]; omega)
      exact ⟨result, trail', run, grown, reached, rows⟩

theorem rowAt_start_zero (labelling : Labelling n) (row : Fin (n + 1)) : (start labelling row).rowAt 0 = row :=
  (get_set labelling.rowOf 0 0 row (Nat.succ_pos n)).trans (if_pos rfl)

theorem rowAt_start (labelling : Labelling n) (row : Fin (n + 1)) {c : Fin (n + 1)} (nonzero : c ≠ 0) :
    (start labelling row).rowAt c = labelling.rowAt c :=
  (get_set labelling.rowOf 0 c row (Nat.succ_pos n)).trans (if_neg nonzero.symm)

theorem start_growing {labelling : Labelling n} {count : Nat} (assigned : labelling.Assigned cost count)
    {row : Fin (n + 1)} (new : count < row.val) : (start labelling row).Growing cost [] := by
  have first := rowAt_start_zero labelling row
  have others (c : Fin (n + 1)) := rowAt_start labelling row (c := c)
  refine ⟨⟨⟨assigned.feasible, ?_⟩, ?_, ?_, by simp⟩, .start, ?_⟩
  · intro c nonzero held
    rw [others c nonzero] at held ⊢
    exact assigned.tight c nonzero held
  · intro c d held same
    by_cases hc : c = 0 <;> by_cases hd : d = 0
    · rw [hc, hd]
    · rw [hc, first, others d hd] at same
      have := assigned.bounded d hd
      rw [← same] at this
      omega
    · rw [hd, first, others c hc] at same
      have := assigned.bounded c hc
      rw [same] at this
      omega
    · rw [others c hc] at held same
      rw [others d hd] at same
      exact assigned.injective c d hc hd held same
  · intro c
    simp [start]
  · intro c _ _
    simp [start]

end Search

end TreeAlign.Assignment
