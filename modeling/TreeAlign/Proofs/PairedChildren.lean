import Mathlib.Data.List.ProdSigma
import TreeAlign.Proofs.Asking
import TreeAlign.Proofs.Assignment.Exactness

namespace TreeAlign

variable {σ : Type} {ask : Node → Node → EStateM Failure σ Matchings} {left right : Node}
  {cells : List (List Matchings)} {s s' : σ}

theorem flatten_askChildren (ask : Node → Node → EStateM Failure σ Matchings) (lefts rights : List Node) :
    List.flatten <$> askChildren ask lefts rights = (lefts ×ˢ rights).mapM fun p => ask p.1 p.2 := by
  induction lefts with
  | nil => rfl
  | cons l lefts ih =>
    have row : (rights.map (Prod.mk l)).mapM (fun p => ask p.1 p.2) = rights.mapM (ask l) := by
      rw [List.mapM_map]
      rfl
    rw [List.product_cons, List.mapM_append, ← ih, row, askChildren, List.mapM_cons]
    simp [askChildren]

theorem askChildren_of_error {lefts rights : List Node} {before after : List (Node × Node)} {l r : Node}
    {answers : List Matchings} {failure : Failure} {s₁ s₂ : σ} (split : lefts ×ˢ rights = before ++ (l, r) :: after)
    (answered : before.mapM (fun p => ask p.1 p.2) s = .ok answers s₁) (failed : ask l r s₁ = .error failure s₂) :
    askChildren ask lefts rights s = .error failure s₂ := by
  have all := congrFun (flatten_askChildren ask lefts rights) s
  rw [split, List.mapM_append, List.mapM_cons] at all
  simp only [bind, EStateM.bind, answered, failed] at all
  cases run : askChildren ask lefts rights s with
  | ok cells s' => simp [Functor.map, EStateM.map, run] at all
  | error other s' =>
    simp only [Functor.map, EStateM.map, run] at all
    cases all
    rfl

namespace Pairing

theorem scoreAt_le_largest (place : Nat × Nat) : scoreAt left right cells place ≤
    (weights (Answer.table left.children right.children cells)).largest := by
  rw [scoreAt_eq, ← weight_weights]
  exact Assignment.Table.weight_le_largest _ _ _

theorem exists_scoreAt {w : Nat} (member : w ∈ (weights (Answer.table left.children right.children cells)).weights) :
    ∃ place, scoreAt left right cells place = w := by
  obtain ⟨row, hrow, hw⟩ := member
  obtain ⟨answers, hanswers, rfl⟩ := List.mem_map.mp hrow.val
  obtain ⟨answer, hanswer, rfl⟩ := List.mem_map.mp hw.val
  obtain ⟨place, cell⟩ := exists_cellAt hanswers hanswer
  refine ⟨place, ?_⟩
  rw [scoreAt_eq, weightAt, cell]
  rfl

theorem size_table (grid : Grid (fun _ _ _ => True) left.children right.children cells) :
    (weights (Answer.table left.children right.children cells)).size = left.children.length ∧
      (left.children.length = 0 ∨
        (weights (Answer.table left.children right.children cells)).width = right.children.length) := by
  have size : (weights (Answer.table left.children right.children cells)).size = left.children.length := by
    simp [weights, grid.length_table]
  refine ⟨size, ?_⟩
  rw [← size]
  exact width_weights grid.table_wide

/-- The two ways in which the pairing of the children can end. -/
theorem combine_cases (grid : Grid (fun _ _ _ => True) left.children right.children cells) :
    (∃ w, IsGreatest (Set.range (scoreAt left right cells)) w ∧
      Assignment.limit (max left.children.length right.children.length) < w ∧
      combine left right cells = .error (.unsolvable left.id right.id (.overflow w))) ∨
    (∀ place, scoreAt left right cells place ≤ Assignment.limit (max left.children.length right.children.length)) ∧
      ∃ ms m places, combine left right cells = .ok ms ∧ ms.get? left.id right.id = some m ∧
        Chosen OneToOne left right cells places m := by
  obtain ⟨size, width⟩ := size_table grid
  have even := even_weights grid.table_wide
  rcases Assignment.solve_cases (weights (Answer.table left.children right.children cells)) with
    ⟨ragged, -⟩ | ⟨-, inhabited, heavy, run⟩ | ⟨⟨-, small⟩, solution, run, -⟩
  · rw [even] at ragged
    cases ragged
  · left
    have positive := (Assignment.Table.nonempty_weights_iff even).mp inhabited
    have wide := width.resolve_left (by omega)
    rw [size, wide] at heavy
    refine ⟨_, ⟨?_, ?_⟩, heavy, ?_⟩
    · exact exists_scoreAt (Assignment.Table.isGreatest_largest inhabited).1
    · rintro w ⟨place, rfl⟩
      exact scoreAt_le_largest place
    · simp only [combine, run]
  · right
    constructor
    · intro place
      by_cases scores : 0 < scoreAt left right cells place
      · obtain ⟨row, column, -⟩ := exists_directAt scores
        have wide := width.resolve_left (by omega)
        rw [size, wide] at small
        exact Nat.le_trans (scoreAt_le_largest place) (by omega)
      · omega
    · obtain ⟨places, chosen⟩ := (selects_of_solve run).chosen .unordered
      have ended : combine left right cells = .ok (.ofPicked .unordered left right solution.objective
          (picked (Answer.table left.children right.children cells) solution.pairs)) := by
        simp only [combine, run]
      exact ⟨_, _, places, ended, Matchings.get?_foldl_union (Matchings.get?_single rfl), chosen⟩

/-- What the children of two nodes are paired to, whoever answers about them: a score above the limit of the
solver fails and nothing else does, the children are matched one to one with the largest score, and a question
that fails is the first that does. -/
theorem matchWith_exact (ask : Node → Node → EStateM Failure σ Matchings) (left right : Node) (s : σ) :
    (∀ cells s', askChildren ask left.children right.children s = .ok cells s' →
      ((∃ fault, matchWith ask left right s = .error (.unsolvable left.id right.id fault) s') ↔
        ∃ place, (2 ^ 63 - 1) / (2 * (max left.children.length right.children.length + 1)) <
          scoreAt left right cells place) ∧
      (∀ fault, matchWith ask left right s = .error (.unsolvable left.id right.id fault) s' →
        ∃ w, fault = .overflow w ∧ IsGreatest (Set.range (scoreAt left right cells)) w) ∧
      ((∀ place, scoreAt left right cells place ≤
          (2 ^ 63 - 1) / (2 * (max left.children.length right.children.length + 1))) →
        ∃ ms m places, matchWith ask left right s = .ok ms s' ∧ ms.get? left.id right.id = some m ∧
          Chosen OneToOne left right cells places m)) ∧
    ∀ before l r after answers failure s₁ s₂, left.children ×ˢ right.children = before ++ (l, r) :: after →
      before.mapM (fun p => ask p.1 p.2) s = .ok answers s₁ → ask l r s₁ = .error failure s₂ →
      matchWith ask left right s = .error failure s₂ := by
  simp only [← Assignment.limit_eq]
  constructor
  · intro cells s' answered
    rcases combine_cases (askChildren_grid answered) with
      ⟨w, greatest, heavy, failed⟩ | ⟨small, ms, m, places, ended, root, chosen⟩
    · have run : matchWith ask left right s = .error (.unsolvable left.id right.id (.overflow w)) s' := by
        simp only [matchWith, bind, EStateM.bind, answered, failed]
        rfl
      obtain ⟨place, score⟩ := greatest.1
      have above : Assignment.limit (max left.children.length right.children.length) < scoreAt left right cells place := by
        rw [score]
        exact heavy
      rw [run]
      refine ⟨⟨fun _ => ⟨place, above⟩, fun _ => ⟨_, rfl⟩⟩, ?_, ?_⟩
      · intro fault same
        cases same
        exact ⟨w, rfl, greatest⟩
      · intro small
        exact absurd above (Nat.not_lt.mpr (small place))
    · have run : matchWith ask left right s = .ok ms s' := by
        simp only [matchWith, bind, EStateM.bind, answered, ended]
        rfl
      rw [run]
      refine ⟨⟨?_, ?_⟩, ?_, fun _ => ⟨ms, m, places, rfl, root, chosen⟩⟩
      · intro failed
        obtain ⟨fault, same⟩ := failed
        cases same
      · intro heavy
        obtain ⟨place, above⟩ := heavy
        exact absurd above (Nat.not_lt.mpr (small place))
      · intro fault same
        cases same
  · intro before l r after answers failure s₁ s₂ split answered failed
    have stopped := askChildren_of_error split answered failed
    simp only [matchWith, bind, EStateM.bind, stopped]

/-- Answers with the scores it is given one after another, and fails where it is given none. -/
def scripted (l r : Node) : EStateM Failure (List (Option Nat)) Matchings := do
  match ← get with
  | some score :: rest =>
    set rest
    return .single { left := l.id, right := r.id, score := score, algorithm := .equality }
  | _ => throw (.unknownNode l.id)

theorem matchWith_exact_scripted :
    (∃ cells ms m places, matchWith scripted (Dispatcher.names 0 "x" "y") (Dispatcher.names 3 "x" "z")
        [some 1, some 3, some 3, some 1] = .ok ms [] ∧ ms.get? 0 3 = some m ∧
      Chosen OneToOne (Dispatcher.names 0 "x" "y") (Dispatcher.names 3 "x" "z") cells places m) ∧
    (∃ fault, matchWith scripted (Dispatcher.names 0 "x" "y") (Dispatcher.names 3 "x" "z")
      [some 1, some (2 ^ 63), some 3, some 1] = .error (.unsolvable 0 3 fault) []) ∧
    matchWith scripted (Dispatcher.names 0 "x" "y") (Dispatcher.names 3 "x" "z") [some 1, none] =
      .error (.unknownNode 1) [none] := by
  refine ⟨?_, ?_, ?_⟩
  · have answered : ∃ cells, askChildren scripted (Dispatcher.names 0 "x" "y").children
        (Dispatcher.names 3 "x" "z").children [some 1, some 3, some 3, some 1] = .ok cells [] ∧
        ∀ i < 2, ∀ j < 2, scoreAt (Dispatcher.names 0 "x" "y") (Dispatcher.names 3 "x" "z") cells (i, j) ≤ 3 :=
      ⟨_, rfl, by decide⟩
    obtain ⟨cells, answered, small⟩ := answered
    obtain ⟨ms, m, places, run, root, chosen⟩ := ((matchWith_exact scripted _ _ _).1 cells _ answered).2.2 (by
      intro place
      by_cases scores : 0 < scoreAt (Dispatcher.names 0 "x" "y") (Dispatcher.names 3 "x" "z") cells place
      · obtain ⟨row, column, -⟩ := exists_directAt scores
        exact Nat.le_trans (small place.1 row place.2 column) (by decide)
      · exact Nat.le_trans (Nat.le_of_not_lt scores) (Nat.zero_le _))
    exact ⟨cells, ms, m, places, run, root, chosen⟩
  · have answered : ∃ cells, askChildren scripted (Dispatcher.names 0 "x" "y").children
        (Dispatcher.names 3 "x" "z").children [some 1, some (2 ^ 63), some 3, some 1] = .ok cells [] ∧
        (2 ^ 63 - 1) / (2 * (max 2 2 + 1)) <
          scoreAt (Dispatcher.names 0 "x" "y") (Dispatcher.names 3 "x" "z") cells (0, 1) := ⟨_, rfl, by decide⟩
    obtain ⟨cells, answered, heavy⟩ := answered
    exact ((matchWith_exact scripted _ _ _).1 cells _ answered).1.mpr ⟨(0, 1), heavy⟩
  · exact (matchWith_exact scripted (Dispatcher.names 0 "x" "y") (Dispatcher.names 3 "x" "z") [some 1, none]).2
      [_] _ _ _ _ _ _ _ rfl rfl rfl

end Pairing

end TreeAlign
