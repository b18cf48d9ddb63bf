import TreeAlign.Proofs.Dispatch

namespace TreeAlign

variable {ε σ : Type} {ask : Node → Node → EStateM ε σ Matchings} {left right : Node}
  {cells : List (List Matchings)} {s s' : σ}

def directAt (left right : Node) (cells : List (List Matchings)) (place : Nat × Nat) : Option Matching := do
  let l ← left.children[place.1]?
  let r ← right.children[place.2]?
  let answer ← cellAt cells place
  answer.get? l.id r.id

/-- The score of a left child and a right child, zero if they have no matching. -/
def scoreAt (left right : Node) (cells : List (List Matchings)) (place : Nat × Nat) : Nat :=
  ((directAt left right cells place).map Matching.score).getD 0

theorem directAt_eq (left right : Node) (cells : List (List Matchings)) (place : Nat × Nat) :
    directAt left right cells place =
      (cellAt (Answer.table left.children right.children cells) place).bind Answer.direct := by
  rw [directAt, Answer.cellAt_table]
  cases left.children[place.1]? <;> cases right.children[place.2]? <;> cases cellAt cells place <;> rfl

theorem scoreAt_eq (left right : Node) (cells : List (List Matchings)) :
    scoreAt left right cells = weightAt Answer.score (Answer.table left.children right.children cells) := by
  funext place
  rw [scoreAt, directAt_eq, weightAt]
  cases cell : cellAt (Answer.table left.children right.children cells) place with
  | none => rfl
  | some answer =>
    obtain ⟨l, r, -, -, -, same⟩ := Answer.cellAt_table_eq_some cell
    simp only [Option.bind_some, Option.map_some, Option.getD_some]
    rw [same, Answer.of, Matchings.scoreOf]
    cases answer.all.get? l.id r.id <;> rfl

theorem exists_directAt {place : Nat × Nat} (positive : 0 < scoreAt left right cells place) :
    place.1 < left.children.length ∧ place.2 < right.children.length ∧
      ∃ m, directAt left right cells place = some m := by
  cases found : directAt left right cells place with
  | none => simp [scoreAt, found] at positive
  | some m =>
    obtain ⟨l, hl, rest⟩ := Option.bind_eq_some_iff.mp found
    obtain ⟨r, hr, -⟩ := Option.bind_eq_some_iff.mp rest
    exact ⟨(List.getElem?_eq_some_iff.mp hl).1, (List.getElem?_eq_some_iff.mp hr).1, m, rfl⟩

theorem map_some_directAt {places : List (Nat × Nat)} (positive : ∀ p ∈ places, 0 < scoreAt left right cells p) :
    (places.filterMap fun p => (directAt left right cells p).map Matching.shallow).map some =
      places.map fun p => (directAt left right cells p).map Matching.shallow := by
  apply map_some_filterMap
  intro p member
  obtain ⟨-, -, m, found⟩ := exists_directAt (positive p member)
  rw [found]
  rfl

theorem askChildren_grid (answered : askChildren ask left.children right.children s = .ok cells s') :
    Grid (fun _ _ _ => True) left.children right.children cells := by
  have row (l : Node) : Ends (right.children.mapM (ask l)) (List.Forall₂ (fun _ _ => True) right.children)
      fun _ => True := Ends.mapM fun r _ s => by cases ask l r s <;> trivial
  have ends : Ends (askChildren ask left.children right.children)
      (Grid (fun _ _ _ => True) left.children right.children) fun _ => True := Ends.mapM fun l _ => row l
  exact ends.of_ok answered

/-- The matching of two nodes whose children are matched at `places`, given the answers about the children: no
choice that `admits` scores more. -/
structure Chosen (admits : Finset (Nat × Nat) → Prop) (left right : Node) (cells : List (List Matchings))
    (places : List (Nat × Nat)) (m : Matching) : Prop where
  rising : places.Pairwise fun p q => p.1 < q.1
  admitted : admits places.toFinset
  positive : ∀ p ∈ places, 0 < scoreAt left right cells p
  children : m.children.map some = places.map fun p => (directAt left right cells p).map Matching.shallow
  score : m.score = (places.map (scoreAt left right cells)).sum + left.ownScore right
  best : IsGreatest {w | ∃ choice : Finset (Nat × Nat), admits choice ∧
    (∀ p ∈ choice, p.1 < left.children.length ∧ p.2 < right.children.length) ∧
    w = ∑ p ∈ choice, scoreAt left right cells p} (places.map (scoreAt left right cells)).sum

theorem Selects.chosenAt {admits : Finset (Nat × Nat) → Prop} {total : Nat} {picked : List Answer}
    (selects : Selects admits Answer.score (Answer.table left.children right.children cells) total picked)
    {places : List (Nat × Nat)} (rising : places.Pairwise fun p q => p.1 < q.1) (admitted : admits places.toFinset)
    (same : picked.map some = places.map (cellAt (Answer.table left.children right.children cells)))
    (algorithm : Algorithm) : Chosen admits left right cells places (entryOf algorithm left right total picked) := by
  have score := scoreAt_eq left right cells
  have sum : (places.map (scoreAt left right cells)).sum = total := by
    rw [score, sum_weightAt_eq same, selects.total_eq]
  have positive : ∀ p ∈ places, 0 < scoreAt left right cells p := by
    intro p member
    obtain ⟨answer, picked, cell⟩ := exists_picked same member
    have weighs := selects.positive answer picked
    rw [score, weightAt, cell]
    exact weighs
  refine ⟨rising, admitted, positive, ?_, ?_, ?_⟩
  · have listed : (entryOf algorithm left right total picked).children = _ := filterMap_direct same
    have direct (p : Nat × Nat) : ((cellAt (Answer.table left.children right.children cells) p).bind
        fun a => a.direct.map Matching.shallow) = (directAt left right cells p).map Matching.shallow := by
      rw [directAt_eq]
      cases cellAt (Answer.table left.children right.children cells) p <;> rfl
    rw [listed]
    simp only [direct]
    exact map_some_directAt positive
  · rw [sum]
    rfl
  · rw [sum]
    have greatest := selects.isGreatest
    rw [← score] at greatest
    constructor
    · have distinct : places.Nodup := rising.imp fun lt eq => by subst eq; exact Nat.lt_irrefl _ lt
      refine ⟨places.toFinset, admitted, fun p member => ?_, ?_⟩
      · have inside := exists_directAt (positive p (List.mem_toFinset.mp member))
        exact ⟨inside.1, inside.2.1⟩
      · rw [List.sum_toFinset _ distinct, sum]
    · rintro w ⟨choice, apart, -, rfl⟩
      exact greatest.2 ⟨choice, apart, rfl⟩

theorem Selects.chosen {admits : Finset (Nat × Nat) → Prop} {total : Nat} {picked : List Answer}
    (selects : Selects admits Answer.score (Answer.table left.children right.children cells) total picked)
    (algorithm : Algorithm) : ∃ places, Chosen admits left right cells places (entryOf algorithm left right total picked) := by
  obtain ⟨places, rising, admitted, same⟩ := selects.cells
  exact ⟨places, selects.chosenAt rising admitted same algorithm⟩

namespace Alignment

theorem combine_chosen (left right : Node) (cells : List (List Matchings)) :
    let tables := Tables.fill left.children.length right.children.length (scoreAt left right cells)
    ∃ m, (combine left right cells).get? left.id right.id = some m ∧
      Chosen NonCrossing left right cells tables.places m ∧ m.score = tables.total + left.ownScore right := by
  intro tables
  have filled : tables = Tables.fill _ _ (weightAt Answer.score (Answer.table left.children right.children cells)) := by
    rw [← scoreAt_eq]
  have chosen := (answers_selects left right cells).chosenAt (Tables.places_rising.imp fun lt => lt.1)
    (nonCrossing_of_rising Tables.places_rising) Tables.map_some_picked .ordered
  rw [filled]
  exact ⟨_, Matchings.get?_foldl_union (Matchings.get?_single rfl), chosen, rfl⟩

/-- The children of two nodes are aligned at the places found on the way back through the tables, whoever answers about
the children: these score, rise on both sides, and score as much as any pairs that do not cross. Every score in the table
is the best one for so many children on either side. If all answers together stay below the largest number of 64 bits,
so does every sum. -/
theorem matchWith_optimal (answered : askChildren ask left.children right.children s = .ok cells s') :
    let tables := Tables.fill left.children.length right.children.length (scoreAt left right cells)
    ∃ ms m, matchWith ask left right s = .ok ms s' ∧ ms.get? left.id right.id = some m ∧
      Chosen NonCrossing left right cells tables.places m ∧ tables.places.Pairwise (fun p q => p.1 < q.1 ∧ p.2 < q.2) ∧
      m.score = tables.total + left.ownScore right ∧
      (∀ i j (hi : i ≤ left.children.length) (hj : j ≤ right.children.length),
        IsGreatest {w | ∃ choice : Finset (Nat × Nat), NonCrossing choice ∧ (∀ p ∈ choice, p.1 < i ∧ p.2 < j) ∧
          w = ∑ p ∈ choice, scoreAt left right cells p} (tables.score i j hi hj)) ∧
      (∑ p ∈ Finset.range left.children.length ×ˢ Finset.range right.children.length,
        scoreAt left right cells p < 2 ^ 64 - 1 →
        (∀ i j (hi : i < left.children.length) (hj : j < right.children.length),
          tables.score i j hi.le hj.le + scoreAt left right cells (i, j) < 2 ^ 64) ∧ m.score < 2 ^ 64) := by
  intro tables
  obtain ⟨m, root, chosen, score⟩ := combine_chosen left right cells
  have total_le {i j : Nat} (hi : i ≤ left.children.length) (hj : j ≤ right.children.length) :
      tables.score i j hi hj ≤ ∑ p ∈ Finset.range left.children.length ×ˢ Finset.range right.children.length,
        scoreAt left right cells p :=
    (Tables.fill_optimal _ hi hj).total_le hi hj
  refine ⟨combine left right cells, m, ?_, root, chosen, Tables.places_rising, score, ?_, fun small => ⟨?_, ?_⟩⟩
  · simp only [matchWith, bind, EStateM.bind, answered]
    rfl
  · exact fun i j hi hj => (Tables.fill_optimal _ hi hj).isGreatest
  · intro i j hi hj
    have added : tables.score i j hi.le hj.le + scoreAt left right cells (i, j) ≤ tables.score (i + 1) (j + 1) hi hj :=
      Tables.add_weight_le _ hi hj
    have next := total_le hi hj
    exact (added.trans next).trans_lt (small.trans (by decide))
  · have whole : tables.total ≤ _ := total_le (Nat.le_refl _) (Nat.le_refl _)
    have own : left.ownScore right ≤ 1 := by
      unfold Tree.ownScore
      split <;> decide
    have sum : m.score = tables.total + left.ownScore right := score
    omega

/-- Counts the questions, and prefers names at different places. -/
def preferCrossing (l r : Node) : EStateM Failure Nat Matchings := do
  modify (· + 1)
  return .single { left := l.id, right := r.id, score := if l.id + 3 = r.id then 1 else 3, algorithm := .equality }

theorem matchWith_optimal_crossing : ∃ cells ms m,
    askChildren preferCrossing (Dispatcher.names 0 "x" "y").children (Dispatcher.names 3 "x" "z").children 0 = .ok cells 4 ∧
    (Tables.fill 2 2 (scoreAt (Dispatcher.names 0 "x" "y") (Dispatcher.names 3 "x" "z") cells)).places = [(1, 0)] ∧
    matchWith preferCrossing (Dispatcher.names 0 "x" "y") (Dispatcher.names 3 "x" "z") 0 = .ok ms 4 ∧
    ms.get? 0 3 = some m ∧ m.score < 2 ^ 64 ∧
    Chosen NonCrossing (Dispatcher.names 0 "x" "y") (Dispatcher.names 3 "x" "z") cells [(1, 0)] m := by
  obtain ⟨cells, answered, total, way⟩ : ∃ cells, askChildren preferCrossing (Dispatcher.names 0 "x" "y").children
      (Dispatcher.names 3 "x" "z").children 0 = .ok cells 4 ∧
      ∑ p ∈ Finset.range 2 ×ˢ Finset.range 2,
        scoreAt (Dispatcher.names 0 "x" "y") (Dispatcher.names 3 "x" "z") cells p = 8 ∧
      (Tables.fill 2 2 (scoreAt (Dispatcher.names 0 "x" "y") (Dispatcher.names 3 "x" "z") cells)).places = [(1, 0)] :=
    ⟨_, rfl, by decide, by decide⟩
  obtain ⟨ms, m, run, root, chosen, -, -, -, small⟩ := matchWith_optimal answered
  exact ⟨cells, ms, m, answered, way, run, root, (small (lt_of_eq_of_lt total (by decide))).2, way ▸ chosen⟩

end Alignment

end TreeAlign
