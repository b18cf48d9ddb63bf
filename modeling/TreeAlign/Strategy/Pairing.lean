import TreeAlign.Failure
import TreeAlign.Strategy.Children

namespace TreeAlign.Pairing

def weights (table : List (List Answer)) : Assignment.Table :=
  (table.map fun row => (row.map Answer.score).toArray).toArray

def picked (table : List (List Answer)) (pairs : List (Nat × Nat)) : List Answer :=
  pairs.filterMap fun place => (cellAt table place).filter (0 < ·.score)

def combine (left right : Node) (cells : List (List Matchings)) : Except Failure Matchings :=
  let table := Answer.table left.children right.children cells
  match Assignment.solve (weights table) with
  | .ok solution =>
    .ok (.ofPicked .unordered left right solution.objective (picked table solution.pairs))
  | .error fault => .error (.unsolvable left.id right.id fault)

def matchWith {m : Type → Type} [Monad m] [MonadExceptOf Failure m]
    (ask : Node → Node → m Matchings) (left right : Node) : m Matchings := do
  MonadExcept.ofExcept (combine left right (← askChildren ask left.children right.children))

end TreeAlign.Pairing
