import TreeAlign.Cover.CostModel
import TreeAlign.Strategy.Dispatch

namespace TreeAlign.Dispatcher

/-- The matchings of two trees and what the matcher remembers after them; `none` if the search never
ends. -/
def matchTrees (p : MatchParameters) (left right : Node) (d : Dispatcher) :
    Option (Except Failure Matchings × Dispatcher) :=
  match matchNodes p left right d with
  | .error failure d => some (.error failure, d)
  | .ok ms d =>
    if !p.useSearch then some (.ok ms, d)
    else
      match (CostModel.ofParameters p.search).refine (.root left) (.root right) ms with
      | none => none
      | some (.ok refined, _) => some (.ok refined, d)
      | some (.error failure, _) =>
        some (if p.keepOnSearchFailure then .ok ms else .error failure, d)

end TreeAlign.Dispatcher
