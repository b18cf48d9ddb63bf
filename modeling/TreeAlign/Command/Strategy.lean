import TreeAlign.Report
import TreeAlign.Strategy.Whole

namespace TreeAlign

inductive Strategy where
  | auto
  | ordered
  | unordered
  | equality
  | costModel
deriving DecidableEq, Repr

namespace Strategy

def name : Strategy → String
  | .auto => "auto"
  | .ordered => "ordered"
  | .unordered => "unordered"
  | .equality => "equality"
  | .costModel => "cost-model"

def ofName? : String → Option Strategy
  | "auto" => some .auto
  | "ordered" => some .ordered
  | "unordered" => some .unordered
  | "equality" => some .equality
  | "cost-model" => some .costModel
  | _ => none

end Strategy

namespace Report

def ofRun (strategy : String) (left right : Node) (result : Except Failure Matchings)
    (d : Dispatcher) : Except Failure Report :=
  result.map fun ms => { of strategy left right ms with statistics := some d.statistics }

def ofTrees (p : MatchParameters) (strategy : Strategy) (left right : Node) :
    Option (Except Failure Report) :=
  let run (f : Dispatcher.Run Matchings) : Option (Except Failure Report) :=
    some <| match f {} with
      | .ok ms d => ofRun strategy.name left right (.ok ms) d
      | .error failure _ => .error failure
  match strategy with
  | .auto => (Dispatcher.matchTrees p left right {}).map fun (ms, d) =>
    ofRun strategy.name left right ms d
  | .ordered => run (Dispatcher.matchOrdered p left right)
  | .unordered => run (Dispatcher.matchUnordered p left right)
  | .equality =>
    some <| match Equality.matchNodes left right .empty with
      | .ok ms _ => .ok (of strategy.name left right ms)
      | .error failure _ => .error failure
  | .costModel =>
    ((CostModel.ofParameters p.search).matchNodes (.root left) (.root right)).map
      fun (ms, model) => ms.map fun ms =>
        { of strategy.name left right ms with search := model.report }

def withCost (p : MatchParameters) (left right : Node) : Except Failure Report :=
  match Dispatcher.matchNodes p left right {} with
  | .error failure _ => .error failure
  | .ok ms d => do
    let model := CostModel.ofParameters p.search
    let cost ← model.costOf ms.optimized (.root left) (.root right)
    let report ← ofRun Strategy.auto.name left right (.ok ms) d
    return { report with cost := some cost }

end Report

end TreeAlign
