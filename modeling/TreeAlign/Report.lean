import TreeAlign.Cover.Search
import TreeAlign.Json.Printer
import TreeAlign.Matching.Matchings
import TreeAlign.Strategy.Dispatch

namespace TreeAlign

structure PairReport where
  left : NodeId
  right : NodeId
  leftLabel : String
  rightLabel : String
  score : Nat
  algorithm : Algorithm
deriving Repr

structure Report where
  strategy : String
  leftSize : Nat
  rightSize : Nat
  rootScore : Nat
  /-- Share of the larger tree that the score of the roots covers. -/
  coverage : Float
  pairs : List PairReport
  statistics : Option Statistics := none
  cost : Option Float32 := none
  search : Option SearchReport := none
deriving Repr

namespace Report

def labelOf (tree : Node) (id : NodeId) : String :=
  match tree.find? id with
  | some node => node.label.text
  | none => NodeId.text id

def of (strategy : String) (left right : Node) (ms : Matchings) : Report :=
  let root := ms.get? left.id right.id
  { strategy
    leftSize := left.size
    rightSize := right.size
    rootScore := (root.map (·.score)).getD 0
    coverage := (root.map (·.coverage left.size right.size)).getD 0.0
    pairs := (ms.entries.filter (0 < ·.score)).map fun m =>
      { left := m.left, right := m.right, leftLabel := labelOf left m.left,
        rightLabel := labelOf right m.right, score := m.score, algorithm := m.algorithm } }

def pairLine (pair : PairReport) : String :=
  s!"  {NodeId.text pair.left} {pair.leftLabel} <-> {NodeId.text pair.right} {pair.rightLabel}" ++
    s!"  score={pair.score} [{pair.algorithm.name}]"

def costText (cost : Float32) : String :=
  Decimal.fixed 4 (.ofFloat32 cost)

def searchLine (report : SearchReport) : String :=
  s!"cost model: {report.iterations} iterations, {report.accepted} accepted, cost " ++
    s!"{costText report.initialCost} -> {costText report.lowestCost}"

def text (report : Report) : String :=
  let share := Decimal.fixed 1 (.ofFloat (report.coverage * 100.0))
  let first := s!"strategy: {report.strategy}, nodes: {report.leftSize}/{report.rightSize}, " ++
    s!"root score: {report.rootScore} ({share}%)"
  "\n".intercalate (first :: report.pairs.map pairLine ++
    (report.statistics.map Statistics.summary).toList ++
    (report.cost.map fun cost => "cost: " ++ costText cost).toList ++
    (report.search.map searchLine).toList)

def pairJson (pair : PairReport) : Json :=
  .record [("left", .ofNat pair.left), ("right", .ofNat pair.right),
    ("left_label", .ofString pair.leftLabel), ("right_label", .ofString pair.rightLabel),
    ("score", .ofNat pair.score), ("algorithm", .ofString pair.algorithm.name)]

def statisticsJson (s : Statistics) : Json :=
  .record [("calls", .ofNat s.calls), ("ordered_calls", .ofNat s.orderedCalls),
    ("unordered_calls", .ofNat s.unorderedCalls), ("equality_attempts", .ofNat s.equalityAttempts),
    ("equality_hits", .ofNat s.equalityHits)]

def searchJson (report : SearchReport) : Json :=
  .record [("iterations", .ofNat report.iterations), ("accepted", .ofNat report.accepted),
    ("initial_cost", .ofFloat32 report.initialCost), ("lowest_cost", .ofFloat32 report.lowestCost),
    ("lowest_cost_trace", .array (report.trace.map Json.ofFloat32))]

def json (report : Report) : Json :=
  .record ([("strategy", .ofString report.strategy), ("left_size", .ofNat report.leftSize),
    ("right_size", .ofNat report.rightSize), ("root_score", .ofNat report.rootScore),
    ("coverage", .ofFloat report.coverage), ("pairs", .array (report.pairs.map pairJson))] ++
    (report.statistics.map fun s => ("stats", statisticsJson s)).toList ++
    (report.cost.map fun cost => ("cost", Json.ofFloat32 cost)).toList ++
    (report.search.map fun search => ("cost_model", searchJson search)).toList)

end Report

end TreeAlign
