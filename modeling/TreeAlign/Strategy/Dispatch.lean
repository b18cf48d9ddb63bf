import TreeAlign.Strategy.Alignment
import TreeAlign.Strategy.Equality
import TreeAlign.Strategy.Pairing

namespace TreeAlign

structure Statistics where
  calls : Nat := 0
  orderedCalls : Nat := 0
  unorderedCalls : Nat := 0
  equalityAttempts : Nat := 0
  equalityHits : Nat := 0
deriving DecidableEq, Repr

namespace Statistics

def isConsistent (s : Statistics) : Bool :=
  s.calls == s.orderedCalls + s.unorderedCalls

def summary (s : Statistics) : String :=
  s!"matcher calls (all/ordered/unordered): {s.calls}/{s.orderedCalls}/{s.unorderedCalls}"

def countOrdered (s : Statistics) : Statistics :=
  { s with calls := s.calls + 1, orderedCalls := s.orderedCalls + 1 }

def countUnordered (s : Statistics) : Statistics :=
  { s with calls := s.calls + 1, unorderedCalls := s.unorderedCalls + 1 }

def countAttempt (s : Statistics) : Statistics :=
  { s with equalityAttempts := s.equalityAttempts + 1 }

def countHit (s : Statistics) : Statistics :=
  { s with equalityHits := s.equalityHits + 1 }

end Statistics

structure Dispatcher where
  statistics : Statistics := {}
  unequal : PairSet := .empty

namespace Dispatcher

/-- A run that can fail. What is remembered up to the failure stays. -/
abbrev Run := EStateM Failure Dispatcher

def count (step : Statistics → Statistics) : Run Unit :=
  modify fun d => { d with statistics := step d.statistics }

def compare (left right : Node) : Run Matchings := fun d =>
  match Equality.matchNodes left right d.unequal with
  | .ok ms unequal => .ok ms { d with unequal }
  | .error failure unequal => .error failure { d with unequal }

def tryEquality (p : MatchParameters) (left right : Node) : Run (Option Matchings) := do
  if !p.useEquality then return none
  let d ← get
  if p.skipKnownUnequal && d.unequal.contains left.id right.id then return none
  count .countAttempt
  let ms ← compare left right
  match ms.get? left.id right.id with
  | none => return none
  | some _ =>
    count .countHit
    return some ms

def alignChildren (left right : Node) (cells : Run (List (List Matchings))) : Run Matchings := do
  count .countOrdered
  return Alignment.combine left right (← cells)

/-- Pairs the children of two nodes, whose matchings `cells` finds. A pair of nodes whose children
cannot be assigned to each other does not match. -/
def pairChildren (left right : Node) (cells : Run (List (List Matchings))) : Run Matchings := do
  count .countUnordered
  try
    MonadExcept.ofExcept (Pairing.combine left right (← cells))
  catch failure =>
    if failure.isLocal then
      return .single { left := left.id, right := right.id, score := 0, algorithm := .unordered }
    else throw failure

def isOrdered (left right : Node) : Bool :=
  left.children.any (·.isOrdered) || right.children.any (·.isOrdered)

mutual

def matchNodes (p : MatchParameters) : Node → Node → Run Matchings
  | left@(.node _ ls), right => do
    MonadExcept.ofExcept left.checkPlain
    MonadExcept.ofExcept right.checkPlain
    match ← tryEquality p left right with
    | some ms => return ms
    | none =>
      let cells := matchChildren p ls right.children
      if isOrdered left right then alignChildren left right cells
      else pairChildren left right cells

def matchChildren (p : MatchParameters) : List Node → List Node → Run (List (List Matchings))
  | [], _ => return []
  | l :: ls, rs => do
    let row ← rs.mapM fun r => matchNodes p l r
    let rows ← matchChildren p ls rs
    return row :: rows

end

def matchOrdered (p : MatchParameters) (left right : Node) : Run Matchings := do
  MonadExcept.ofExcept left.checkPlain
  MonadExcept.ofExcept right.checkPlain
  alignChildren left right (matchChildren p left.children right.children)

def matchUnordered (p : MatchParameters) (left right : Node) : Run Matchings := do
  MonadExcept.ofExcept left.checkPlain
  MonadExcept.ofExcept right.checkPlain
  pairChildren left right (matchChildren p left.children right.children)

def reset : Run Unit :=
  set ({} : Dispatcher)

end Dispatcher

end TreeAlign
