import TreeAlign.Decimal.Layout

namespace TreeAlign

structure CostWeights where
  rename : Float32 := 1.0
  noMatch : Float32 := 1.0
  ancestry : Float32 := 1.0
  siblings : Float32 := 1.0
  ordering : Float32 := 1.0
deriving Repr

structure SearchParameters where
  iterations : Nat := 100
  parallel : Bool := false
  seed : UInt64 := 42
  /-- Inverse temperature of the acceptance probability. -/
  beta : Float := 30.0
  assignProbability : Float := 0.7
  /-- Least and greatest share of the candidates kept from one iteration to the next. -/
  keepLower : Float := 0.25
  keepUpper : Float := 0.5
  /-- Keep a random share of the candidates, or else a random number of the cheapest. -/
  keepRandomShare : Bool := true
  weights : CostWeights := {}
deriving Repr

structure MatchParameters where
  useEquality : Bool := true
  /-- Do not try again a pair that is known to differ. -/
  skipKnownUnequal : Bool := true
  useSearch : Bool := false
  keepOnSearchFailure : Bool := true
  search : SearchParameters := {}
deriving Repr

inductive ParameterFault where
  | probability (value : Float)
  | share (name : String) (value : Float)
  | crossedShares (lower upper : Float)
  | temperature (value : Float)
  | weight (name : String) (value : Float32)
deriving Repr

namespace ParameterFault

def name : ParameterFault → String
  | .probability _ => "p_assign"
  | .share name _ => name
  | .crossedShares _ _ => "fix_lower"
  | .temperature _ => "beta"
  | .weight name _ => name

def reason : ParameterFault → String
  | .probability value => Decimal.plain.text (.ofFloat value) ++ " is not in (0, 1]"
  | .share _ value => Decimal.plain.text (.ofFloat value) ++ " is not in [0, 1]"
  | .crossedShares lower upper =>
    Decimal.plain.text (.ofFloat lower) ++ " exceeds fix_upper " ++
      Decimal.plain.text (.ofFloat upper)
  | .temperature value =>
    Decimal.plain.text (.ofFloat value) ++ " is not a finite non-negative number"
  | .weight _ value =>
    Decimal.plain.text (.ofFloat32 value) ++ " is not a finite non-negative weight"

def message (fault : ParameterFault) : String :=
  s!"invalid parameter `{fault.name}`: {fault.reason}"

end ParameterFault

namespace SearchParameters

def isShare (x : Float) : Bool :=
  0.0 ≤ x && x ≤ 1.0

def isWeight (x : Float32) : Bool :=
  x.isFinite && !(x < 0.0)

def shares (p : SearchParameters) : List (String × Float) :=
  [("fix_lower", p.keepLower), ("fix_upper", p.keepUpper)]

def namedWeights (p : SearchParameters) : List (String × Float32) :=
  [("wr", p.weights.rename), ("wn", p.weights.noMatch), ("wa", p.weights.ancestry),
    ("ws", p.weights.siblings), ("wo", p.weights.ordering)]

def fault? (p : SearchParameters) : Option ParameterFault :=
  if !(0.0 < p.assignProbability && p.assignProbability ≤ 1.0) then
    some (.probability p.assignProbability)
  else
    match p.shares.find? fun (_, value) => !isShare value with
    | some (name, value) => some (.share name value)
    | none =>
      if p.keepLower > p.keepUpper then some (.crossedShares p.keepLower p.keepUpper)
      else if !p.beta.isFinite || p.beta < 0.0 then some (.temperature p.beta)
      else
        match p.namedWeights.find? fun (_, weight) => !isWeight weight with
        | some (name, weight) => some (.weight name weight)
        | none => none

end SearchParameters

end TreeAlign
