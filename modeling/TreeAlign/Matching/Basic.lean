import TreeAlign.Tree.Node

namespace TreeAlign

inductive Algorithm where
  | equality
  | ordered
  | unordered
  | costModel
deriving DecidableEq, Repr

namespace Algorithm

def name : Algorithm → String
  | .equality => "equality"
  | .ordered => "ordered"
  | .unordered => "unordered"
  | .costModel => "cost-model"

def ofName? : String → Option Algorithm
  | "equality" => some .equality
  | "ordered" => some .ordered
  | "unordered" => some .unordered
  | "cost-model" => some .costModel
  | _ => none

end Algorithm

inductive Color where
  | default
  | red
  | green
  | yellow
  | blue
deriving DecidableEq, Repr

namespace Color

def name : Color → String
  | .default => "default"
  | .red => "red"
  | .green => "green"
  | .yellow => "yellow"
  | .blue => "blue"

def ofName? : String → Option Color
  | "default" => some .default
  | "red" => some .red
  | "green" => some .green
  | "yellow" => some .yellow
  | "blue" => some .blue
  | _ => none

end Color

structure Duration where
  seconds : Nat
  nanoseconds : Nat
deriving DecidableEq, Repr

def Duration.zero : Duration := ⟨0, 0⟩

structure Matching where
  left : NodeId
  right : NodeId
  score : Nat
  algorithm : Algorithm
  color : Option Color := none
  runtime : Option Duration := none
  children : List Matching := []
deriving Repr

namespace Matching

def pair (m : Matching) : NodeId × NodeId :=
  (m.left, m.right)

def shallow (m : Matching) : Matching :=
  { m with children := [] }

def colored (m : Matching) (color : Color) : Matching :=
  { m with color := some color }

/-- Marks a matching as timed. Matching is a pure function, which takes no time to its caller. -/
def timed (m : Matching) : Matching :=
  { m with runtime := some .zero }

def contains (m : Matching) (id : NodeId) : Bool :=
  m.left == id || m.right == id

def other? (m : Matching) (id : NodeId) : Option NodeId :=
  if id = m.left then some m.right
  else if id = m.right then some m.left
  else none

def coverage (m : Matching) (leftSize rightSize : Nat) : Float :=
  let larger := max leftSize rightSize
  if larger = 0 then 0.0 else Float.ofNat m.score / Float.ofNat larger

def text (m : Matching) : String :=
  s!"({NodeId.text m.left}, {NodeId.text m.right}) = {m.score} [{m.algorithm.name}]"

end Matching

end TreeAlign
