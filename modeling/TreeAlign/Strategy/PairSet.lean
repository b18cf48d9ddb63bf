import Std.Data.TreeSet
import TreeAlign.Tree.Node

namespace TreeAlign

/-- Pairs are kept with the smaller identity first. -/
structure PairSet where
  pairs : Std.TreeSet (NodeId × NodeId) (compareLex (compareOn Prod.fst) (compareOn Prod.snd))

namespace PairSet

def empty : PairSet := ⟨{}⟩

def key (a b : NodeId) : NodeId × NodeId :=
  if a ≤ b then (a, b) else (b, a)

def contains (set : PairSet) (a b : NodeId) : Bool :=
  set.pairs.contains (key a b)

def insert (set : PairSet) (a b : NodeId) : PairSet :=
  ⟨set.pairs.insert (key a b)⟩

def size (set : PairSet) : Nat :=
  set.pairs.size

end PairSet

end TreeAlign
