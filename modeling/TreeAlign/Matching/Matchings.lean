import TreeAlign.Matching.Basic

namespace TreeAlign

structure Matchings where
  entries : List Matching
deriving Repr

namespace Matchings

def empty : Matchings := ⟨[]⟩

def get? (ms : Matchings) (left right : NodeId) : Option Matching :=
  ms.entries.find? fun m => m.left == left && m.right == right

def byLeft? (ms : Matchings) (left : NodeId) : Option Matching :=
  ms.entries.find? (·.left == left)

def byRight? (ms : Matchings) (right : NodeId) : Option Matching :=
  ms.entries.find? (·.right == right)

def size (ms : Matchings) : Nat :=
  ms.entries.length

def isEmpty (ms : Matchings) : Bool :=
  ms.entries.isEmpty

def add (ms : Matchings) (m : Matching) : Matchings :=
  if (ms.get? m.left m.right).isSome then ms else ⟨ms.entries ++ [m]⟩

def addAll (ms : Matchings) (more : List Matching) : Matchings :=
  more.foldl add ms

def union (ms more : Matchings) : Matchings :=
  ms.addAll more.entries

def ofList (entries : List Matching) : Matchings :=
  empty.addAll entries

def single (m : Matching) : Matchings :=
  ⟨[m]⟩

def scoreOf (ms : Matchings) (left right : NodeId) : Nat :=
  match ms.get? left right with
  | some m => m.score
  | none => 0

/-- Takes matchings in the given order as long as neither end is taken. -/
def takeFree (taken : List Matching) : List Matching → List Matching
  | [] => taken.reverse
  | m :: rest =>
    if taken.any fun t => t.left == m.left || t.right == m.right then takeFree taken rest
    else takeFree (m.shallow :: taken) rest

/-- A consistent part of the set: positively scored matchings, best first and earlier ones first
among equals, as long as neither end is taken. -/
def optimized (ms : Matchings) : Matchings :=
  let positive := ms.entries.filter (0 < ·.score)
  ⟨takeFree [] (positive.mergeSort fun a b => decide (b.score ≤ a.score))⟩

end Matchings

end TreeAlign
