import Std.Data.TreeMap
import TreeAlign.Failure
import TreeAlign.Random
import TreeAlign.Tree.Site

namespace TreeAlign

/-- The place of a floating-point number in the order of all of them, with `-0.0` before `0.0`. -/
def totalKey (x : Float32) : Int :=
  let bits := x.toBits.toNat
  let signBit := UInt32.size / 2
  if bits < signBit then bits else signBit - 1 - bits

structure Bounds (R : Type) where
  lower : R
  upper : R
deriving Repr

namespace Bounds

def compare (a b : Bounds Float32) : Ordering :=
  (Ord.compare (totalKey a.lower) (totalKey b.lower)).then
    (Ord.compare (totalKey a.upper) (totalKey b.upper))

end Bounds

structure Candidate where
  left : Option Site
  right : Option Site
  exact : Float32 := 0.0
  bounds : Bounds Float32 := ⟨0.0, 0.0⟩

namespace Candidate

abbrev Key := Option NodeId × Option NodeId

def key (c : Candidate) : Key :=
  (c.left.map Site.id, c.right.map Site.id)

def pair (left right : Site) : Candidate :=
  { left := some left, right := some right }

def isNoMatch (c : Candidate) : Bool :=
  c.left.isNone || c.right.isNone

def contains (c : Candidate) (id : NodeId) : Bool :=
  c.key.1 == some id || c.key.2 == some id

def other? (c : Candidate) (id : NodeId) : Option Site :=
  if c.key.1 == some id then c.right
  else if c.key.2 == some id then c.left
  else none

/-- Candidates with the same nodes are the same. -/
instance : BEq Candidate where
  beq a b := a.key == b.key

def conflicts (a b : Candidate) : Bool :=
  (a.key.1.isSome && a.key.1 == b.key.1) || (a.key.2.isSome && a.key.2 == b.key.2)

def text (c : Candidate) : String :=
  s!"({CoverFault.nodeText c.key.1}, {CoverFault.nodeText c.key.2})"

end Candidate

structure Candidates where
  left : Site
  right : Site
  entries : List Candidate

namespace Candidates

def empty (left right : Site) : Candidates :=
  ⟨left, right, []⟩

def size (cs : Candidates) : Nat :=
  cs.entries.length

def push (cs : Candidates) (c : Candidate) : Candidates :=
  { cs with entries := cs.entries ++ [c] }

def keys (cs : Candidates) : List Candidate.Key :=
  cs.entries.map Candidate.key

def allPairs (left right : Site) : List Candidate :=
  let lefts := left.breadthFirst.map some ++ [none]
  let rights := right.breadthFirst.map some ++ [none]
  lefts.flatMap fun l => rights.filterMap fun r =>
    if l.isSome || r.isSome then some { left := l, right := r } else none

def complete (left right : Site) (source : Random) : Candidates × Random :=
  let (entries, source) := source.shuffle (allPairs left right)
  (⟨left, right, entries⟩, source)

def sorted (cs : Candidates) : Candidates :=
  { cs with entries := cs.entries.mergeSort fun a b => (a.bounds.compare b.bounds).isLE }

/-- Removes every candidate in conflict with `c`, except `c` itself. -/
def prune (cs : Candidates) (c : Candidate) : Candidates :=
  { cs with entries := cs.entries.filter fun other => other == c || !other.conflicts c }

def images (cs : Candidates) : Std.TreeMap NodeId NodeId :=
  cs.entries.foldl (fun images c =>
    match c.left, c.right with
    | some l, some r => images.insert l.id r.id
    | _, _ => images) {}

def checkEntry (left right : Site) (seen : List NodeId × List NodeId) (c : Candidate) :
    Except CoverFault (List NodeId × List NodeId) := do
  if c.left.isNone && c.right.isNone then throw .withoutNode
  let seenLeft ←
    match c.left with
    | none => pure seen.1
    | some l =>
      if !left.contains l then throw (.outsideLeft l.id)
      else if seen.1.contains l.id then throw (.repeated l.id)
      else pure (l.id :: seen.1)
  let seenRight ←
    match c.right with
    | none => pure seen.2
    | some r =>
      if !right.contains r then throw (.outsideRight r.id)
      else if seen.2.contains r.id then throw (.repeated r.id)
      else pure (r.id :: seen.2)
  return (seenLeft, seenRight)

/-- Checks that every node of the two subtrees occurs exactly once. -/
def check (cs : Candidates) : Except CoverFault Unit := do
  let (seenLeft, seenRight) ← cs.entries.foldlM (checkEntry cs.left cs.right) ([], [])
  if seenLeft.length ≠ cs.left.size ∨ seenRight.length ≠ cs.right.size then
    throw (.uncovered seenLeft.length cs.left.size seenRight.length cs.right.size)

def text (cs : Candidates) : String :=
  "[" ++ ", ".intercalate (cs.entries.map Candidate.text) ++ "]"

end Candidates

end TreeAlign
