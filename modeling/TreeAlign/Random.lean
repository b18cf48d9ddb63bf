
namespace TreeAlign

structure Random where
  state : UInt64
deriving DecidableEq, Repr

namespace Random

/-- Zero is a fixed point of the shifts, so a zero seed is replaced by a fixed non-zero word. -/
def ofSeed (seed : UInt64) : Random :=
  ⟨if seed = 0 then 0x9E3779B97F4A7C15 else seed⟩

def advance (word : UInt64) : UInt64 :=
  let word := word ^^^ (word >>> 12)
  let word := word ^^^ (word <<< 25)
  word ^^^ (word >>> 27)

def multiplier : UInt64 := 0x2545F4914F6CDD1D

def next (source : Random) : UInt64 × Random :=
  let word := advance source.state
  (word * multiplier, ⟨word⟩)

/-- Uniform in `[0, 1)` with 53 binary places. -/
def unit (source : Random) : Float × Random :=
  let (word, source) := source.next
  ((word >>> 11).toFloat / (9007199254740992 : UInt64).toFloat, source)

def unit32 (source : Random) : Float32 × Random :=
  let (word, source) := source.next
  ((word >>> 40).toFloat32 / (16777216 : UInt64).toFloat32, source)

/-- Uniform below `bound`. A zero bound gives zero and draws nothing. -/
def below (bound : Nat) (source : Random) : Nat × Random :=
  if bound = 0 then (0, source)
  else
    let (word, source) := source.next
    (word.toNat % bound, source)

def chance (p : Float) (source : Random) : Bool × Random :=
  let (x, source) := source.unit
  (x < p, source)

def shuffleFrom {α : Type} : Nat → Array α → Random → Array α × Random
  | 0, items, source => (items, source)
  | i + 1, items, source =>
    let (j, source) := source.below (i + 2)
    shuffleFrom i (items.swapIfInBounds (i + 1) j) source

def shuffle {α : Type} (items : List α) (source : Random) : List α × Random :=
  let (shuffled, source) := shuffleFrom (items.length - 1) items.toArray source
  (shuffled.toList, source)

/-- A generator has fewer states than this, so a draw that has not succeeded in as many trials
never does. -/
def stateCount : Nat := UInt64.size

def geometricFrom (p : Float) : Nat → Nat → Random → Option (Nat × Random)
  | 0, _, _ => none
  | trials + 1, failures, source =>
    let (success, source) := source.chance p
    if success then some (failures, source) else geometricFrom p trials (failures + 1) source

/-- Failed trials before the first success, each succeeding with probability `p`; `none` if no trial
ever succeeds. -/
def geometric (p : Float) (source : Random) : Option (Nat × Random) :=
  if p ≥ 1.0 then some (0, source) else geometricFrom p stateCount 0 source

end Random

end TreeAlign
