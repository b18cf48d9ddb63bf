import TreeAlign.Decimal.Binary

namespace TreeAlign.Decimal

inductive Tie where
  | toEven
  | up
deriving DecidableEq, Repr

def roundDiv (tie : Tie) (numerator denominator : Nat) : Nat :=
  let quotient := numerator / denominator
  let twice := 2 * (numerator % denominator)
  if twice < denominator then quotient
  else if twice > denominator then quotient + 1
  else
    match tie with
    | .toEven => if quotient % 2 = 0 then quotient else quotient + 1
    | .up => quotient + 1

structure Digits where
  digits : Nat
  exponent : Int
deriving DecidableEq, Repr

structure Interval where
  low : Nat
  value : Nat
  high : Nat
  closed : Bool
  denominator : Nat
deriving DecidableEq, Repr

namespace Interval

/-- The reals nearest to `significand * 2 ^ exponent`; the ends belong to it if the significand is
even. Below a power of two the next number is half as far. -/
def around (format : Format) (significand : Nat) (exponent : Int) : Interval :=
  let narrow := significand = Nat.pow 2 (format.precision - 1) ∧ exponent ≠ format.leastExponent
  let shift := exponent - 2
  let scale := Nat.pow 2 shift.toNat
  { low := (4 * significand - if narrow then 1 else 2) * scale
    value := 4 * significand * scale
    high := (4 * significand + 2) * scale
    closed := significand % 2 = 0
    denominator := Nat.pow 2 (-shift).toNat }

def contains (interval : Interval) (numerator denominator : Nat) : Bool :=
  let low := interval.low * denominator
  let high := interval.high * denominator
  if interval.closed then low ≤ numerator && numerator ≤ high
  else low < numerator && numerator < high

def onGrid? (interval : Interval) (tie : Tie) (exponent : Int) : Option Digits :=
  let up := Nat.pow 10 exponent.toNat * interval.denominator
  let down := Nat.pow 10 (-exponent).toNat
  let value := interval.value * down
  let below := value / up
  let nearest := roundDiv tie value up
  let other := if nearest = below then below + 1 else below
  if interval.contains (nearest * up) down then some ⟨nearest, exponent⟩
  else if interval.contains (other * up) down then some ⟨other, exponent⟩
  else none

end Interval

def firstGrid (interval : Interval) (tie : Tie) : Nat → Int → Option Digits
  | 0, _ => none
  | tries + 1, exponent =>
    match interval.onGrid? tie exponent with
    | some digits => some digits
    | none => firstGrid interval tie tries (exponent - 1)

/-- A power of ten above `2 ^ bits`, at most a hundredfold of what is needed. -/
def decimalBound (bits : Int) : Int :=
  (bits * 1233).fdiv 4096 + 2

/-- The fewest digits that lie nearer to `significand * 2 ^ exponent` than to any other number of the
format, and among these the nearest. -/
def shortest (format : Format) (tie : Tie) (significand : Nat) (exponent : Int) : Digits :=
  if significand = 0 then ⟨0, 0⟩
  else
    let interval := Interval.around format significand exponent
    let top := decimalBound (exponent + (significand.log2 + 1 : Nat))
    (firstGrid interval tie (format.precision / 3 + 6) top).getD ⟨0, 0⟩

def scaled (tie : Tie) (places significand : Nat) (exponent : Int) : Nat :=
  roundDiv tie (significand * Nat.pow 2 exponent.toNat * Nat.pow 10 places) (Nat.pow 2 (-exponent).toNat)

end TreeAlign.Decimal
