
namespace TreeAlign.Json

structure Numeral where
  negative : Bool
  whole : List Nat
  fraction : Option (List Nat)
  exponent : Option Int
deriving DecidableEq, Repr

namespace Numeral

def digitValue (c : Char) : Nat :=
  c.toNat - '0'.toNat

def takeDigits (cs : List Char) : Option (List Nat × List Char) :=
  match cs.span Char.isDigit with
  | ([], _) => none
  | (digits, rest) => some (digits.map digitValue, rest)

def ofDigits (digits : List Nat) : Nat :=
  digits.foldl (fun n d => n * 10 + d) 0

def takeWhole (cs : List Char) : Option (List Nat × List Char) := do
  let (digits, rest) ← takeDigits cs
  if digits.head? = some 0 ∧ digits.length ≠ 1 then none else some (digits, rest)

def takeFraction : List Char → Option (Option (List Nat) × List Char)
  | '.' :: rest => (takeDigits rest).map fun (digits, rest) => (some digits, rest)
  | rest => some (none, rest)

def takeExponent : List Char → Option (Option Int × List Char)
  | [] => some (none, [])
  | c :: rest =>
    if c = 'e' ∨ c = 'E' then
      let (sign, rest) : Int × List Char :=
        match rest with
        | '-' :: rest => (-1, rest)
        | '+' :: rest => (1, rest)
        | rest => (1, rest)
      (takeDigits rest).map fun (digits, rest) => (some (sign * ofDigits digits), rest)
    else some (none, c :: rest)

def ofLiteral? (literal : String) : Option Numeral := do
  let (negative, cs) :=
    match literal.toList with
    | '-' :: rest => (true, rest)
    | cs => (false, cs)
  let (whole, cs) ← takeWhole cs
  let (fraction, cs) ← takeFraction cs
  let (exponent, cs) ← takeExponent cs
  if cs.isEmpty then some { negative, whole, fraction, exponent } else none

def wordLimit : Nat := UInt64.size

def isInteger (numeral : Numeral) : Bool :=
  numeral.fraction.isNone && numeral.exponent.isNone

def toNat? (numeral : Numeral) : Option Nat :=
  let value := ofDigits numeral.whole
  if numeral.isInteger && !numeral.negative && value < wordLimit then some value else none

/-- Leading digits kept as a 64-bit significand, with the power of ten it still has to be scaled by.
Once a digit does not fit, the later ones of the same part are dropped. -/
structure Significand where
  value : Nat
  scale : Int
  full : Bool

namespace Significand

def pushWhole (s : Significand) (digit : Nat) : Significand :=
  if s.full || s.value * 10 + digit ≥ wordLimit then { s with scale := s.scale + 1, full := true }
  else { s with value := s.value * 10 + digit }

def pushFraction (s : Significand) (digit : Nat) : Significand :=
  if s.full || s.value * 10 + digit ≥ wordLimit then { s with full := true }
  else { s with value := s.value * 10 + digit, scale := s.scale - 1 }

end Significand

def significand (numeral : Numeral) : Significand :=
  let whole := numeral.whole.foldl Significand.pushWhole ⟨0, 0, false⟩
  let all := (numeral.fraction.getD []).foldl Significand.pushFraction { whole with full := false }
  { all with scale := all.scale + numeral.exponent.getD 0 }

def largestPower : Nat := 308

def power (k : Nat) : Float :=
  Float.ofScientific 1 false k

/-- Divides by a power of ten, in steps where it is too large for one. -/
def scaleDown : Nat → Float → Nat → Float
  | 0, _, _ => 0.0
  | steps + 1, x, k =>
    if k ≤ largestPower then x / power k else scaleDown steps (x / power largestPower) (k - largestPower)

def scaleBy (x : Float) (scale : Int) : Option Float :=
  if x == 0.0 then some x
  else if 0 ≤ scale then
    if scale.toNat ≤ largestPower then
      let y := x * power scale.toNat
      if y.isInf then none else some y
    else none
  else some (scaleDown 3 x (-scale).toNat)

def toFloat? (numeral : Numeral) : Option Float := do
  let s := numeral.significand
  let magnitude ← scaleBy (Float.ofNat s.value) s.scale
  return if numeral.negative then -magnitude else magnitude

/-- The number read in 32-bit floating point. Integers of 64 bits are rounded once, all others go
through 64-bit floating point. -/
def toFloat32? (numeral : Numeral) : Option Float32 :=
  let value := ofDigits numeral.whole
  if numeral.isInteger && !numeral.negative && value < wordLimit then some (Float32.ofNat value)
  else if numeral.isInteger && numeral.negative && 0 < value && value ≤ wordLimit / 2 then
    some (-(Float32.ofNat value))
  else numeral.toFloat?.map Float.toFloat32

end Numeral

end TreeAlign.Json
