
namespace TreeAlign.Decimal

/-- A binary interchange format: bits of precision, counting the leading one, and exponent bits. -/
structure Format where
  precision : Nat
  exponentBits : Nat
deriving DecidableEq, Repr

namespace Format

def single : Format := ⟨24, 8⟩
def double : Format := ⟨53, 11⟩

def leastExponent (format : Format) : Int :=
  3 - (Nat.pow 2 (format.exponentBits - 1)) - format.precision

end Format

inductive Magnitude where
  | finite (significand : Nat) (exponent : Int)
  | infinite
  | notANumber
deriving DecidableEq, Repr

structure Binary where
  format : Format
  negative : Bool
  magnitude : Magnitude
deriving DecidableEq, Repr

namespace Binary

def ofBits (format : Format) (bits : Nat) : Binary :=
  let hidden := Nat.pow 2 (format.precision - 1)
  let exponents := Nat.pow 2 format.exponentBits
  let fraction := bits % hidden
  let biased := bits / hidden % exponents
  let negative := bits / hidden / exponents % 2 == 1
  let magnitude :=
    if biased + 1 = exponents then
      if fraction = 0 then .infinite else .notANumber
    else if biased = 0 then .finite fraction format.leastExponent
    else .finite (hidden + fraction) (format.leastExponent + (biased - 1 : Nat))
  { format, negative, magnitude }

def ofFloat (x : Float) : Binary :=
  ofBits .double x.toBits.toNat

def ofFloat32 (x : Float32) : Binary :=
  ofBits .single x.toBits.toNat

end Binary

end TreeAlign.Decimal
