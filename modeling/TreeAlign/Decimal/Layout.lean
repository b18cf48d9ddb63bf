import TreeAlign.Decimal.Digits

namespace TreeAlign.Decimal

structure Layout where
  tie : Tie
  /-- Whether numbers of this many digits before the point (zero or less: zeros after it) are written
  without an exponent. -/
  positional : Int → Bool
  keepPoint : Bool
  infinite : String
  notANumber : String

namespace Layout

def sign (negative : Bool) : String :=
  if negative then "-" else ""

def zeros (n : Nat) : String :=
  String.ofList (List.replicate n '0')

def withPoint (digits : String) (point : Int) (keepPoint : Bool) : String :=
  let count : Int := digits.length
  if point ≤ 0 then "0." ++ zeros (-point).toNat ++ digits
  else if count ≤ point then
    digits ++ zeros (point - count).toNat ++ if keepPoint then ".0" else ""
  else
    String.ofList (digits.toList.take point.toNat) ++ "." ++
      String.ofList (digits.toList.drop point.toNat)

def withExponent (digits : String) (point : Int) : String :=
  let exponent := point - 1
  let mantissa :=
    match digits.toList with
    | [] => ""
    | [d] => String.ofList [d]
    | d :: rest => String.ofList (d :: '.' :: rest)
  mantissa ++ "e" ++ (if exponent < 0 then "" else "+") ++ toString exponent

def text (layout : Layout) (x : Binary) : String :=
  match x.magnitude with
  | .infinite => sign x.negative ++ layout.infinite
  | .notANumber => layout.notANumber
  | .finite significand exponent =>
    let shortest := Decimal.shortest x.format layout.tie significand exponent
    let digits := toString shortest.digits
    let point : Int := digits.length + shortest.exponent
    sign x.negative ++
      if significand = 0 then (if layout.keepPoint then "0.0" else "0")
      else if layout.positional point then withPoint digits point layout.keepPoint
      else withExponent digits point

end Layout

def fixed (places : Nat) (x : Binary) : String :=
  match x.magnitude with
  | .infinite => Layout.sign x.negative ++ "inf"
  | .notANumber => "NaN"
  | .finite significand exponent =>
    let digits := toString (scaled .toEven places significand exponent)
    let digits := Layout.zeros (places + 1 - digits.length) ++ digits
    Layout.sign x.negative ++ Layout.withPoint digits (digits.length - places : Nat) false

def plain : Layout where
  tie := .up
  positional := fun _ => true
  keepPoint := false
  infinite := "inf"
  notANumber := "NaN"

end TreeAlign.Decimal
