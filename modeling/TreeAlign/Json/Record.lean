import TreeAlign.Json.Basic
import TreeAlign.Json.Numeral

namespace TreeAlign.Json

def levelLimit : Nat := 127

def namedFields? (fields : List (Text × Json)) : Option (List (String × Json)) :=
  fields.mapM fun (name, value) => name.toString?.map (·, value)

/-- The values of the given fields, in order. A given field may occur once only, and an array may not
have more items than there are fields. -/
def fields? (names : List String) : Json → Option (List (Option Json))
  | .array items =>
    if items.length ≤ names.length then
      some (items.map some ++ List.replicate (names.length - items.length) none)
    else none
  | .object fields => do
    let fields ← namedFields? fields
    names.mapM fun name =>
      match fields.filter (·.1 == name) with
      | [] => some none
      | [(_, value)] => some (some value)
      | _ => none
  | _ => none

def fieldOr {α : Type} (default : α) (read : Json → Option α) : Option Json → Option α
  | none => some default
  | some value => read value

/-- One of several names, written as a string or as an object with that name and null. -/
def toName? {α : Type} (ofName? : String → Option α) : Json → Option α
  | .string text => text.toString?.bind ofName?
  | .object [(text, .null)] => text.toString?.bind ofName?
  | _ => none

def numeral? : Json → Option Numeral
  | .number literal => Numeral.ofLiteral? literal
  | _ => none

def toNat? (json : Json) : Option Nat :=
  json.numeral?.bind Numeral.toNat?

def toFloat? (json : Json) : Option Float :=
  json.numeral?.bind Numeral.toFloat?

def toFloat32? (json : Json) : Option Float32 :=
  json.numeral?.bind Numeral.toFloat32?

end TreeAlign.Json
