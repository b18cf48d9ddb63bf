
namespace TreeAlign.Json

/-- One element of a written string: a character, or a UTF-16 code unit given by its number. -/
inductive Piece where
  | char (c : Char)
  | unit (code : Nat)
deriving DecidableEq, Repr

abbrev Text := List Piece

namespace Text

def ofString (s : String) : Text :=
  s.toList.map .char

def isHigh (code : Nat) : Bool :=
  0xD800 ≤ code && code < 0xDC00

def isLow (code : Nat) : Bool :=
  0xDC00 ≤ code && code < 0xE000

def join (high low : Nat) : Char :=
  Char.ofNat (0x10000 + (high - 0xD800) * 0x400 + (low - 0xDC00))

/-- The characters denoted; none if a surrogate stands alone. -/
def chars? : Text → Option (List Char)
  | [] => some []
  | .char c :: rest => (chars? rest).map (c :: ·)
  | .unit code :: rest =>
    if isHigh code then
      match rest with
      | .unit low :: rest => if isLow low then (chars? rest).map (join code low :: ·) else none
      | _ => none
    else if isLow code then none
    else (chars? rest).map (Char.ofNat code :: ·)

def toString? (text : Text) : Option String :=
  text.chars?.map String.ofList

end Text

end TreeAlign.Json

namespace TreeAlign

inductive Json where
  | null
  | bool (value : Bool)
  | number (literal : String)
  | string (text : Json.Text)
  | array (items : List Json)
  | object (fields : List (Json.Text × Json))
deriving Repr

namespace Json

def ofString (s : String) : Json :=
  .string (Text.ofString s)

def ofNat (n : Nat) : Json :=
  .number (toString n)

def record (fields : List (String × Json)) : Json :=
  .object (fields.map fun (name, value) => (Text.ofString name, value))

def toBool? : Json → Option Bool
  | .bool value => some value
  | _ => none

def toString? : Json → Option String
  | .string text => text.toString?
  | _ => none

def toList? : Json → Option (List Json)
  | .array items => some items
  | _ => none

/-- Null is the absent value; anything else is read by `read`. -/
def toOption? {α : Type} (read : Json → Option α) : Json → Option (Option α)
  | .null => some none
  | value => (read value).map some

end TreeAlign.Json
