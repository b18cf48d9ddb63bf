import TreeAlign.Json.Basic
import TreeAlign.Decimal.Layout

namespace TreeAlign.Json

def hexDigit (n : Nat) : Char :=
  if n < 10 then Char.ofNat ('0'.toNat + n) else Char.ofNat ('a'.toNat + (n - 10))

def hex4 (n : Nat) : List Char :=
  [hexDigit (n / 4096 % 16), hexDigit (n / 256 % 16), hexDigit (n / 16 % 16), hexDigit (n % 16)]

def escapeChar (c : Char) : List Char :=
  if c = '"' then ['\\', '"']
  else if c = '\\' then ['\\', '\\']
  else if c = '\x08' then ['\\', 'b']
  else if c = '\x0c' then ['\\', 'f']
  else if c = '\n' then ['\\', 'n']
  else if c = '\r' then ['\\', 'r']
  else if c = '\t' then ['\\', 't']
  else if c.toNat < 0x20 then '\\' :: 'u' :: hex4 c.toNat
  else [c]

def escapePiece : Piece → List Char
  | .char c => escapeChar c
  | .unit code => '\\' :: 'u' :: hex4 code

def quote (text : Text) : String :=
  "\"" ++ String.ofList (text.flatMap escapePiece) ++ "\""

def newline (depth : Nat) : String :=
  "\n" ++ String.ofList (List.replicate (2 * depth) ' ')

mutual

def printAt (depth : Nat) : Json → String
  | .null => "null"
  | .bool value => if value then "true" else "false"
  | .number literal => literal
  | .string text => quote text
  | .array [] => "[]"
  | .array (item :: items) =>
    "[" ++ newline (depth + 1) ++ printAt (depth + 1) item ++ printItems (depth + 1) items ++
      newline depth ++ "]"
  | .object [] => "\x7b\x7d"
  | .object ((name, value) :: fields) =>
    "\x7b" ++ newline (depth + 1) ++ quote name ++ ": " ++ printAt (depth + 1) value ++
      printFields (depth + 1) fields ++ newline depth ++ "\x7d"

def printItems (depth : Nat) : List Json → String
  | [] => ""
  | item :: items => "," ++ newline depth ++ printAt depth item ++ printItems depth items

def printFields (depth : Nat) : List (Text × Json) → String
  | [] => ""
  | (name, value) :: fields =>
    "," ++ newline depth ++ quote name ++ ": " ++ printAt depth value ++ printFields depth fields

end

def print (json : Json) : String :=
  printAt 0 json

/-- Numbers are written without exponent if the digit before the point has one of the places
`least`, …, `greatest`; whole ones end in `.0`, and a half goes to the even digit. -/
def numberLayout (least greatest : Int) : Decimal.Layout where
  tie := .toEven
  positional := fun point => least ≤ point && point ≤ greatest
  keepPoint := true
  infinite := ""
  notANumber := ""

def ofBinary (layout : Decimal.Layout) (x : Decimal.Binary) : Json :=
  match x.magnitude with
  | .finite _ _ => .number (layout.text x)
  | _ => .null

def ofFloat (x : Float) : Json :=
  ofBinary (numberLayout (-4) 16) (.ofFloat x)

def ofFloat32 (x : Float32) : Json :=
  ofBinary (numberLayout (-5) 13) (.ofFloat32 x)

end TreeAlign.Json
