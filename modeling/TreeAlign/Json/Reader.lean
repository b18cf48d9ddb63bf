import TreeAlign.Json.Token

namespace TreeAlign.Json

/-- A container read in part, latest items first. An object waits for the value of `name`. -/
inductive Frame where
  | array (items : List Json)
  | object (fields : List (Text × Json)) (name : Text)
deriving Repr

mutual

def readValue (stack : List Frame) : List Token → Option Json
  | .null :: rest => readRest .null stack rest
  | .bool value :: rest => readRest (.bool value) stack rest
  | .number literal :: rest => readRest (.number literal) stack rest
  | .string text :: rest => readRest (.string text) stack rest
  | .openArray :: .closeArray :: rest => readRest (.array []) stack rest
  | .openArray :: rest => readValue (.array [] :: stack) rest
  | .openObject :: .closeObject :: rest => readRest (.object []) stack rest
  | .openObject :: .string name :: .colon :: rest => readValue (.object [] name :: stack) rest
  | _ => none

def readRest (value : Json) (stack : List Frame) (tokens : List Token) : Option Json :=
  match stack, tokens with
  | [], [] => some value
  | .array items :: stack, .comma :: rest => readValue (.array (value :: items) :: stack) rest
  | .array items :: stack, .closeArray :: rest =>
    readRest (.array (value :: items).reverse) stack rest
  | .object fields name :: stack, .comma :: .string next :: .colon :: rest =>
    readValue (.object ((name, value) :: fields) next :: stack) rest
  | .object fields name :: stack, .closeObject :: rest =>
    readRest (.object ((name, value) :: fields).reverse) stack rest
  | _, _ => none

end

def parse? (text : String) : Option Json :=
  (tokens? text.toList).bind (readValue [])

end TreeAlign.Json
