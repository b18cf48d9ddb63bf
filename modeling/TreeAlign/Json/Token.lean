import TreeAlign.Json.Basic
import TreeAlign.Json.Numeral

namespace TreeAlign.Json

inductive Token where
  | openObject
  | closeObject
  | openArray
  | closeArray
  | comma
  | colon
  | null
  | bool (value : Bool)
  | number (literal : String)
  | string (text : Text)
deriving DecidableEq, Repr

namespace Scan

/-- What the scanner is inside of; lists of characters and pieces hold the latest first. -/
inductive Mode where
  | between
  | word (letters : List Char)
  | number (chars : List Char)
  | string (pieces : Text)
  | escape (pieces : Text)
  | unit (pieces : Text) (digits : List Nat)
deriving DecidableEq, Repr

structure State where
  mode : Mode
  found : List Token
deriving DecidableEq, Repr

def start : State := ⟨.between, []⟩

def State.emit (state : State) (token : Token) : State :=
  ⟨.between, token :: state.found⟩

def isBlank (c : Char) : Bool :=
  c = ' ' || c = '\t' || c = '\n' || c = '\r'

def isNumberChar (c : Char) : Bool :=
  c.isDigit || c = '-' || c = '+' || c = '.' || c = 'e' || c = 'E'

def isWordChar (c : Char) : Bool :=
  'a' ≤ c && c ≤ 'z'

def word? : List Char → Option Token
  | ['n', 'u', 'l', 'l'] => some .null
  | ['t', 'r', 'u', 'e'] => some (.bool true)
  | ['f', 'a', 'l', 's', 'e'] => some (.bool false)
  | _ => none

def number? (chars : List Char) : Option Token :=
  let literal := String.ofList chars
  (Numeral.ofLiteral? literal).map fun _ => .number literal

def mark? : Char → Option Token
  | '\x7b' => some .openObject
  | '\x7d' => some .closeObject
  | '[' => some .openArray
  | ']' => some .closeArray
  | ',' => some .comma
  | ':' => some .colon
  | _ => none

def between (found : List Token) (c : Char) : Option State :=
  if isBlank c then some ⟨.between, found⟩
  else if c = '"' then some ⟨.string [], found⟩
  else if c.isDigit || c = '-' then some ⟨.number [c], found⟩
  else if isWordChar c then some ⟨.word [c], found⟩
  else (mark? c).map fun token => ⟨.between, token :: found⟩

def escaped? : Char → Option Char
  | '"' => some '"'
  | '\\' => some '\\'
  | '/' => some '/'
  | 'b' => some '\x08'
  | 'f' => some '\x0c'
  | 'n' => some '\n'
  | 'r' => some '\r'
  | 't' => some '\t'
  | _ => none

def hexValue? (c : Char) : Option Nat :=
  if c.isDigit then some (c.toNat - '0'.toNat)
  else if 'a' ≤ c && c ≤ 'f' then some (c.toNat - 'a'.toNat + 10)
  else if 'A' ≤ c && c ≤ 'F' then some (c.toNat - 'A'.toNat + 10)
  else none

def unitOf : List Nat → Nat
  | [] => 0
  | digit :: earlier => unitOf earlier * 16 + digit

def step (state : State) (c : Char) : Option State :=
  match state.mode with
  | .between => between state.found c
  | .word letters =>
    if isWordChar c then some { state with mode := .word (c :: letters) }
    else (word? letters.reverse).bind fun token => between (token :: state.found) c
  | .number chars =>
    if isNumberChar c then some { state with mode := .number (c :: chars) }
    else (number? chars.reverse).bind fun token => between (token :: state.found) c
  | .string pieces =>
    if c = '"' then some (state.emit (.string pieces.reverse))
    else if c = '\\' then some { state with mode := .escape pieces }
    else if c.toNat < 0x20 then none
    else some { state with mode := .string (.char c :: pieces) }
  | .escape pieces =>
    if c = 'u' then some { state with mode := .unit pieces [] }
    else (escaped? c).map fun c => { state with mode := .string (.char c :: pieces) }
  | .unit pieces digits =>
    (hexValue? c).map fun digit =>
      let digits := digit :: digits
      if digits.length = 4 then { state with mode := .string (.unit (unitOf digits) :: pieces) }
      else { state with mode := .unit pieces digits }

def finish (state : State) : Option (List Token) :=
  match state.mode with
  | .between => some state.found.reverse
  | .word letters => (word? letters.reverse).map fun token => (token :: state.found).reverse
  | .number chars => (number? chars.reverse).map fun token => (token :: state.found).reverse
  | _ => none

end Scan

def tokens? (text : List Char) : Option (List Token) :=
  (text.foldlM Scan.step Scan.start).bind Scan.finish

end TreeAlign.Json
