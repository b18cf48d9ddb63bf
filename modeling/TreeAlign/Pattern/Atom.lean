import TreeAlign.Pattern.Basic
import TreeAlign.Pattern.Cursor

namespace TreeAlign.Pattern

inductive Atom where
  | letter (letter : Letter)
  | anchor
  | wordEdge
  | shorthand (isNegated : Bool)
deriving DecidableEq, Repr

def hexDigit? (c : Char) : Option Nat :=
  if c.isDigit then some (c.toNat - '0'.toNat)
  else if 'a' ≤ c && c ≤ 'f' then some (c.toNat - 'a'.toNat + 10)
  else if 'A' ≤ c && c ≤ 'F' then some (c.toNat - 'A'.toNat + 10)
  else none

def readHex (value : Nat) : Nat → Reader Nat
  | 0 => return value
  | digits + 1 => do
    Reader.skip
    match hexDigit? (← Reader.next) with
    | none => failure
    | some digit => readHex (16 * value + digit) digits

def readCode (digits : Nat) : Reader Char := do
  let code ← readHex 0 digits
  if code.isValidChar then return Char.ofNat code else failure

def controls : List (Char × Char) :=
  [('a', '\x07'), ('f', '\x0c'), ('t', '\t'), ('n', '\n'), ('r', '\r'), ('v', '\x0b')]

def isEscapable (c : Char) : Bool :=
  c.toNat < 128 && !c.isAlphanum && c != '<' && c != '>'

/-- Reads what follows a backslash. Classes by property and references to groups are none of it. -/
def readEscape : Reader Atom := do
  let c ← Reader.next
  if c == 'x' then return .letter { char := ← readCode 2, isByte := true }
  else if c == 'u' then return .letter (.plain (← readCode 4))
  else if c == 'U' then return .letter (.plain (← readCode 8))
  else if ['d', 's', 'w'].contains c then return .shorthand false
  else if ['D', 'S', 'W'].contains c then return .shorthand true
  else if ['A', 'z'].contains c then return .anchor
  else if ['b', 'B', '<', '>'].contains c then return .wordEdge
  else if isEscapable c then return .letter (.plain c)
  else
    match controls.lookup c with
    | some control => return .letter (.plain control)
    | none => failure

end TreeAlign.Pattern
