import TreeAlign.Text.Blank

namespace TreeAlign.Pattern

structure Cursor where
  rest : List Char
  isVerbose : Bool := false
  groupNames : List (List Char) := []

abbrev Reader := StateT Cursor Option

/-- A text after the blanks and comments it starts with. A comment ends with its line. -/
def skipBlanks (inComment : Bool) : List Char → List Char
  | [] => []
  | c :: rest =>
    if inComment then skipBlanks (c != '\n') rest
    else if c == '#' then skipBlanks true rest
    else if Text.isBlank c then skipBlanks false rest
    else c :: rest

namespace Reader

def peek? : Reader (Option Char) :=
  return (← get).rest.head?

def goTo (rest : List Char) : Reader Unit :=
  modify fun cursor => { cursor with rest }

def setVerbose (isVerbose : Bool) : Reader Unit :=
  modify fun cursor => { cursor with isVerbose }

def next : Reader Char := do
  match (← get).rest with
  | [] => failure
  | c :: rest => do goTo rest; return c

def skip : Reader Unit := do
  let cursor ← get
  if cursor.isVerbose then goTo (skipBlanks false cursor.rest)

def take (c : Char) : Reader Bool := do
  if (← peek?) == some c then do let _ ← next; return true
  else return false

end Reader

end TreeAlign.Pattern
