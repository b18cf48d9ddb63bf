import TreeAlign.Pattern.Atom

namespace TreeAlign.Pattern

def Atom.toSet? : Atom → Option CharSet
  | .letter c => some (.letter c)
  | .shorthand isNegated => some (.shorthand isNegated)
  | .anchor | .wordEdge => none

def setNames : List String :=
  ["alnum", "alpha", "ascii", "blank", "cntrl", "digit", "graph", "lower", "print", "punct", "space", "upper",
    "word", "xdigit"]

def namedSet? : List Char → Option (Bool × List Char)
  | ':' :: text =>
    let isNegated := text.head? == some '^'
    let text := if isNegated then text.tail else text
    let name := String.ofList (text.takeWhile (· != ':'))
    match text.dropWhile (· != ':') with
    | ':' :: ']' :: rest => if setNames.contains name then some (isNegated, rest) else none
    | _ => none
  | _ => none

/-- What a hyphen is followed by. In a verbose pattern this looks over blanks and over one number sign, but
not over the comment after it. -/
def afterHyphen (isVerbose : Bool) (text : List Char) : Option Char :=
  if isVerbose then
    let ahead := text.dropWhile Text.isBlank
    let ahead := if ahead.head? == some '#' then ahead.tail.dropWhile Text.isBlank else ahead
    ahead.head? <|> text.head?
  else text.head?

def readMember : Reader Atom := do
  if ← Reader.take '\\' then readEscape
  else return .letter (.plain (← Reader.next))

def readRange : Reader CharSet := do
  let first ← readMember
  Reader.skip
  let cursor ← get
  match cursor.rest with
  | '-' :: text =>
    if [some ']', some '-'].contains (afterHyphen cursor.isVerbose text) then first.toSet?
    else do
      Reader.goTo text
      Reader.skip
      match first, ← readMember with
      | .letter first, .letter last => do
        if first.char ≤ last.char then return .range first last else failure
      | _, _ => failure
  | _ => first.toSet?

structure SetDraft where
  left : Option CharSet := none
  members : List CharSet := []
  isLeading : Bool := true

namespace SetDraft

def add (draft : SetDraft) (member : CharSet) : SetDraft :=
  { draft with members := member :: draft.members, isLeading := false }

def addHyphen (draft : SetDraft) : SetDraft :=
  { draft with members := .letter (.plain '-') :: draft.members }

def finish (draft : SetDraft) : CharSet :=
  let last := CharSet.ofMembers draft.members.reverse
  match draft.left with
  | none => last
  | some left => .operation left last

def operate (draft : SetDraft) : SetDraft where
  left := some draft.finish
  isLeading := false

end SetDraft

/-- Reads a set up to the bracket that closes it. A closing bracket that comes first is a member. Each step
reads a character at least, so that a step for every character suffices. -/
def readSet (draft : SetDraft) : Nat → Reader CharSet
  | 0 => failure
  | steps + 1 => do
    Reader.skip
    match (← get).rest with
    | [] => failure
    | c :: rest =>
      if draft.isLeading && c == '-' then do
        Reader.goTo rest
        readSet draft.addHyphen steps
      else if draft.isLeading && draft.members.isEmpty && c == ']' then do
        Reader.goTo rest
        readSet (draft.add (.letter (.plain ']'))) steps
      else if c == ']' then do
        Reader.goTo rest
        return draft.finish
      else if c == '[' then
        match namedSet? rest with
        | some (isNegated, rest) => do
          Reader.goTo rest
          readSet (draft.add (.named isNegated)) steps
        | none => do
          Reader.goTo rest
          Reader.skip
          let isNegated ← Reader.take '^'
          let body ← readSet {} steps
          readSet (draft.add (.bracket isNegated body)) steps
      else if ['&', '-', '~'].contains c && rest.head? == some c then do
        Reader.goTo rest.tail
        readSet draft.operate steps
      else do
        readSet (draft.add (← readRange)) steps

def readBracket : Reader Pattern := do
  Reader.skip
  let isNegated ← Reader.take '^'
  return .bracket isNegated (← readSet {} ((← get).rest.length + 1))

end TreeAlign.Pattern
