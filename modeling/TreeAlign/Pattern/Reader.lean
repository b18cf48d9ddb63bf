import TreeAlign.Pattern.Bracket
import TreeAlign.Pattern.Group

namespace TreeAlign.Pattern

def Atom.toPattern : Atom → Pattern
  | .letter c => .letter c
  | .anchor => .anchor
  | .wordEdge => .wordEdge
  | .shorthand isNegated => .shorthand isNegated

structure Draft where
  branches : List Pattern := []
  parts : List Pattern := []

namespace Draft

def add (draft : Draft) (part : Pattern) : Draft :=
  { draft with parts := part :: draft.parts }

def repeated? (draft : Draft) : Option Draft :=
  match draft.parts with
  | [] | .flags _ :: _ => none
  | part :: rest => some { draft with parts := .repetition part :: rest }

def branch (draft : Draft) : Pattern :=
  .ofParts draft.parts.reverse

def split (draft : Draft) : Draft where
  branches := draft.branch :: draft.branches

def finish (draft : Draft) : Pattern :=
  match draft.branches with
  | [] => draft.branch
  | branches => .alternation (draft.branch :: branches).reverse

end Draft

def readAtom : Reader Pattern := do
  match ← Reader.next with
  | '\\' => return (← readEscape).toPattern
  | '.' => return .dot
  | '^' | '$' => return .anchor
  | c => return .letter (.plain c)

/-- Reads up to the parenthesis that closes a group, or to the end. The flags that a group changes are put
back after it. Each step reads a character at least, so that a step for every character suffices. -/
def readBody (draft : Draft) : Nat → Reader Draft
  | 0 => failure
  | steps + 1 => do
    Reader.skip
    match (← get).rest with
    | [] | ')' :: _ => return draft
    | '\x7b' :: _ => failure
    | '(' :: rest => do
      Reader.goTo rest
      let opening ← readOpening
      let isVerbose := (← get).isVerbose
      match opening with
      | .flags change => do
        Reader.setVerbose (change.apply .verbose isVerbose)
        readBody (draft.add (.flags change)) steps
      | .group change => do
        Reader.setVerbose (change.apply .verbose isVerbose)
        let body ← readBody {} steps
        if !(← Reader.take ')') then failure
        Reader.setVerbose isVerbose
        readBody (draft.add (.group change body.finish)) steps
    | '|' :: rest => do
      Reader.goTo rest
      readBody draft.split steps
    | '[' :: rest => do
      Reader.goTo rest
      readBody (draft.add (← readBracket)) steps
    | '?' :: rest | '*' :: rest | '+' :: rest => do
      Reader.goTo rest
      let _ ← Reader.take '?'
      readBody (← draft.repeated?) steps
    | _ => do
      readBody (draft.add (← readAtom)) steps

def maxDepth : Nat := 250

def read? (text : String) : Option Pattern := do
  let (draft, cursor) ← (readBody {} (text.length + 1)).run { rest := text.toList }
  let pattern := draft.finish
  if cursor.rest.isEmpty && pattern.depth ≤ maxDepth then return pattern else failure

end TreeAlign.Pattern
