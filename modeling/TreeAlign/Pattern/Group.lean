import TreeAlign.Pattern.Basic
import TreeAlign.Pattern.Cursor
import TreeAlign.Text.Alphanumeric

namespace TreeAlign.Pattern

inductive Opening where
  | group (change : FlagChange)
  | flags (change : FlagChange)
deriving DecidableEq, Repr

/-- Flags by their letters. Those after a hyphen are taken off. No letter and no hyphen comes twice, and the
hyphen is not the last. -/
def flagChange? (letters : List Char) : Option FlagChange := do
  if letters.eraseDups.length != letters.length || letters.getLast? == some '-' then failure
  let off := (letters.dropWhile (· != '-')).drop 1
  return {
    on := ← (letters.takeWhile (· != '-')).mapM Flag.ofChar?
    off := ← off.mapM Flag.ofChar? }

def readFlags : Reader Opening := do
  let text := (← get).rest
  let isFlag (c : Char) : Bool := c != ':' && c != ')'
  let letters := text.takeWhile isFlag
  let change ← flagChange? letters
  match text.dropWhile isFlag with
  | ':' :: rest => do
    Reader.goTo rest
    return .group change
  | ')' :: rest => do
    if letters.isEmpty then failure
    Reader.goTo rest
    return .flags change
  | _ => failure

def isGroupName : List Char → Bool
  | [] => false
  | c :: rest =>
    (c == '_' || Text.isAlphabetic c) &&
      rest.all fun c => ['_', '.', '[', ']'].contains c || Text.isAlphanumeric c

def readName : Reader Opening := do
  let cursor ← get
  let name := cursor.rest.takeWhile (· != '>')
  match cursor.rest.dropWhile (· != '>') with
  | [] => failure
  | _ :: rest =>
    if isGroupName name && !cursor.groupNames.contains name then do
      set { cursor with rest, groupNames := name :: cursor.groupNames }
      return .group {}
    else failure

def readOpening : Reader Opening := do
  Reader.skip
  match (← get).rest with
  | '?' :: 'P' :: '<' :: rest | '?' :: '<' :: rest => do
    Reader.goTo rest
    readName
  | '?' :: rest => do
    Reader.goTo rest
    readFlags
  | _ => return .group {}

end TreeAlign.Pattern
