
namespace TreeAlign

structure Letter where
  char : Char
  isByte : Bool := false
deriving DecidableEq, Repr

def Letter.plain (c : Char) : Letter where
  char := c

inductive CharSet where
  | empty
  | letter (letter : Letter)
  | range (first last : Letter)
  | named (isNegated : Bool)
  | shorthand (isNegated : Bool)
  | bracket (isNegated : Bool) (body : CharSet)
  | union (members : List CharSet)
  | operation (left right : CharSet)
deriving Repr

inductive Flag where
  | ignoreCase
  | multiLine
  | dotMatchesAll
  | swapGreed
  | unicode
  | lineEndings
  | verbose
deriving DecidableEq, Repr

def Flag.ofChar? : Char → Option Flag
  | 'i' => some .ignoreCase
  | 'm' => some .multiLine
  | 's' => some .dotMatchesAll
  | 'U' => some .swapGreed
  | 'u' => some .unicode
  | 'R' => some .lineEndings
  | 'x' => some .verbose
  | _ => none

structure FlagChange where
  on : List Flag := []
  off : List Flag := []
deriving DecidableEq, Repr

def FlagChange.apply (change : FlagChange) (flag : Flag) (before : Bool) : Bool :=
  if change.on.contains flag then true
  else if change.off.contains flag then false
  else before

inductive Pattern where
  | empty
  /-- Changes flags up to the end of the group around it. -/
  | flags (change : FlagChange)
  | letter (letter : Letter)
  | dot
  | anchor
  | wordEdge
  | shorthand (isNegated : Bool)
  | bracket (isNegated : Bool) (body : CharSet)
  | repetition (body : Pattern)
  | group (change : FlagChange) (body : Pattern)
  | alternation (branches : List Pattern)
  | sequence (parts : List Pattern)
deriving Repr

namespace CharSet

def ofMembers : List CharSet → CharSet
  | [] => .empty
  | [member] => member
  | members => .union members

mutual

def depth : CharSet → Nat
  | .bracket _ body => body.depth + 1
  | .union members => depthOfAll members + 1
  | .operation left right => max left.depth right.depth + 1
  | .empty | .letter _ | .range _ _ | .named _ | .shorthand _ => 0

def depthOfAll : List CharSet → Nat
  | [] => 0
  | member :: rest => max member.depth (depthOfAll rest)

end

end CharSet

namespace Pattern

def ofParts : List Pattern → Pattern
  | [] => .empty
  | [part] => part
  | parts => .sequence parts

mutual

def depth : Pattern → Nat
  | .bracket _ body => body.depth + 1
  | .repetition body | .group _ body => body.depth + 1
  | .alternation branches => depthOfAll branches + 1
  | .sequence parts => depthOfAll parts + 1
  | .empty | .flags _ | .letter _ | .dot | .anchor | .wordEdge | .shorthand _ => 0

def depthOfAll : List Pattern → Nat
  | [] => 0
  | part :: rest => max part.depth (depthOfAll rest)

end

end Pattern

end TreeAlign
