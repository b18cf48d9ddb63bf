import TreeAlign.Pattern.Reader

namespace TreeAlign

structure PatternMode where
  isUnicode : Bool := true
  ignoresCase : Bool := false
deriving DecidableEq, Repr

namespace PatternMode

def change (mode : PatternMode) (change : FlagChange) : PatternMode where
  isUnicode := change.apply .unicode mode.isUnicode
  ignoresCase := change.apply .ignoreCase mode.ignoresCase

def supportsLetter (mode : PatternMode) (letter : Letter) : Bool :=
  if mode.isUnicode then !mode.ignoresCase else !letter.isByte || letter.char.toNat < 128

def supportsMember (mode : PatternMode) (letter : Letter) : Bool :=
  if mode.isUnicode then !mode.ignoresCase else letter.char.toNat < 128

/-- Without Unicode, a set that is negated has bytes that are no characters. -/
def supportsShorthand (mode : PatternMode) (isNegated : Bool) : Bool :=
  !mode.isUnicode && !isNegated

def supportsNamed (mode : PatternMode) (isNegated : Bool) : Bool :=
  if mode.isUnicode then !mode.ignoresCase else !isNegated

mutual

def supportsSet (mode : PatternMode) : CharSet → Bool
  | .empty => true
  | .letter letter => mode.supportsMember letter
  | .range first last => mode.supportsMember first && mode.supportsMember last
  | .named isNegated => mode.supportsNamed isNegated
  | .shorthand isNegated => mode.supportsShorthand isNegated
  | .bracket isNegated body => (mode.isUnicode || !isNegated) && mode.supportsSet body
  | .union members => mode.supportsSets members
  | .operation left right => mode.supportsSet left && mode.supportsSet right

def supportsSets (mode : PatternMode) : List CharSet → Bool
  | [] => true
  | member :: rest => mode.supportsSet member && mode.supportsSets rest

end

end PatternMode

namespace Pattern

/-- What is known after a part of a pattern: the mode that the rest starts in, and whether an edge of a word
was asked for while words could have letters beyond ASCII. -/
structure Survey where
  mode : PatternMode := {}
  hasWordEdge : Bool := false
deriving DecidableEq, Repr

def Survey.require (survey : Survey) (isSupported : Bool) : Option Survey :=
  if isSupported then some survey else none

mutual

def survey (before : Survey) : Pattern → Option Survey
  | .empty | .anchor => some before
  | .flags change => some { before with mode := before.mode.change change }
  | .letter c => before.require (before.mode.supportsLetter c)
  | .dot => before.require before.mode.isUnicode
  | .wordEdge => some { before with hasWordEdge := before.hasWordEdge || before.mode.isUnicode }
  | .shorthand isNegated => before.require (before.mode.supportsShorthand isNegated)
  | .bracket isNegated body => before.require (before.mode.supportsSet (.bracket isNegated body))
  | .repetition body => body.survey before
  | .group change body => do
    let after ← body.survey { before with mode := before.mode.change change }
    return { after with mode := before.mode }
  | .alternation branches => surveyAll before branches
  | .sequence parts => surveyAll before parts

def surveyAll (before : Survey) : List Pattern → Option Survey
  | [] => some before
  | part :: rest => do surveyAll (← part.survey before) rest

end

inductive Fault where
  | unreadable
  | wordEdge
deriving DecidableEq, Repr

def Fault.message : Fault → String
  | .unreadable => "error building NFA"
  | .wordEdge =>
    "unsupported regex feature for DFAs: cannot build DFAs for regexes with Unicode word boundaries; " ++
      "switch to ASCII word boundaries, or heuristically enable Unicode word boundaries or use a " ++
      "different regex engine"

def check (text : String) : Except Fault Unit :=
  match (read? text).bind (survey {}) with
  | none => .error .unreadable
  | some found => if found.hasWordEdge then .error .wordEdge else .ok ()

end Pattern

end TreeAlign
