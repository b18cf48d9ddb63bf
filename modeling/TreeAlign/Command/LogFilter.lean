import TreeAlign.Command.Number
import TreeAlign.Pattern.Support
import TreeAlign.Text.Alphanumeric
import TreeAlign.Text.Slice

namespace TreeAlign.LogFilter

inductive Fault where
  | directive
  | level
  | field (fault : Pattern.Fault)
  | offset
deriving DecidableEq, Repr

def Fault.message : Fault → String
  | .directive => "invalid filter directive"
  | .level =>
    "error parsing level filter: expected one of \"off\", \"error\", \"warn\", \"info\", " ++
      "\"debug\", \"trace\", or a number 0-5"
  | .field fault => "invalid field filter: " ++ fault.message
  | .offset => "offset inside a character"

def levelNames : List String :=
  ["off", "error", "warn", "info", "debug", "trace"]

def isLevel (text : String) : Bool :=
  text.isEmpty || levelNames.contains text.toLower || (Command.readNumber? text).any (· ≤ 5)

def checkValue (text : String) : Except Pattern.Fault Unit :=
  if text == "true" || text == "false" || Command.isNumber text then .ok () else Pattern.check text

/-- Checks a field: a name, and a value after an equality sign. What follows another one is ignored. -/
def checkField (text : String) : Except Pattern.Fault Unit :=
  match text.splitOn "=" with
  | _ :: value :: _ => checkValue value
  | _ => .ok ()

inductive State where
  | start
  | target
  | span (first : Nat)
  | field (first : Nat)
  | fields
  | spanEnd
  | level (first : Nat)
deriving DecidableEq, Repr

def startsTarget (c : Char) : Bool :=
  c == '-' || c == ':' || c == '_' || Text.isAlphanumeric c

def part (text : List Char) (start stop : Nat) : Except Fault String :=
  match Text.slice? text start stop with
  | none => .error .offset
  | some part => .ok (String.ofList part)

/-- Takes the character at an offset. The offsets are those in the directive without the blanks around it,
but the parts between them are taken from `text`, which has the blanks. -/
def State.step (text : List Char) (offset : Nat) (c : Char) : State → Except Fault State
  | .start =>
    if c == '[' then .ok (.span 1) else if startsTarget c then .ok .target else .error .directive
  | .target => do
    if c == '=' then
      let _ ← part text 0 offset
      return .level (offset + 1)
    else if c == '[' then
      let _ ← part text 0 offset
      return .span (offset + 1)
    else return .target
  | .span first => do
    if c == ']' then
      let _ ← part text first offset
      return .spanEnd
    else if c == '\x7b' then
      let _ ← part text first offset
      return .field (offset + 1)
    else return .span first
  | .field first => do
    if c != '\x7d' then return .field first
    let content ← part text first offset
    if content.isEmpty then throw .directive
    (checkField content).mapError .field
    return .fields
  | .fields => if c == ']' then .ok .spanEnd else .error .directive
  | .spanEnd => if c == '=' then .ok (.level (offset + 1)) else .error .directive
  | .level first => .ok (.level first)

def State.finish (text : List Char) : State → Except Fault Unit
  | .target | .spanEnd => .ok ()
  | .level first =>
    match Text.dropBytes? first text with
    | none => .error .offset
    | some rest => if isLevel (String.ofList rest) then .ok () else .error .level
  | .start | .span _ | .field _ | .fields => .error .directive

def State.scan (text : List Char) (offset : Nat) (state : State) : List Char → Except Fault State
  | [] => .ok state
  | c :: rest => do (← state.step text offset c).scan text (offset + c.utf8Size) rest

def checkDirective (directive : String) : Except Fault Unit := do
  let text := directive.toList
  (← State.start.scan text 0 (Text.trim text)).finish text

def check (text : String) : Except Fault Unit :=
  ((text.splitOn ",").filter (!·.isEmpty)).forM checkDirective

end TreeAlign.LogFilter
