import TreeAlign.Command.Number
import TreeAlign.Command.Strategy

namespace TreeAlign.Command

structure Overrides where
  seed : Option UInt64 := none
  iterations : Option Nat := none
deriving Repr

structure Comparison where
  left : String
  right : String
  overrides : Overrides
  json : Bool
deriving Repr

inductive Action where
  | matchTrees (strategy : Strategy) (comparison : Comparison)
  | costOf (comparison : Comparison)
  | writeSettings (path : String) (force : Bool)
deriving Repr

structure Invocation where
  action : Action
  config : Option String
  logLevel : Option String
deriving Repr

inductive Usage where
  | help
  | invalid
deriving DecidableEq, Repr

inductive ValueKind where
  | path
  | text
  | number
  | strategy
deriving DecidableEq, Repr

def ValueKind.accepts : ValueKind → String → Bool
  | .path, value => !value.isEmpty
  | .text, _ => true
  | .number, value => (readNumber? value).isSome
  | .strategy, value => (Strategy.ofName? value).isSome

structure Form where
  options : List (String × ValueKind) := []
  flags : List String := []
  operands : Nat := 0

structure Given where
  options : List (String × String) := []
  flags : List String := []
  operands : List String := []
deriving Repr

namespace Given

def option? (given : Given) (name : String) : Option String :=
  given.options.lookup name

def flag (given : Given) (name : String) : Bool :=
  given.flags.contains name

def addOption (given : Given) (form : Form) (name value : String) : Except Usage Given :=
  match form.options.lookup name with
  | none => .error .invalid
  | some kind =>
    if kind.accepts value && (given.option? name).isNone then
      .ok { given with options := given.options ++ [(name, value)] }
    else .error .invalid

def addFlag (given : Given) (form : Form) (name : String) : Except Usage Given :=
  if form.flags.contains name && !given.flag name then
    .ok { given with flags := given.flags ++ [name] }
  else .error .invalid

def addOperand (given : Given) (form : Form) (value : String) : Except Usage Given :=
  if given.operands.length < form.operands && !value.isEmpty then
    .ok { given with operands := given.operands ++ [value] }
  else .error .invalid

end Given

inductive Argument where
  | operand
  | separator
  | short (letters : List Char)
  | long (name : String) (value : Option String)
deriving DecidableEq, Repr

def Argument.read (text : String) : Argument :=
  match text.toList with
  | ['-', '-'] => .separator
  | '-' :: '-' :: rest =>
    let name := String.ofList (rest.takeWhile (· != '='))
    match rest.dropWhile (· != '=') with
    | [] => .long name none
    | _ :: value => .long name (some (String.ofList value))
  | '-' :: letter :: letters => .short (letter :: letters)
  | _ => .operand

/-- Reads arguments up to the first operand that the form has no place for. -/
def Form.scan (form : Form) (given : Given) : List String → Except Usage (Given × List String)
  | [] => .ok (given, [])
  | text :: rest =>
    match Argument.read text with
    | .operand =>
      if given.operands.length < form.operands then do
        form.scan (← given.addOperand form text) rest
      else .ok (given, text :: rest)
    | .separator => do
      return (← rest.foldlM (fun given text => given.addOperand form text) given, [])
    | .short letters => .error (if letters.head? == some 'h' then .help else .invalid)
    | .long name (some value) => do
      form.scan (← given.addOption form name value) rest
    | .long name none =>
      if name == "help" then .error .help
      else if (form.options.lookup name).isSome then
        match rest with
        | [] => .error .invalid
        | value :: rest =>
          if Argument.read value == .operand then do
            form.scan (← given.addOption form name value) rest
          else .error .invalid
      else do
        form.scan (← given.addFlag form name) rest

def globalOptions : List (String × ValueKind) :=
  [("config", .path), ("log-level", .text)]

def comparisonForm : Form where
  options := globalOptions ++ [("seed", .number), ("iterations", .number)]
  flags := ["json"]
  operands := 2

def matchForm : Form :=
  { comparisonForm with options := comparisonForm.options ++ [("strategy", .strategy)] }

def settingsForm : Form where
  options := globalOptions
  flags := ["force"]
  operands := 1

def Given.comparison (given : Given) : Except Usage Comparison :=
  match given.operands with
  | [left, right] =>
    .ok {
      left, right
      overrides := {
        seed := ((given.option? "seed").bind readNumber?).map Nat.toUInt64
        iterations := (given.option? "iterations").bind readNumber? }
      json := given.flag "json" }
  | _ => .error .invalid

def matchAction (given : Given) : Except Usage Action := do
  let strategy := ((given.option? "strategy").bind Strategy.ofName?).getD .auto
  return .matchTrees strategy (← given.comparison)

def costAction (given : Given) : Except Usage Action := do
  return .costOf (← given.comparison)

def settingsAction (given : Given) : Except Usage Action :=
  .ok (.writeSettings (given.operands.head?.getD "treemerge.json") (given.flag "force"))

def commands : List (String × Form × (Given → Except Usage Action)) :=
  [("match", matchForm, matchAction), ("cost", comparisonForm, costAction),
    ("init-config", settingsForm, settingsAction)]

def helpOn (names : List String) : Usage :=
  match names with
  | [] => .help
  | [name] => if name == "help" || (commands.lookup name).isSome then .help else .invalid
  | _ => .invalid

/-- The invocation that arguments stand for. An option of the program that is given twice has the value
given last. -/
def Invocation.read (arguments : List String) : Except Usage Invocation := do
  match ← Form.scan { options := globalOptions } {} arguments with
  | (_, []) => throw .invalid
  | (outer, name :: rest) =>
    match commands.lookup name with
    | none => throw (if name == "help" then helpOn rest else .invalid)
    | some (form, action) =>
      match ← form.scan {} rest with
      | (inner, []) =>
        let option? (name : String) := inner.option? name <|> outer.option? name
        return {
          action := ← action inner
          config := option? "config"
          logLevel := option? "log-level" }
      | (_, _ :: _) => throw .invalid

end TreeAlign.Command
