import TreeAlign.Command.Arguments
import TreeAlign.Command.Files
import TreeAlign.Command.LogFilter
import TreeAlign.Document
import TreeAlign.Settings

namespace TreeAlign.Command

inductive Fault where
  | settings (fault : Settings.Fault)
  | document (fault : Document.Fault)
  | logFilter (fault : LogFilter.Fault)
  | file (fault : FileFault)
  | log (fault : FileFault)
  | matching (failure : Failure)
  | settingsPresent (path : String)
  | settingsUnwritable (path : String)
  | endless
deriving Repr

def Fault.message : Fault → String
  | .settings fault => fault.message
  | .document fault => fault.message
  | .logFilter fault => fault.message
  | .file fault | .log fault => fault.message
  | .matching failure => failure.message
  | .settingsPresent path => s!"{path} already exists (use --force to overwrite)"
  | .settingsUnwritable path => s!"writing settings to {path}"
  | .endless => "the search does not end"

def Fault.isAbrupt : Fault → Bool
  | .logFilter .offset | .log _ => true
  | _ => false

structure Outcome where
  exitCode : Nat
  output : String := ""
  error : Option String := none
deriving DecidableEq, Repr

def helpText : String :=
  "Usage: treemerge [--config FILE] [--log-level FILTER] COMMAND\n\n" ++
    "  match LEFT RIGHT [--strategy auto|ordered|unordered|equality|cost-model]\n" ++
    "  cost LEFT RIGHT\n" ++
    "  init-config [PATH] [--force]\n\n" ++
    "match and cost take --seed N, --iterations N and --json.\n"

def Overrides.apply (given : Overrides) (settings : Settings) : Settings :=
  let search := settings.matching.search
  let search := { search with
    seed := given.seed.getD search.seed
    iterations := given.iterations.getD search.iterations }
  { settings with matching := { settings.matching with search } }

variable {m : Type → Type} [Monad m]

def lift {ε α : Type} (wrap : ε → Fault) (result : Except ε α) : ExceptT Fault m α :=
  MonadExcept.ofExcept (result.mapError wrap)

def loadSettings (files : Files m) (invocation : Invocation) (overrides : Overrides) :
    ExceptT Fault m Settings := do
  let settings ← match invocation.config with
    | none => pure {}
    | some path => do lift .settings (Settings.load path (← files.read? (.ofString path)))
  let logging := { settings.logging with
    level := invocation.logLevel.getD settings.logging.level }
  let settings := overrides.apply { settings with logging }
  match settings.matching.search.fault? with
  | some fault => throw (.settings (.parameter fault))
  | none => return settings

def logName : String := "treemerge.log"

def openLog (files : Files m) (logging : LogSettings) : ExceptT Fault m Unit := do
  lift .logFilter (LogFilter.check logging.level)
  match logging.directory with
  | none => return
  | some directory =>
    let directory := Path.ofString directory
    (files.makeDirectories directory).adapt .file
    (files.touch (directory.child logName)).adapt .log

def readDocument (files : Files m) (path : String) : ExceptT Fault m Outline := do
  lift .document (Document.load path (← files.read? (.ofString path)))

def compare (files : Files m) (invocation : Invocation) (comparison : Comparison)
    (report : MatchParameters → Node → Node → Option (Except Failure Report)) :
    ExceptT Fault m String := do
  let settings ← loadSettings files invocation comparison.overrides
  openLog files settings.logging
  let left ← readDocument files comparison.left
  let right ← readDocument files comparison.right
  match report settings.matching (left.number 1) (right.number (1 + left.size)) with
  | none => throw .endless
  | some result =>
    let report ← lift .matching result
    return (if comparison.json then report.json.print else report.text) ++ "\n"

/-- Writes the settings a program starts with. They are written beside their place and then moved there,
so that nobody reads half of them. -/
def writeSettings (files : Files m) (path : String) (force : Bool) : ExceptT Fault m String := do
  let target := Path.ofString path
  if (← files.isPresent target) && !force then throw (.settingsPresent path)
  let draft := target.withExtension "json.tmp"
  (files.makeDirectories target.parent).adapt .file
  (files.write draft ({} : Settings).print).adapt .file
  (files.rename draft target).adapt fun _ => .settingsUnwritable path
  return s!"Wrote default settings to {path}\n"

def perform (files : Files m) (invocation : Invocation) : ExceptT Fault m String :=
  match invocation.action with
  | .matchTrees strategy comparison =>
    compare files invocation comparison fun p left right => Report.ofTrees p strategy left right
  | .costOf comparison =>
    compare files invocation comparison fun p left right => some (Report.withCost p left right)
  | .writeSettings path force => writeSettings files path force

def run (files : Files m) (arguments : List String) : m Outcome := do
  match Invocation.read arguments with
  | .error .help => return { exitCode := 0, output := helpText }
  | .error .invalid => return { exitCode := 2 }
  | .ok invocation =>
    match ← perform files invocation with
    | .ok output => return { exitCode := 0, output }
    | .error fault =>
      if fault.isAbrupt then return { exitCode := 101 }
      else return { exitCode := 1, error := some fault.message }

end TreeAlign.Command
