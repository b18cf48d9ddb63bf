import TreeAlign.Command.Run

namespace TreeAlign

def FileFault.ofCode (code : UInt32) (details : String) : FileFault :=
  match code with
  | 2 => .missing
  | 17 => .present
  | 20 => .notDirectory
  | 21 => .isDirectory
  | 36 => .tooLong
  | _ => .other s!"{details} (os error {code})"

def FileFault.ofError : IO.Error → FileFault
  | .noFileOrDirectory _ code details | .interrupted _ code details => .ofCode code details
  | .alreadyExists _ code details | .invalidArgument _ code details | .permissionDenied _ code details
  | .resourceExhausted _ code details | .inappropriateType _ code details
  | .noSuchThing _ code details => .ofCode code details
  | .otherError code details | .resourceBusy code details | .resourceVanished code details
  | .unsupportedOperation code details | .hardwareFault code details
  | .unsatisfiedConstraints code details | .illegalOperation code details
  | .protocolError code details | .timeExpired code details => .ofCode code details
  | .unexpectedEof => .other "unexpected end of file"
  | .userError text => .other text

def attempt {α : Type} (path : Path) (action : String → IO α) : ExceptT FileFault IO α := do
  let name := path.toString
  if name.contains '\x00' then throw .unnameable
  match ← (action name).toBaseIO with
  | .ok result => return result
  | .error error => throw (.ofError error)

def systemFiles : Files IO where
  isPresent path := do
    match ← attempt path fun name => do (← IO.FS.realPath name).pathExists with
    | .ok isPresent => return isPresent
    | .error _ => return false
  isDirectory path := do
    match ← attempt path fun name => do (← IO.FS.realPath name).isDir with
    | .ok isDirectory => return isDirectory
    | .error _ => return false
  read? path := do
    match ← attempt path fun name => IO.FS.readFile name with
    | .ok text => return some text
    | .error _ => return none
  makeDirectory path := attempt path fun name => IO.FS.createDir name
  write path text := attempt path fun name => IO.FS.writeFile name text
  touch path := attempt path fun name => do
    let _ ← IO.FS.Handle.mk name .append
  rename source target := attempt source fun name => IO.FS.rename name target.toString

end TreeAlign

def main (arguments : List String) : IO UInt32 := do
  let outcome ← TreeAlign.Command.run TreeAlign.systemFiles arguments
  IO.print outcome.output
  match outcome.error with
  | some error => IO.eprintln s!"Error: {error}"
  | none =>
    if outcome.exitCode == 2 then IO.eprint TreeAlign.Command.helpText
  return outcome.exitCode.toUInt32
