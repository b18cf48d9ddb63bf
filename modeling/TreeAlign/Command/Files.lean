import TreeAlign.Command.Path

namespace TreeAlign

inductive FileFault where
  | missing
  | present
  | notDirectory
  | isDirectory
  | tooLong
  | unnameable
  | other (text : String)
deriving DecidableEq, Repr

def FileFault.message : FileFault → String
  | .missing => "No such file or directory (os error 2)"
  | .present => "File exists (os error 17)"
  | .notDirectory => "Not a directory (os error 20)"
  | .isDirectory => "Is a directory (os error 21)"
  | .tooLong => "File name too long (os error 36)"
  | .unnameable => "file name contained an unexpected NUL byte"
  | .other text => text

structure Files (m : Type → Type) where
  isPresent : Path → m Bool
  isDirectory : Path → m Bool
  read? : Path → m (Option String)
  makeDirectory : Path → ExceptT FileFault m Unit
  write : Path → String → ExceptT FileFault m Unit
  touch : Path → ExceptT FileFault m Unit
  rename : Path → Path → ExceptT FileFault m Unit

namespace Files

variable {m : Type → Type} [Monad m]

def ensureDirectory (files : Files m) (path : Path) : ExceptT FileFault m Unit :=
  try files.makeDirectory path
  catch fault => if !(← files.isDirectory path) then throw fault

/-- Makes the first of the directories, and before it the others, if it cannot be made without them. -/
def makeDirectoriesAlong (files : Files m) : List Path → ExceptT FileFault m Unit
  | [] => return
  | path :: outer => do
    try files.ensureDirectory path
    catch fault =>
      if fault != .missing then throw fault
      files.makeDirectoriesAlong outer
      files.ensureDirectory path

def makeDirectories (files : Files m) (path : Path) : ExceptT FileFault m Unit := do
  if !path.isEmpty then files.makeDirectoriesAlong (path :: path.ancestors)

end Files

end TreeAlign
