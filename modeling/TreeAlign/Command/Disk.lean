import TreeAlign.Command.Files

namespace TreeAlign

inductive Entry where
  | file (text : String)
  | directory (entries : List (String × Entry))

abbrev Directory := List (String × Entry)

def Directory.erase (directory : Directory) (name : String) : Directory :=
  directory.filter (·.1 != name)

def Directory.put (directory : Directory) (name : String) (entry : Entry) : Directory :=
  (name, entry) :: directory.erase name

structure Disk where
  root : Directory
  home : List String

structure Place where
  directory : Directory
  /-- The directories around it, the innermost first, each with the name that leads back in. -/
  outer : List (Directory × String)
  name : Option String

namespace Place

def get? (place : Place) : Option Entry :=
  match place.name with
  | none => some (.directory place.directory)
  | some name => place.directory.lookup name

def settle (place : Place) : Except FileFault Place :=
  match place.name with
  | none => .ok place
  | some name =>
    match place.directory.lookup name with
    | none => .error .missing
    | some (.file _) => .error .notDirectory
    | some (.directory directory) =>
      .ok { directory, outer := (place.directory, name) :: place.outer, name := none }

def up (place : Place) : Place :=
  match place.outer with
  | [] => place
  | (directory, _) :: outer => { directory, outer, name := none }

def maxNameSize : Nat := 255

def maxPathSize : Nat := 4095

def enter (place : Place) (name : String) : Except FileFault Place := do
  let place ← place.settle
  if name == Path.here then return place
  else if name == Path.above then return place.up
  else if maxNameSize < name.utf8ByteSize then throw .tooLong
  else return { place with name := some name }

def rebuild (directory : Directory) (outer : List (Directory × String)) : Directory :=
  outer.foldl (fun inner (around, name) => around.put name (.directory inner)) directory

def put (place : Place) (entry : Entry) : Directory :=
  match place.name with
  | none => rebuild place.directory place.outer
  | some name => rebuild (place.directory.put name entry) place.outer

def erase (place : Place) : Directory :=
  match place.name with
  | none => rebuild place.directory place.outer
  | some name => rebuild (place.directory.erase name) place.outer

end Place

namespace Disk

def locate (disk : Disk) (path : Path) : Except FileFault Place := do
  let text := path.toString
  if text.contains '\x00' then throw .unnameable
  if text.isEmpty then throw .missing
  if Place.maxPathSize < text.utf8ByteSize then throw .tooLong
  let names := if path.isAbsolute then path.names else disk.home ++ path.names
  names.foldlM Place.enter { directory := disk.root, outer := [], name := none }

def find? (disk : Disk) (path : Path) : Option Entry := do
  match (← (disk.locate path).toOption).get? with
  | some (.file text) => if path.endsInSlash then none else return .file text
  | entry => entry

def text? (disk : Disk) (path : Path) : Option String :=
  match disk.find? path with
  | some (.file text) => some text
  | _ => none

def isDirectory (disk : Disk) (path : Path) : Bool :=
  match disk.find? path with
  | some (.directory _) => true
  | _ => false

def makeDirectory (disk : Disk) (path : Path) : Except FileFault Disk := do
  let place ← disk.locate path
  match place.get? with
  | none => return { disk with root := place.put (.directory []) }
  | some _ => throw .present

def update (disk : Disk) (path : Path) (next : Option String → String) : Except FileFault Disk := do
  let place ← disk.locate path
  if path.endsInSlash then throw .isDirectory
  match place.get? with
  | none => return { disk with root := place.put (.file (next none)) }
  | some (.file text) => return { disk with root := place.put (.file (next (some text))) }
  | some (.directory _) => throw .isDirectory

def rename (disk : Disk) (source target : Path) : Except FileFault Disk := do
  match disk.text? source with
  | none => throw .missing
  | some text =>
    let disk ← disk.update target fun _ => text
    return { disk with root := (← disk.locate source).erase }

def change (f : Disk → Except FileFault Disk) : ExceptT FileFault (StateM Disk) Unit := do
  match f (← get) with
  | .ok disk => set disk
  | .error fault => throw fault

def files : Files (StateM Disk) where
  isPresent path := return ((← get).find? path).isSome
  isDirectory path := return (← get).isDirectory path
  read? path := return (← get).text? path
  makeDirectory path := change fun disk => disk.makeDirectory path
  write path text := change fun disk => disk.update path fun _ => text
  touch path := change fun disk => disk.update path fun old => old.getD ""
  rename source target := change fun disk => disk.rename source target

def addFile (disk : Disk) (path : Path) (text : String) : Disk :=
  let (_, disk) := (files.makeDirectories path.parent).run disk
  (disk.update path fun _ => text).toOption.getD disk

def ofTexts (home : String) (texts : List (String × String)) : Disk :=
  texts.foldl (fun disk (name, text) => disk.addFile (.ofString name) text)
    { root := [(home, .directory [])], home := [home] }

end Disk

end TreeAlign
