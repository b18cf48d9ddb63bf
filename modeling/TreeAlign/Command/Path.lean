
namespace TreeAlign

structure Path where
  /-- The text between the slashes. If there are slashes and it is empty before the first one, the path
  starts at the root. -/
  segments : List String
deriving DecidableEq, Repr

namespace Path

def here : String := "."

def above : String := ".."

def ofString (text : String) : Path where
  segments := text.splitOn "/"

def toString (path : Path) : String :=
  "/".intercalate path.segments

def isEmpty (path : Path) : Bool :=
  path.toString.isEmpty

def isAbsolute (path : Path) : Bool :=
  path.toString.startsWith "/"

def names (path : Path) : List String :=
  path.segments.filter (!·.isEmpty)

def endsInSlash (path : Path) : Bool :=
  !path.names.isEmpty && path.segments.getLast? == some ""

def isIdle (segment : String) : Bool :=
  segment.isEmpty || segment == here

def endings : List String → List (List String)
  | [] => []
  | segment :: outer =>
    if isIdle segment then endings outer else (segment :: outer) :: endings outer

def ancestors (path : Path) : List Path :=
  ((endings path.segments.reverse).drop 1).map fun segments => { segments := segments.reverse }

def parent (path : Path) : Path :=
  path.ancestors.head?.getD (ofString (if path.isAbsolute then "/" else ""))

def child (path : Path) (name : String) : Path where
  segments :=
    if path.segments.getLast? == some "" then path.segments.dropLast ++ [name] else path.segments ++ [name]

def stem (name : String) : String :=
  let letters := name.toList.reverse
  match letters.dropWhile (· != '.') with
  | [] | [_] => name
  | _ :: rest => String.ofList rest.reverse

/-- The path with another extension in place of the one it has. A path that ends above where it started has
none, and neither has what is left of a path without its extension if that is so. -/
def withExtension (path : Path) (extension : String) : Path :=
  match path.segments.reverse.dropWhile isIdle with
  | [] => path
  | name :: outer =>
    if name == above then path
    else
      let isLast := path.segments.getLast? == some name
      let name := if isLast && stem name == here then above else stem name ++ "." ++ extension
      { segments := (name :: outer).reverse }

end Path

end TreeAlign
