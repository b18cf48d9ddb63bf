import TreeAlign.Tree.Basic

namespace TreeAlign

abbrev NodeId := Nat

def NodeId.text (id : NodeId) : String :=
  s!"#{id}"

structure Label where
  kind : String
  value : Option String
deriving DecidableEq, Repr

def Label.text (label : Label) : String :=
  match label.value with
  | some value => s!"{label.kind}({value})"
  | none => label.kind

/-- Role of a node. Only plain nodes can be matched. -/
inductive Marker where
  | plain
  | choice
  | conflict
deriving DecidableEq, Repr

def Marker.name : Marker → String
  | .plain => "plain"
  | .choice => "choice"
  | .conflict => "conflict"

def Marker.ofName? : String → Option Marker
  | "plain" => some .plain
  | "choice" => some .choice
  | "conflict" => some .conflict
  | _ => none

/-- What a node carries besides its children. A node is `ordered` if its place among its siblings
matters. -/
structure Content where
  label : Label
  ordered : Bool
  marker : Marker
deriving DecidableEq, Repr

abbrev Outline := Tree Content

abbrev Node := Tree (NodeId × Content)

namespace Tree

def id (node : Node) : NodeId :=
  node.value.1

def content (node : Node) : Content :=
  node.value.2

def label (node : Node) : Label :=
  node.content.label

def isOrdered (node : Node) : Bool :=
  node.content.ordered

def marker (node : Node) : Marker :=
  node.content.marker

def sameLabel (left right : Node) : Bool :=
  left.label == right.label

def containsId (node : Node) (id : NodeId) : Bool :=
  node.id ≤ id && id < node.id + node.size

def find? (node : Node) (id : NodeId) : Option Node :=
  node.preorder.find? (·.id == id)

def text (node : Node) : String :=
  node.label.text ++ NodeId.text node.id

def outline (node : Node) : Outline :=
  node.map Prod.snd

/-- Trees built one after another take consecutive blocks of identities, from `first` on. -/
def numberAll (first : NodeId) (outlines : List Outline) : List Node :=
  numbers first outlines

end Tree

end TreeAlign
