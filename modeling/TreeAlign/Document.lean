import TreeAlign.Json.Printer
import TreeAlign.Json.Reader
import TreeAlign.Json.Record
import TreeAlign.Tree.Node

namespace TreeAlign.Document

open Json

def encodeLabel (label : Label) : Json :=
  .record (("kind", .ofString label.kind) ::
    (label.value.map fun value => ("value", Json.ofString value)).toList)

def decodeLabel (json : Json) : Option Label :=
  match json.fields? ["kind", "value"] with
  | some [some kind, value] => do
    let kind ← kind.toString?
    let value ← fieldOr none (toOption? Json.toString?) value
    return { kind, value }
  | _ => none

mutual

def encode : Outline → Json
  | .node content children =>
    .record [("content", encodeLabel content.label), ("ordered", .bool content.ordered),
      ("marker", .ofString content.marker.name), ("children", .array (encodeAll children))]

def encodeAll : List Outline → List Json
  | [] => []
  | outline :: outlines => encode outline :: encodeAll outlines

end

/-- Reads a node that may nest `levels` deep. The node takes one level, its label and the list of its
children one more. -/
def decode : Nat → Json → Option Outline
  | levels + 2, json =>
    match json.fields? ["content", "ordered", "marker", "children"] with
    | some [some label, ordered, marker, children] => do
      let label ← decodeLabel label
      let ordered ← fieldOr false Json.toBool? ordered
      let marker ← fieldOr .plain (toName? Marker.ofName?) marker
      let children ← fieldOr [] (fun json => json.toList?.bind (·.mapM (decode levels))) children
      return .node { label, ordered, marker } children
    | _ => none
  | _, _ => none

def parse? (text : String) : Option Outline :=
  (Json.parse? text).bind (decode levelLimit)

def print (outline : Outline) : String :=
  (encode outline).print

inductive Fault where
  | unreadable (path : String)
  | unwritable (path : String)
  | malformed
deriving DecidableEq, Repr

def Fault.message : Fault → String
  | .unreadable path => s!"failed to read tree document {path}"
  | .unwritable path => s!"failed to write tree document {path}"
  | .malformed => "malformed tree document"

def load (path : String) (text : Option String) : Except Fault Outline :=
  match text with
  | none => .error (.unreadable path)
  | some text =>
    match parse? text with
    | none => .error .malformed
    | some outline => .ok outline

end TreeAlign.Document
