import TreeAlign.Parameters
import TreeAlign.Strategy.Assignment
import TreeAlign.Tree.Node

namespace TreeAlign

inductive CoverFault where
  | withoutNode
  | outsideLeft (id : NodeId)
  | outsideRight (id : NodeId)
  | repeated (id : NodeId)
  | uncovered (left ofLeft right ofRight : Nat)
  | conflicting (left right : Option NodeId)
  | exhausted
deriving DecidableEq, Repr

namespace CoverFault

def nodeText : Option NodeId → String
  | some id => NodeId.text id
  | none => "-"

def message : CoverFault → String
  | .withoutNode => "candidate without any node"
  | .outsideLeft id => s!"{NodeId.text id} is not part of the left tree"
  | .outsideRight id => s!"{NodeId.text id} is not part of the right tree"
  | .repeated id => s!"{NodeId.text id} occurs more than once"
  | .uncovered left ofLeft right ofRight =>
    s!"{left} of {ofLeft} left and {right} of {ofRight} right nodes are covered"
  | .conflicting left right =>
    s!"fixed candidate ({nodeText left}, {nodeText right}) conflicts with another fixed candidate " ++
      "or lies outside the trees"
  | .exhausted => "no candidate left to complete the cover"

end CoverFault

inductive Failure where
  | malformedCover (fault : CoverFault)
  | unsolvable (left right : NodeId) (fault : Assignment.Fault)
  | unsupported (node : NodeId) (marker : Marker)
  | unknownNode (node : NodeId)
  | invalidParameter (fault : ParameterFault)
deriving Repr

namespace Failure

def message : Failure → String
  | .malformedCover fault => s!"malformed cost model working set: {fault.message}"
  | .unsolvable left right fault =>
    s!"assignment problem for ({NodeId.text left}, {NodeId.text right}) could not be solved: " ++
      fault.message
  | .unsupported node marker => s!"matching {marker.name} node {NodeId.text node} is not supported"
  | .unknownNode node => s!"node {NodeId.text node} is not part of the trees being matched"
  | .invalidParameter fault => fault.message

/-- Whether a failure concerns one pair of nodes only. -/
def isLocal : Failure → Bool
  | .unsolvable _ _ _ => true
  | _ => false

end Failure

end TreeAlign
