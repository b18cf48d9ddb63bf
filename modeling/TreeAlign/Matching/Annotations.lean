import TreeAlign.Matching.Matchings

namespace TreeAlign

/-- Recorded matchings in the order of recording, each with the node it was recorded at. -/
structure Annotations where
  records : List (NodeId × Matching)
deriving Repr

namespace Annotations

def empty : Annotations := ⟨[]⟩

def record (store : Annotations) (m : Matching) : Annotations :=
  ⟨store.records ++ [(m.left, m.shallow), (m.right, m.shallow)]⟩

def recordedAt (store : Annotations) (id : NodeId) : List Matching :=
  (store.records.filter (·.1 == id)).map (·.2)

def has (store : Annotations) (id : NodeId) : Bool :=
  !(store.recordedAt id).isEmpty

def partner? (store : Annotations) (id : NodeId) : Option NodeId :=
  (store.recordedAt id).getLast?.bind (·.other? id)

def size (store : Annotations) : Nat :=
  (store.records.map (·.1)).eraseDups.length

def isEmpty (store : Annotations) : Bool :=
  store.records.isEmpty

mutual

/-- Records a matching and those of its children in turn. Only positive scores are recorded, but the
children of a matching are visited whatever its score. -/
def recordTree (color : Color) (store : Annotations) : Matching → Annotations
  | ⟨left, right, score, algorithm, own, runtime, children⟩ =>
    let m : Matching := ⟨left, right, score, algorithm, own, runtime, []⟩
    let store := if 0 < score then store.record (m.colored color) else store
    recordTrees color store children

def recordTrees (color : Color) (store : Annotations) : List Matching → Annotations
  | [] => store
  | m :: ms => recordTrees color (recordTree color store m) ms

end

def recordAll (color : Color) (store : Annotations) (ms : Matchings) : Annotations :=
  (ms.entries.filter (0 < ·.score)).foldl (fun store m => store.record (m.shallow.colored color)) store

end Annotations

end TreeAlign
