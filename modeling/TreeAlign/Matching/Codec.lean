import TreeAlign.Json.Record
import TreeAlign.Matching.Basic

namespace TreeAlign

namespace Duration

def encode (d : Duration) : Json :=
  .record [("secs", .ofNat d.seconds), ("nanos", .ofNat d.nanoseconds)]

/-- Seconds and nanoseconds, and no other field. Whole seconds among the nanoseconds are carried. -/
def decode (json : Json) : Option Duration :=
  let exact :=
    match json with
    | .object fields => fields.length == 2
    | _ => true
  match json.fields? ["secs", "nanos"] with
  | some [some seconds, some nanoseconds] => do
    let seconds ← seconds.toNat?
    let nanoseconds ← nanoseconds.toNat?
    let carried := seconds + nanoseconds / 1000000000
    if exact && nanoseconds < UInt32.size && carried < UInt64.size then
      some ⟨carried, nanoseconds % 1000000000⟩
    else none
  | _ => none

end Duration

namespace Matching

mutual

def encode : Matching → Json
  | ⟨left, right, score, algorithm, color, runtime, children⟩ =>
    .record ([("left", .ofNat left), ("right", .ofNat right), ("score", .ofNat score),
      ("algorithm", .ofString algorithm.name)] ++
      (color.map fun color => ("color", Json.ofString color.name)).toList ++
      (runtime.map fun runtime => ("runtime", runtime.encode)).toList ++
      if children.isEmpty then [] else [("children", .array (encodeAll children))])

def encodeAll : List Matching → List Json
  | [] => []
  | m :: ms => encode m :: encodeAll ms

end

def decode : Nat → Json → Option Matching
  | levels + 1, json =>
    match json.fields? ["left", "right", "score", "algorithm", "color", "runtime", "children"] with
    | some [some left, some right, some score, some algorithm, color, runtime, children] => do
      return {
        left := ← left.toNat?
        right := ← right.toNat?
        score := ← score.toNat?
        algorithm := ← Json.toName? Algorithm.ofName? algorithm
        color := ← Json.fieldOr none (Json.toOption? (Json.toName? Color.ofName?)) color
        runtime := ← Json.fieldOr none (Json.toOption? Duration.decode) runtime
        children := ← Json.fieldOr [] (fun json => json.toList?.bind (·.mapM (decode levels)))
          children }
    | _ => none
  | 0, _ => none

end Matching

end TreeAlign
