import TreeAlign.Json.Printer
import TreeAlign.Json.Reader
import TreeAlign.Json.Record
import TreeAlign.Parameters

namespace TreeAlign

structure LogSettings where
  level : String := "info"
  directory : Option String := none
  ansi : Bool := true
deriving Repr

structure Settings where
  matching : MatchParameters := {}
  logging : LogSettings := {}
deriving Repr

open Json

namespace SearchParameters

def fieldNames : List String :=
  ["iterations", "parallel", "seed", "beta", "p_assign", "fix_lower", "fix_upper",
    "fix_random_percentage", "wr", "wn", "wa", "ws", "wo"]

def decode (json : Json) : Option SearchParameters := do
  let d : SearchParameters := {}
  match json.fields? fieldNames with
  | some [iterations, parallel, seed, beta, assign, lower, upper, random, wr, wn, wa, ws, wo] =>
    let weight := fieldOr (1.0 : Float32) Json.toFloat32?
    return {
      iterations := ← fieldOr d.iterations Json.toNat? iterations
      parallel := ← fieldOr d.parallel Json.toBool? parallel
      seed := ← fieldOr d.seed (fun json => json.toNat?.map Nat.toUInt64) seed
      beta := ← fieldOr d.beta Json.toFloat? beta
      assignProbability := ← fieldOr d.assignProbability Json.toFloat? assign
      keepLower := ← fieldOr d.keepLower Json.toFloat? lower
      keepUpper := ← fieldOr d.keepUpper Json.toFloat? upper
      keepRandomShare := ← fieldOr d.keepRandomShare Json.toBool? random
      weights := {
        rename := ← weight wr
        noMatch := ← weight wn
        ancestry := ← weight wa
        siblings := ← weight ws
        ordering := ← weight wo } }
  | _ => none

def encode (p : SearchParameters) : Json :=
  .record [("iterations", .ofNat p.iterations), ("parallel", .bool p.parallel),
    ("seed", .ofNat p.seed.toNat), ("beta", .ofFloat p.beta),
    ("p_assign", .ofFloat p.assignProbability), ("fix_lower", .ofFloat p.keepLower),
    ("fix_upper", .ofFloat p.keepUpper), ("fix_random_percentage", .bool p.keepRandomShare),
    ("wr", .ofFloat32 p.weights.rename), ("wn", .ofFloat32 p.weights.noMatch),
    ("wa", .ofFloat32 p.weights.ancestry), ("ws", .ofFloat32 p.weights.siblings),
    ("wo", .ofFloat32 p.weights.ordering)]

end SearchParameters

namespace MatchParameters

def fieldNames : List String :=
  ["use_equality_matcher", "filter_did_not_match", "use_cost_model", "fallback_on_cost_model_error",
    "cost_model"]

def decode (json : Json) : Option MatchParameters := do
  let d : MatchParameters := {}
  match json.fields? fieldNames with
  | some [equality, skip, search, keep, parameters] =>
    return {
      useEquality := ← fieldOr d.useEquality Json.toBool? equality
      skipKnownUnequal := ← fieldOr d.skipKnownUnequal Json.toBool? skip
      useSearch := ← fieldOr d.useSearch Json.toBool? search
      keepOnSearchFailure := ← fieldOr d.keepOnSearchFailure Json.toBool? keep
      search := ← fieldOr d.search SearchParameters.decode parameters }
  | _ => none

def encode (p : MatchParameters) : Json :=
  .record [("use_equality_matcher", .bool p.useEquality),
    ("filter_did_not_match", .bool p.skipKnownUnequal), ("use_cost_model", .bool p.useSearch),
    ("fallback_on_cost_model_error", .bool p.keepOnSearchFailure), ("cost_model", p.search.encode)]

end MatchParameters

namespace LogSettings

def decode (json : Json) : Option LogSettings := do
  let d : LogSettings := {}
  match json.fields? ["level", "dir", "ansi"] with
  | some [level, directory, ansi] =>
    return {
      level := ← fieldOr d.level Json.toString? level
      directory := ← fieldOr d.directory (toOption? Json.toString?) directory
      ansi := ← fieldOr d.ansi Json.toBool? ansi }
  | _ => none

def encode (s : LogSettings) : Json :=
  .record [("level", .ofString s.level),
    ("dir", (s.directory.map Json.ofString).getD .null), ("ansi", .bool s.ansi)]

end LogSettings

namespace Settings

def decode (json : Json) : Option Settings :=
  match json.fields? ["matcher", "logging"] with
  | some [matching, logging] => do
    return {
      matching := ← fieldOr {} MatchParameters.decode matching
      logging := ← fieldOr {} LogSettings.decode logging }
  | _ => none

def encode (s : Settings) : Json :=
  .record [("matcher", s.matching.encode), ("logging", s.logging.encode)]

def parse? (text : String) : Option Settings :=
  (Json.parse? text).bind decode

def print (s : Settings) : String :=
  s.encode.print

inductive Fault where
  | unreadable (path : String)
  | malformed (path : String)
  | parameter (fault : ParameterFault)
deriving Repr

def Fault.message : Fault → String
  | .unreadable path => s!"reading settings from {path}"
  | .malformed path => s!"parsing settings in {path}"
  | .parameter fault => fault.message

def load (path : String) (text : Option String) : Except Fault Settings :=
  match text with
  | none => .error (.unreadable path)
  | some text =>
    match parse? text with
    | none => .error (.malformed path)
    | some settings =>
      match settings.matching.search.fault? with
      | some fault => .error (.parameter fault)
      | none => .ok settings

end Settings

end TreeAlign
