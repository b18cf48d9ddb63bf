import TreeAlign.Cover.Memo

namespace TreeAlign

structure SearchReport where
  iterations : Nat
  accepted : Nat
  initialCost : Float32
  lowestCost : Float32
  trace : List Float32
deriving Repr

structure Walk where
  source : Random
  memo : Memo := {}

/-- A step of a walk: it may fail, and `none` means that it goes on drawing for ever. -/
abbrev Sampling := StateT Walk (ExceptT Failure Option)

namespace Sampling

def draw {α : Type} (f : Random → α × Random) : Sampling α :=
  modifyGet fun walk =>
    let (a, source) := f walk.source
    (a, { walk with source })

def drawUntil {α : Type} (f : Random → Option (α × Random)) : Sampling α := fun walk =>
  match f walk.source with
  | none => (none : Option (Except Failure (α × Walk)))
  | some (a, source) => some (.ok (a, { walk with source }))

def remember {α : Type} (f : Recall α) : Sampling α :=
  modifyGet fun walk =>
    let (a, memo) := f walk.memo
    (a, { walk with memo })

end Sampling

namespace Cover

open Sampling

variable (w : Weights Float32) (p : SearchParameters)

def price (cover : Candidates) : Recall (Candidates × Float32) := do
  let costs ← Recall.exactCosts cover w
  let entries := List.zipWith (fun c cost => { c with exact := cost }) cover.entries costs
  let sum := costs.foldl (fun sum cost => sum + cost.toFloat) 0.0
  let size := cover.left.size + cover.right.size
  return ({ cover with entries }, (sum / Float.ofNat size).toFloat32)

def cost (cover : Candidates) : Sampling (Candidates × Float32) := do
  match cover.check with
  | .error fault => throw (.malformedCover fault)
  | .ok () => remember (price w cover)

def rank (graph : Candidates) : Sampling Candidates := do
  let bounds ← remember (Recall.estimates graph w)
  let entries := List.zipWith (fun c bounds => { c with bounds }) graph.entries bounds
  return { graph with entries : Candidates }.sorted

def pickBelow (probability : Float) (bound : Nat) : Nat → Random → Option (Nat × Random)
  | 0, _ => none
  | tries + 1, source =>
    match source.geometric probability with
    | none => none
    | some (i, source) => if i < bound then some (i, source) else pickBelow probability bound tries source

/-- Commits one candidate after another until the cover has as many as there are left. -/
def commit : Nat → Candidates → Candidates → Sampling Candidates
  | 0, _, cover => return cover
  | rounds + 1, graph, cover => do
    if graph.size ≤ cover.size then return cover
    let graph ← rank w graph
    let committed := cover.keys
    let free := graph.entries.filter fun c => !committed.contains c.key
    if free.isEmpty then throw (.malformedCover .exhausted)
    let i ← drawUntil (pickBelow p.assignProbability free.length Random.stateCount)
    match free[i]? with
    | none => return cover
    | some chosen => commit rounds (graph.prune chosen) (cover.push chosen)

def complete (fixed : Candidates) : Sampling Candidates := do
  let graph ← draw (Candidates.complete fixed.left fixed.right)
  let graph := fixed.entries.foldl Candidates.prune graph
  let left := graph.keys
  match fixed.keys.find? fun key => !left.contains key with
  | some key => throw (.malformedCover (.conflicting key.1 key.2))
  | none => commit w p graph.size graph fixed

def keptShare (share : Float) (count : Nat) : Nat :=
  (share * Float.ofNat count).toUInt64.toNat

def keep (current fixed : Candidates) : Sampling (List Candidate) := do
  let fixedKeys := fixed.keys
  let free := current.entries.filter fun c => !fixedKeys.contains c.key
  if p.keepRandomShare then
    let lower := keptShare p.keepLower free.length
    let upper := keptShare p.keepUpper free.length
    let free ← draw (Random.shuffle free)
    let x ← draw Random.unit32
    return free.take (lower + (x * Float32.ofNat (upper - lower + 1)).toUInt64.toNat)
  else
    let free := free.mergeSort fun a b => decide (totalKey a.exact ≤ totalKey b.exact)
    let count ← draw (Random.below free.length)
    return free.take count

def propose (current fixed : Candidates) : Sampling Candidates := do
  let kept ← keep p current fixed
  complete w p { current with entries := kept ++ fixed.entries }

/-- Never more than one, and one where it is not defined (between two infinite costs). -/
def acceptance (beta : Float) (current proposal : Float32) : Float :=
  let x := Float.exp (-beta * (proposal.toFloat - current.toFloat))
  if x < 1.0 then x else 1.0

structure Progress where
  initialCost : Float32
  current : Candidates
  currentCost : Float32
  lowest : Candidates
  lowestCost : Float32
  accepted : Nat
  trace : List Float32

def Progress.consider (progress : Progress) (proposal : Candidates) (cost : Float32) (accept : Bool) :
    Progress :=
  let improved := cost < progress.lowestCost
  let lowestCost := if improved then cost else progress.lowestCost
  { initialCost := progress.initialCost
    current := if accept then proposal else progress.current
    currentCost := if accept then cost else progress.currentCost
    lowest := if improved then proposal else progress.lowest
    lowestCost := lowestCost
    accepted := if accept then progress.accepted + 1 else progress.accepted
    trace := progress.trace ++ [lowestCost] }

def walk (fixed : Candidates) : Nat → Progress → Sampling Progress
  | 0, progress => return progress
  | steps + 1, progress => do
    let proposal ← propose w p progress.current fixed
    let (proposal, proposalCost) ← cost w proposal
    let accept ← draw (Random.chance (acceptance p.beta progress.currentCost proposalCost))
    walk fixed steps (progress.consider proposal proposalCost accept)

def explore (fixed : Candidates) : Sampling Progress := do
  let first ← complete w p fixed
  let (first, firstCost) ← cost w first
  walk w p fixed p.iterations
    { initialCost := firstCost, current := first, currentCost := firstCost, lowest := first,
      lowestCost := firstCost, accepted := 0, trace := [] }

def Progress.report (progress : Progress) : SearchReport where
  iterations := p.iterations
  accepted := progress.accepted
  initialCost := progress.initialCost
  lowestCost := progress.lowestCost
  trace := progress.trace

/-- The cheapest cover found that holds the candidates `fixed`, and a summary of the walk. -/
def search (fixed : Candidates) : Option (Except Failure (Candidates × SearchReport)) :=
  match p.fault? with
  | some fault => some (.error (.invalidParameter fault))
  | none =>
    match explore w p fixed { source := .ofSeed p.seed } with
    | none => none
    | some (.error failure) => some (.error failure)
    | some (.ok (progress, _)) => some (.ok (progress.lowest, progress.report p))

end Cover

end TreeAlign
