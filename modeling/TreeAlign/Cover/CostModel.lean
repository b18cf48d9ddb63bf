import TreeAlign.Cover.Search
import TreeAlign.Matching.Matchings

namespace TreeAlign

def SearchParameters.linearWeights (p : SearchParameters) : Weights Float32 :=
  let w := p.weights
  .linear w.rename w.noMatch w.ancestry w.siblings w.ordering

structure CostModel where
  parameters : SearchParameters
  weights : Weights Float32
  report : Option SearchReport := none

namespace CostModel

def ofParameters (p : SearchParameters) : CostModel where
  parameters := p
  weights := p.linearWeights

def resolveNode (root : Site) (id : NodeId) : Except Failure Site :=
  match root.find? id with
  | some site => .ok site
  | none => .error (.unknownNode id)

def resolve (left right : Site) (ms : Matchings) : Except Failure (List Candidate) :=
  ms.entries.mapM fun m => do
    let l ← resolveNode left m.left
    let r ← resolveNode right m.right
    return .pair l r

/-- The matchings of a cover. A pair is scored with the number of nodes at or below its left node whose
partners stand at or below its right node. -/
def matchings (cover : Candidates) : Matchings :=
  let images := cover.images
  .ofList <| cover.entries.filterMap fun c =>
    match c.left, c.right with
    | some m, some n =>
      let score := m.preorder.countP fun a =>
        match images[a.id]? with
        | some partner => n.node.containsId partner
        | none => false
      some { left := m.id, right := n.id, score := score, algorithm := .costModel }
    | _, _ => none

def search (model : CostModel) (fixed : Candidates) : Option (Except Failure Candidates × CostModel) :=
  match Cover.search model.weights model.parameters fixed with
  | none => none
  | some (.error failure) => some (.error failure, model)
  | some (.ok (cover, report)) => some (.ok cover, { model with report := some report })

/-- Matches two subtrees, keeping the consistent part of `known`. -/
def refine (model : CostModel) (left right : Site) (known : Matchings) :
    Option (Except Failure Matchings × CostModel) :=
  match resolve left right known.optimized with
  | .error failure => some (.error failure, model)
  | .ok fixed =>
    match model.search ⟨left, right, fixed⟩ with
    | none => none
    | some (.error failure, model) => some (.error failure, model)
    | some (.ok cover, model) => some (.ok (matchings cover), model)

def matchNodes (model : CostModel) (left right : Site) : Option (Except Failure Matchings × CostModel) :=
  model.refine left right .empty

def completed (left right : Site) (pairs : List Candidate) : Candidates :=
  let covered := pairs.flatMap fun c => c.key.1.toList ++ c.key.2.toList
  let alone (root : Site) := root.preorder.filter fun s => !covered.contains s.id
  ⟨left, right, pairs ++ (alone left).map (fun l => { left := some l, right := none }) ++
    (alone right).map (fun r => { left := none, right := some r })⟩

def costOf (model : CostModel) (ms : Matchings) (left right : Site) : Except Failure Float32 := do
  if ms.isEmpty then return 0.0
  let cover := completed left right (← resolve left right ms)
  match cover.check with
  | .error fault => throw (.malformedCover fault)
  | .ok () => return ((Cover.price model.weights cover).run {}).1.2

end CostModel

end TreeAlign
