import TreeAlign.Failure
import TreeAlign.Matching.Matchings
import TreeAlign.Strategy.PairSet

namespace TreeAlign

def Tree.checkPlain (node : Node) : Except Failure Unit :=
  match node.marker with
  | .plain => .ok ()
  | marker => .error (.unsupported node.id marker)

namespace Equality

def verdict? (left right : Node) (parts : List (Option Matching × Matchings)) : Option Matching :=
  let direct := parts.filterMap Prod.fst
  if direct.length = parts.length ∧ left.children.length = right.children.length ∧
      left.sameLabel right then
    let entry : Matching :=
      { left := left.id, right := right.id, score := (direct.map (·.score)).foldr (· + ·) 0 + 1,
        algorithm := .equality, children := direct.map (·.shallow) }
    some entry.timed
  else none

mutual

/-- Matches every pair of equal subtrees at the same position, children before their parents, and adds
the other pairs to the known unequal ones. -/
def matchNodes : Node → Node → EStateM Failure PairSet Matchings
  | left@(.node _ ls), right@(.node _ rs) => do
    MonadExcept.ofExcept left.checkPlain
    MonadExcept.ofExcept right.checkPlain
    let parts ← matchChildren ls rs
    let below := parts.foldl (fun ms part => ms.union part.2) Matchings.empty
    match verdict? left right parts with
    | some entry => return below.add entry
    | none =>
      modify (·.insert left.id right.id)
      return below

def matchChildren : List Node → List Node → EStateM Failure PairSet (List (Option Matching × Matchings))
  | l :: ls, r :: rs => do
    let ms ← matchNodes l r
    let rest ← matchChildren ls rs
    return (ms.get? l.id r.id, ms) :: rest
  | _, _ => return []

end

end Equality

end TreeAlign
