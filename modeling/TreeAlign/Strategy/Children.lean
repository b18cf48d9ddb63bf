import TreeAlign.Matching.Matchings

namespace TreeAlign

universe u

def cellAt {α : Type u} (table : List (List α)) (p : Nat × Nat) : Option α :=
  table[p.1]?.bind (·[p.2]?)

def weightAt {α : Type u} (weight : α → Nat) (table : List (List α)) (p : Nat × Nat) : Nat :=
  ((cellAt table p).map weight).getD 0

def askChildren {m : Type → Type} [Monad m] (ask : Node → Node → m Matchings)
    (lefts rights : List Node) : m (List (List Matchings)) :=
  lefts.mapM fun left => rights.mapM fun right => ask left right

/-- The answer about one pair of children: the score and the matching of the pair itself, and all
matchings found. -/
structure Answer where
  score : Nat
  direct : Option Matching
  all : Matchings

namespace Answer

def of (left right : Node) (all : Matchings) : Answer where
  score := all.scoreOf left.id right.id
  direct := all.get? left.id right.id
  all := all

def table (lefts rights : List Node) (cells : List (List Matchings)) : List (List Answer) :=
  List.zipWith (fun left row => List.zipWith (fun right all => of left right all) rights row)
    lefts cells

end Answer

def Tree.ownScore (left right : Node) : Nat :=
  if left.sameLabel right then 1 else 0

def Matchings.ofPicked (algorithm : Algorithm) (left right : Node) (score : Nat)
    (picked : List Answer) : Matchings :=
  let entry : Matching :=
    { left := left.id, right := right.id, score := score + left.ownScore right,
      algorithm := algorithm, children := picked.filterMap fun a => a.direct.map (·.shallow) }
  picked.foldl (fun ms a => ms.union a.all) (.single entry.timed)

end TreeAlign
