import TreeAlign.Strategy.Children

namespace TreeAlign.Alignment

inductive Direction where
  | left
  | top
  | diagonal
deriving DecidableEq, Repr

/-- For every number of rows and every number of columns, the weight of a best alignment of so many of them, and where
it comes from. -/
structure Tables (rows columns : Nat) where
  scores : Vector (Vector Nat (columns + 1)) (rows + 1)
  directions : Vector (Vector Direction (columns + 1)) (rows + 1)

def put {α : Type} {rows columns : Nat} (entries : Vector (Vector α columns) rows) (i j : Nat) (a : α)
    (hi : i < rows) (hj : j < columns) : Vector (Vector α columns) rows :=
  entries.set i (entries[i].set j a)

/-- A tie goes to the pair. -/
def choose (paired top skip : Nat) : Nat × Direction :=
  if top > skip then
    if top > paired then (top, .top) else (paired, .diagonal)
  else if skip > paired then (skip, .left)
  else (paired, .diagonal)

namespace Tables

def start (rows columns : Nat) : Tables rows columns where
  scores := .replicate _ (.replicate _ 0)
  directions := .replicate _ (.replicate _ .diagonal)

variable {rows columns : Nat}

def score (tables : Tables rows columns) (i j : Nat) (hi : i ≤ rows) (hj : j ≤ columns) : Nat :=
  tables.scores[i][j]

def direction (tables : Tables rows columns) (i j : Nat) (hi : i ≤ rows) (hj : j ≤ columns) : Direction :=
  tables.directions[i][j]

def enter (weight : Nat × Nat → Nat) (tables : Tables rows columns) (i j : Nat) (hi : i < rows) (hj : j < columns) :
    Tables rows columns :=
  let chosen := choose (tables.score i j (Nat.le_of_lt hi) (Nat.le_of_lt hj) + weight (i, j))
    (tables.score i (j + 1) (Nat.le_of_lt hi) hj) (tables.score (i + 1) j hi (Nat.le_of_lt hj))
  { scores := put tables.scores (i + 1) (j + 1) chosen.1 (Nat.succ_lt_succ hi) (Nat.succ_lt_succ hj)
    directions := put tables.directions (i + 1) (j + 1) chosen.2 (Nat.succ_lt_succ hi) (Nat.succ_lt_succ hj) }

def fillRow (weight : Nat × Nat → Nat) (i : Nat) (hi : i < rows) (tables : Tables rows columns) : Tables rows columns :=
  columns.fold (fun j hj tables => tables.enter weight i j hi hj) tables

def fill (rows columns : Nat) (weight : Nat × Nat → Nat) : Tables rows columns :=
  rows.fold (fun i hi tables => tables.fillRow weight i hi) (start rows columns)

/-- The way back through row `i`, which goes on `above` once it leaves the row. A pair that adds nothing is passed
over. -/
def backRow (tables : Tables rows columns) (i : Nat) (hi : i < rows)
    (above : (j : Nat) → j ≤ columns → List (Nat × Nat)) : (j : Nat) → j ≤ columns → List (Nat × Nat)
  | 0, _ => []
  | j + 1, hj =>
    match tables.direction (i + 1) (j + 1) hi hj with
    | .top => above (j + 1) hj
    | .left => backRow tables i hi above j (Nat.le_of_lt hj)
    | .diagonal =>
      if tables.score (i + 1) (j + 1) hi hj > tables.score i j (Nat.le_of_lt hi) (Nat.le_of_lt hj) then
        (i, j) :: above j (Nat.le_of_lt hj)
      else above j (Nat.le_of_lt hj)

def back (tables : Tables rows columns) : (i : Nat) → i ≤ rows → (j : Nat) → j ≤ columns → List (Nat × Nat)
  | 0, _ => fun _ _ => []
  | i + 1, hi => tables.backRow i hi (back tables i (Nat.le_of_lt hi))

def total (tables : Tables rows columns) : Nat :=
  tables.score rows columns (Nat.le_refl _) (Nat.le_refl _)

def places (tables : Tables rows columns) : List (Nat × Nat) :=
  (tables.back rows (Nat.le_refl _) columns (Nat.le_refl _)).reverse

end Tables

def combine (left right : Node) (cells : List (List Matchings)) : Matchings :=
  let table := Answer.table left.children right.children cells
  let tables := Tables.fill left.children.length right.children.length (weightAt Answer.score table)
  Matchings.ofPicked .ordered left right tables.total (tables.places.filterMap (cellAt table))

def matchWith {m : Type → Type} [Monad m] (ask : Node → Node → m Matchings) (left right : Node) :
    m Matchings := do
  return combine left right (← askChildren ask left.children right.children)

end TreeAlign.Alignment
