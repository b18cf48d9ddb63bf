
namespace TreeAlign.Assignment

inductive Fault where
  | ragged
  | overflow (weight : Nat)
  | incomplete
deriving DecidableEq, Repr

def Fault.message : Fault → String
  | .ragged => "weight matrix rows have different lengths"
  | .overflow weight => s!"weight {weight} is too large for the solver"
  | .incomplete => "solver produced an incomplete assignment"

structure Solution where
  pairs : List (Nat × Nat)
  objective : Nat
deriving DecidableEq, Repr

abbrev Table := Array (Array Nat)

namespace Table

def weight (table : Table) (row column : Nat) : Nat :=
  (table.getD row #[]).getD column 0

def width (table : Table) : Nat :=
  (table.getD 0 #[]).size

def isRagged (table : Table) : Bool :=
  table.any fun row => row.size != table.width

def largest (table : Table) : Nat :=
  table.foldl (fun best row => row.foldl max best) 0

end Table

/-- Weights above this may take the sums of an `n` by `n` problem out of 64-bit integers. -/
def limit (n : Nat) : Nat :=
  (UInt64.size / 2 - 1) / (2 * (n + 1))

/-- Potentials of the rows and the columns, the row of every column, and the column from which every column was last
reached. Rows and columns are numbered from 1: row 0 stands for no row, and every search starts at column 0. -/
structure Labelling (n : Nat) where
  rowPotential : Vector Int (n + 1)
  columnPotential : Vector Int (n + 1)
  rowOf : Vector (Fin (n + 1)) (n + 1)
  reachedFrom : Vector (Fin (n + 1)) (n + 1)

def Labelling.start (n : Nat) : Labelling n where
  rowPotential := Vector.replicate (n + 1) 0
  columnPotential := Vector.replicate (n + 1) 0
  rowOf := Vector.replicate (n + 1) 0
  reachedFrom := Vector.replicate (n + 1) 0

/-- One search for a free column: the columns visited so far, the least slack of every column not yet
visited (`none` before it is known), and the column the search stands at. -/
structure Search (n : Nat) extends Labelling n where
  slack : Vector (Option Int) (n + 1)
  visited : Vector Bool (n + 1)
  column : Fin (n + 1)

namespace Search

variable {n : Nat} (cost : Nat → Nat → Int)

def start (labelling : Labelling n) (row : Fin (n + 1)) : Search n where
  toLabelling := { labelling with rowOf := labelling.rowOf.set 0 row }
  slack := Vector.replicate (n + 1) none
  visited := Vector.replicate (n + 1) false
  column := 0

def visit (search : Search n) : Search n :=
  { search with visited := search.visited.set search.column true }

def reducedCost (search : Search n) (column : Fin (n + 1)) : Int :=
  let row := search.rowOf[search.column]
  cost (row - 1) (column - 1) - search.rowPotential[row] - search.columnPotential[column]

def improves (search : Search n) (column : Fin (n + 1)) : Bool :=
  column != 0 && !search.visited[column] &&
    match search.slack[column] with
    | none => true
    | some known => search.reducedCost cost column < known

def relax (search : Search n) : Search n :=
  { search with
    slack := Vector.ofFn fun column =>
      if search.improves cost column then some (search.reducedCost cost column)
      else search.slack[column]
    reachedFrom := Vector.ofFn fun column =>
      if search.improves cost column then search.column else search.reachedFrom[column] }

/-- The better of the best column so far and one more column. -/
def nearer (search : Search n) (best : Option (Fin (n + 1) × Int)) (column : Fin (n + 1)) :
    Option (Fin (n + 1) × Int) :=
  if column == 0 || search.visited[column] then best
  else
    match search.slack[column], best with
    | none, _ => best
    | some slack, none => some (column, slack)
    | some slack, some (_, least) => if slack < least then some (column, slack) else best

def nearest (search : Search n) : Option (Fin (n + 1) × Int) :=
  (List.finRange (n + 1)).foldl search.nearer none

def shift (search : Search n) (column : Fin (n + 1)) (delta : Int) : Search n :=
  { search with
    rowPotential := (List.finRange (n + 1)).foldl (fun potential column =>
      if search.visited[column] then
        let row := search.rowOf[column]
        potential.set row (potential[row] + delta)
      else potential) search.rowPotential
    columnPotential := Vector.ofFn fun column =>
      if search.visited[column] then search.columnPotential[column] - delta
      else search.columnPotential[column]
    slack := Vector.ofFn fun column =>
      if search.visited[column] then search.slack[column]
      else search.slack[column].map (· - delta)
    column := column }

def grow : Nat → Search n → Option (Search n)
  | 0, _ => none
  | steps + 1, search =>
    let search := search.visit.relax cost
    match search.nearest with
    | none => none
    | some (column, delta) =>
      let search := search.shift column delta
      if search.rowOf[search.column] = 0 then some search else grow steps search

/-- Hands the rows along the path by which the current column was reached one column on. -/
def augment : Nat → Search n → Search n
  | 0, search => search
  | steps + 1, search =>
    let previous := search.reachedFrom[search.column]
    let search := { search with
      rowOf := search.rowOf.set search.column search.rowOf[previous], column := previous }
    if previous = 0 then search else augment steps search

end Search

def insertRow {n : Nat} (cost : Nat → Nat → Int) (labelling : Labelling n) (row : Fin (n + 1)) :
    Option (Labelling n) := do
  let search ← (Search.start labelling row).grow cost (n + 2)
  return (search.augment (n + 1)).toLabelling

def assignRows (n : Nat) (cost : Nat → Nat → Int) : Option (Labelling n) :=
  (List.finRange n).foldlM (fun labelling row => insertRow cost labelling row.succ)
    (Labelling.start n)

def Labelling.readColumn {n : Nat} (labelling : Labelling n) (columns : Vector (Option Nat) n) (column : Fin n) :
    Option (Vector (Option Nat) n) :=
  let row := labelling.rowOf[column.succ]
  if h : row.val - 1 < n ∧ row ≠ 0 then
    if (columns.get ⟨row.val - 1, h.1⟩).isSome then none
    else some (columns.set (row.val - 1) (some column.val) h.1)
  else none

/-- The column of every row, numbered from 0; `none` unless every column has a row of its own. -/
def Labelling.columns? {n : Nat} (labelling : Labelling n) : Option (Vector (Option Nat) n) :=
  (List.finRange n).foldlM labelling.readColumn (Vector.replicate n none)

def readBack (table : Table) {n : Nat} (columns : Vector (Option Nat) n) : Option Solution := do
  let assigned ← (columns.toList.take table.size).mapM id
  let pairs := assigned.zipIdx.filterMap fun (column, row) =>
    if column < table.width then some (row, column) else none
  return { pairs, objective := (pairs.map fun (row, column) => table.weight row column).foldr (· + ·) 0 }

def solve (table : Table) : Except Fault Solution :=
  if table.isRagged then .error .ragged
  else if table.size = 0 ∨ table.width = 0 then .ok { pairs := [], objective := 0 }
  else
    let n := max table.size table.width
    let largest := table.largest
    if largest > limit n then .error (.overflow largest)
    else
      let cost := fun row column => (largest : Int) - table.weight row column
      let solution := do
        let labelling ← assignRows n cost
        let columns ← labelling.columns?
        readBack table columns
      match solution with
      | some solution => .ok solution
      | none => .error .incomplete

end TreeAlign.Assignment
