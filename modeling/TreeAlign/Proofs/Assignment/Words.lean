import TreeAlign.Proofs.Assignment.Range

namespace TreeAlign.Assignment

inductive Stop where
  | fault (fault : Fault)
  | trap
deriving DecidableEq, Repr

namespace Words

variable {α : Type} {k n : Nat}

def entry (found : Option α) : Except Stop α :=
  found.elim (.error .trap) .ok

def put (xs : Vector α k) (i : Nat) (a : α) : Except Stop (Vector α k) :=
  if h : i < k then .ok (xs.set i a h) else .error .trap

def predecessor (i : Nat) : Except Stop Nat :=
  if i = 0 then .error .trap else .ok (i - 1)

/-- The result of an operation whose operands and exact result are inner numbers. -/
def calculated (a b : Int64) (exact : Int) (word : Int64) : Except Stop Int64 :=
  if Inner a.toInt ∧ Inner b.toInt ∧ Inner exact then .ok word else .error .trap

def add (a b : Int64) : Except Stop Int64 :=
  calculated a b (a.toInt + b.toInt) (a + b)

def sub (a b : Int64) : Except Stop Int64 :=
  calculated a b (a.toInt - b.toInt) (a - b)

def ofWeight (weight : Nat) : Except Stop Int64 :=
  if Inner weight then .ok (Int64.ofInt weight) else .error .trap

def addWeight (a b : Nat) : Except Stop Nat :=
  if a + b < UInt64.size then .ok (a + b) else .error .trap

def costAt (table : Table) (largest : Int64) (i j : Nat) : Except Stop Int64 :=
  if i < table.size ∧ j < table.width then do sub largest (← ofWeight (table.weight i j)) else .ok largest

def costs (table : Table) (largest : Int64) (n : Nat) : Except Stop (List (List Int64)) :=
  (List.finRange n).mapM fun i : Fin n => (List.finRange n).mapM fun j : Fin n => costAt table largest i.val j.val

structure Registers (n : Nat) where
  rowPotential : Vector Int64 (n + 1)
  columnPotential : Vector Int64 (n + 1)
  rowOf : Vector Nat (n + 1)
  reachedFrom : Vector Nat (n + 1)

/-- What is kept from one round of a search to the next. A slack not known yet is the largest word. -/
structure Round (n : Nat) extends Registers n where
  slack : Vector Int64 (n + 1)
  visited : Vector Bool (n + 1)

/-- A round whose columns are looked at one by one, with the least slack so far and where it is; column 0
stands for no column. -/
structure Sweep (n : Nat) extends Round n where
  least : Int64
  nearest : Nat

def Round.visit (round : Round n) (column : Nat) : Except Stop (Round n) := do
  return { round with visited := ← put round.visited column true }

def Round.unswept (round : Round n) : Sweep n :=
  { round with least := Int64.maxValue, nearest := 0 }

def Round.improve (round : Round n) (column j : Nat) (current : Int64) : Except Stop (Round n) := do
  if current < (← entry round.slack[j]?) then
    return { round with slack := ← put round.slack j current, reachedFrom := ← put round.reachedFrom j column }
  else return round

def Sweep.compare (sweep : Sweep n) (j : Nat) : Except Stop (Sweep n) := do
  let slack ← entry sweep.slack[j]?
  if slack < sweep.least then return { sweep with least := slack, nearest := j } else return sweep

def Sweep.look (sweep : Sweep n) (costs : List (List Int64)) (column row j : Nat) : Except Stop (Sweep n) := do
  if ← entry sweep.visited[j]? then return sweep
  else
    let cells ← entry costs[← predecessor row]?
    let cell ← entry cells[← predecessor j]?
    let current ← sub (← sub cell (← entry sweep.rowPotential[row]?)) (← entry sweep.columnPotential[j]?)
    let round ← sweep.improve column j current
    Sweep.compare { sweep with toRound := round } j

def Round.move (round : Round n) (delta : Int64) (j : Nat) : Except Stop (Round n) := do
  if ← entry round.visited[j]? then
    let row ← entry round.rowOf[j]?
    let rowPotential ← put round.rowPotential row (← add (← entry round.rowPotential[row]?) delta)
    let columnPotential ← put round.columnPotential j (← sub (← entry round.columnPotential[j]?) delta)
    return { round with rowPotential, columnPotential }
  else
    return { round with slack := ← put round.slack j (← sub (← entry round.slack[j]?) delta) }

def Round.grow (costs : List (List Int64)) : Nat → Round n → Nat → Except Stop (Round n × Nat)
  | 0, _, _ => .error .trap
  | steps + 1, round, column => do
    let round ← round.visit column
    let row ← entry round.rowOf[column]?
    let sweep ← (List.finRange n).foldlM (fun sweep (j : Fin n) => sweep.look costs column row (j.val + 1)) round.unswept
    if sweep.nearest = 0 then .error (.fault .incomplete)
    else
      let round ← (List.finRange (n + 1)).foldlM (fun round (j : Fin (n + 1)) => round.move sweep.least j.val)
        sweep.toRound
      if (← entry round.rowOf[sweep.nearest]?) = 0 then return (round, sweep.nearest)
      else grow costs steps round sweep.nearest

def Round.augment : Nat → Round n → Nat → Except Stop (Round n)
  | 0, _, _ => .error .trap
  | steps + 1, round, column => do
    let previous ← entry round.reachedFrom[column]?
    let rowOf ← put round.rowOf column (← entry round.rowOf[previous]?)
    if previous = 0 then return { round with rowOf } else augment steps { round with rowOf } previous

def Registers.round (registers : Registers n) (row : Nat) : Except Stop (Round n) := do
  return { registers with
    rowOf := ← put registers.rowOf 0 row
    slack := Vector.replicate (n + 1) Int64.maxValue
    visited := Vector.replicate (n + 1) false }

def insertRow (costs : List (List Int64)) (registers : Registers n) (row : Nat) : Except Stop (Registers n) := do
  let round ← registers.round row
  let (round, column) ← round.grow costs (n + 2) 0
  return (← round.augment (n + 1) column).toRegisters

def assignRows (n : Nat) (costs : List (List Int64)) : Except Stop (Registers n) :=
  (List.finRange n).foldlM (fun registers (row : Fin n) => insertRow costs registers (row.val + 1))
    { rowPotential := Vector.replicate (n + 1) 0
      columnPotential := Vector.replicate (n + 1) 0
      rowOf := Vector.replicate (n + 1) 0
      reachedFrom := Vector.replicate (n + 1) 0 }

def readColumn (registers : Registers n) (columns : Vector (Option Nat) n) (j : Nat) :
    Except Stop (Vector (Option Nat) n) := do
  let row ← entry registers.rowOf[j]?
  if row = 0 then .error (.fault .incomplete)
  else
    let i ← predecessor row
    if (← entry columns[i]?).isSome then .error (.fault .incomplete)
    else put columns i (some (← predecessor j))

def readPair (table : Table) (solution : Solution) : Option Nat × Nat → Except Stop Solution
  | (none, _) => .error (.fault .incomplete)
  | (some column, row) =>
    if column < table.width then do
      let weight ← entry (← entry table[row]?)[column]?
      return { pairs := solution.pairs ++ [(row, column)], objective := ← addWeight solution.objective weight }
    else return solution

def readBack (table : Table) (columns : Vector (Option Nat) n) : Except Stop Solution :=
  (columns.toList.zipIdx.take table.size).foldlM (readPair table) { pairs := [], objective := 0 }

/-- The solver on 64-bit integers. Every step that could leave their range is checked: a sum or a difference that is no inner
number, the largest integer used as a number, an index out of bounds and a loop that goes on for too long all trap. -/
def solve (table : Table) : Except Stop Solution := do
  if table.isRagged then .error (.fault .ragged)
  else if table.size = 0 ∨ table.width = 0 then return { pairs := [], objective := 0 }
  else
    let n := max table.size table.width
    if table.largest > limit n then .error (.fault (.overflow table.largest))
    else
      let costs ← costs table (← ofWeight table.largest) n
      let registers ← assignRows n costs
      let columns ← (List.finRange n).foldlM (fun columns (j : Fin n) => readColumn registers columns (j.val + 1))
        (Vector.replicate n none)
      readBack table columns

@[simp]
theorem ok_bind {β : Type} (a : α) (f : α → Except Stop β) : (Except.ok a >>= f) = f a := rfl

theorem toInt_ofInt {x : Int} (inner : Inner x) : (Int64.ofInt x).toInt = x := by
  rw [Inner, Int64.toInt_minValue, Int64.toInt_maxValue] at inner
  apply Int64.toInt_ofInt_of_le <;> omega

theorem ofInt_lt_ofInt {x y : Int} (hx : Inner x) (hy : Inner y) : Int64.ofInt x < Int64.ofInt y ↔ x < y := by
  rw [Int64.lt_iff_toInt_lt, toInt_ofInt hx, toInt_ofInt hy]

theorem ofInt_lt_maxValue {x : Int} (inner : Inner x) : Int64.ofInt x < Int64.maxValue := by
  rw [Int64.lt_iff_toInt_lt, toInt_ofInt inner]
  exact inner.2

theorem add_ofInt {x y : Int} (hx : Inner x) (hy : Inner y) (sum : Inner (x + y)) :
    add (Int64.ofInt x) (Int64.ofInt y) = .ok (Int64.ofInt (x + y)) := by
  rw [add, calculated, toInt_ofInt hx, toInt_ofInt hy, if_pos ⟨hx, hy, sum⟩, Int64.ofInt_add]

theorem sub_ofInt {x y : Int} (hx : Inner x) (hy : Inner y) (difference : Inner (x - y)) :
    sub (Int64.ofInt x) (Int64.ofInt y) = .ok (Int64.ofInt (x - y)) := by
  rw [sub, calculated, toInt_ofInt hx, toInt_ofInt hy, if_pos ⟨hx, hy, difference⟩, Int64.ofInt_sub]

theorem entry_some (a : α) : entry (some a) = .ok a := rfl

theorem entry_get (xs : Vector α k) (i : Fin k) : entry xs[i.val]? = .ok (xs.get i) := by
  rw [Vector.getElem?_eq_getElem i.isLt]
  rfl

theorem entry_map {β : Type} (f : α → β) (xs : Vector α k) (i : Fin k) :
    entry (xs.map f)[i.val]? = .ok (f (xs.get i)) := by
  rw [entry_get, ← getElem_eq_get _ i i.isLt, Vector.getElem_map, getElem_eq_get]

theorem put_eq (xs : Vector α k) (i : Fin k) (a : α) : put xs i.val a = .ok (xs.set i.val a) :=
  dif_pos i.isLt

theorem put_map {β : Type} (f : α → β) (xs : Vector α k) (i : Fin k) (a : α) :
    put (xs.map f) i.val (f a) = .ok ((xs.set i.val a).map f) := by
  rw [put_eq, Vector.map_set]

theorem predecessor_of_ne {i : Nat} (nonzero : i ≠ 0) : predecessor i = .ok (i - 1) :=
  if_neg nonzero

theorem predecessor_succ (i : Nat) : predecessor (i + 1) = .ok i := rfl

end Words

end TreeAlign.Assignment
