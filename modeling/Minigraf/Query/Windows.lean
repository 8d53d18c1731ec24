import Minigraf.Lib.Sorting
import Minigraf.Query.Parser
import Minigraf.Query.WindowOps

/-!
`apply_window_functions` of `src/query/datalog/executor.rs`.

The rows of a partition are those whose partition values are `==`: a NaN is alone. They are
sorted by `value_cmp` on their order values, a missing one taken for nil, and get a value
each, in the order they then stand in.

What the standard library leaves open is a parameter: the order in which a `HashMap` is gone
through, and what `sort_by` does with a comparison that is no preorder.
-/

namespace Minigraf

/-- The keys of a row: a variable, `__agg_{i}` or `__win_{i}`. -/
inductive RowKey where
  | var (v : Var)
  | agg (i : Nat)
  | win (i : Nat)
  deriving DecidableEq, Repr

/-- As in `Bindings`, the first entry for a key counts. -/
abbrev Row := List (RowKey × Value)

inductive WindowError where
  | panicked
  | int030 (name : String)
  | int032
  deriving DecidableEq, Repr

/-- The operations of an aggregate, built in or registered by a caller. -/
structure AggImpl where
  State : Type
  init : State
  step : State → Value → State
  finalise : State → Nat → Value

def AggImpl.builtin (ops : WindowOps) : AggImpl where
  State := AggState
  init := ops.init
  step := ops.step
  finalise state _ := ops.finalise state

/-- One value a row, of the rows so far and their number. -/
def AggImpl.running (impl : AggImpl) (acc : impl.State) (rowCount : Nat) : List Value → List Value
  | [] => []
  | v :: vs => impl.finalise (impl.step acc v) (rowCount + 1) :: running impl (impl.step acc v) (rowCount + 1) vs

def WindowSpec.funcName (ws : WindowSpec) : String :=
  match ws.func with
  | .sum => "sum"
  | .count => "count"
  | .min => "min"
  | .max => "max"
  | .avg => "avg"
  | .rank => "rank"
  | .rowNumber => "row-number"
  | .udf name => name

/-! ## Cells -/

/-- Row indices come from the rows themselves, so there is a row. -/
def rowAt (rows : List Row) (i : Nat) : Row := rows[i]?.getD []

def partitionKey (ws : WindowSpec) (rows : List Row) (i : Nat) : Option Value :=
  ws.partitionBy.bind fun v => (rowAt rows i).lookup (.var v)

def orderKey (ws : WindowSpec) (rows : List Row) (i : Nat) : Value :=
  ((rowAt rows i).lookup (.var ws.orderBy)).getD .null

def windowInput (ws : WindowSpec) (rows : List Row) (i : Nat) : Value :=
  (ws.var.bind fun v => (rowAt rows i).lookup (.var v)).getD .null

/-! ## Partitions -/

/-- `==` on partition keys. -/
def sameKey : Option Value → Option Value → Bool
  | none, none => true
  | some v, some w => v.eq w
  | _, _ => false

/-- `partitions.entry(part_key).or_default().push(row_idx)`. -/
def pushRow (key : Option Value) (i : Nat) : List (Option Value × List Nat) → List (Option Value × List Nat)
  | [] => [(key, [i])]
  | (k, rows) :: rest => if sameKey k key then (k, rows ++ [i]) :: rest else (k, rows) :: pushRow key i rest

def partitions (ws : WindowSpec) (rows : List Row) : List (Option Value × List Nat) :=
  (List.range rows.length).foldl (fun parts i => pushRow (partitionKey ws rows i) i parts) []

/-- Some order of the entries of a map. -/
structure Iteration (α : Type) where
  values : List α → List α
  perm : ∀ entries, (values entries).Perm entries

/-! ## Window values -/

def compareKeys (order : Order) (a b : Value) : Ordering :=
  match order with
  | .asc => valueCmp a b
  | .desc => (valueCmp a b).swap

def compareRows (order : Order) (a b : Value × Nat) : Ordering := compareKeys order a.1 b.1

/-- `prev != Some(key)`. -/
def changes (prev : Option Value) (key : Value) : Bool :=
  match prev with
  | none => true
  | some k => !k.eq key

/-- From the row of this number on, with the last rank given and the key it was given at. -/
def rankValues (prev : Option Value) (rank rowNum : Nat) : List Value → List Value
  | [] => []
  | key :: keys =>
      if changes prev key then .integer (.ofNat rowNum) :: rankValues (some key) rowNum (rowNum + 1) keys
      else .integer (.ofNat rank) :: rankValues prev rank (rowNum + 1) keys

def rowNumbers (n : Nat) : Except WindowError (List Value) :=
  if n < 2 ^ 63 then .ok ((List.range n).map fun p => .integer (.ofNat (p + 1))) else .error .int032

def windowValues (registry : String → Option AggImpl) (ws : WindowSpec) (rows : List Row) (keyed : List (Value × Nat)) :
    Except WindowError (List Value) :=
  match ws.func with
  | .rowNumber => rowNumbers keyed.length
  | .rank => .ok (rankValues none 1 1 (keyed.map Prod.fst))
  | _ =>
      match registry ws.funcName with
      | none => .error (.int030 ws.funcName)
      | some impl => .ok (impl.running impl.init 0 (keyed.map fun entry => windowInput ws rows entry.2))

def writeBack (key : RowKey) (pairs : List (Nat × Value)) (rows : List Row) : List Row :=
  pairs.foldl (fun rows (i, v) => rows.modify i ((key, v) :: ·)) rows

section

variable (sortBy : SortBy (Value × Nat)) (iterate : Iteration (Option Value × List Nat))
  (registry : String → Option AggImpl)

def keyedRows (ws : WindowSpec) (rows : List Row) (part : List Nat) : List (Value × Nat) :=
  part.map fun i => (orderKey ws rows i, i)

/-- One partition of the `n`-th entry of the find list. -/
def windowPartition (n : Nat) (ws : WindowSpec) (rows : List Row) (part : List Nat) : Except WindowError (List Row) :=
  match sortBy.sort (compareRows ws.order) (keyedRows ws rows part) with
  | none => .error .panicked
  | some keyed => do
      let values ← windowValues registry ws rows keyed
      pure (writeBack (.win n) ((keyed.map Prod.snd).zip values) rows)

def windowPartitions (n : Nat) (ws : WindowSpec) : List (List Nat) → List Row → Except WindowError (List Row)
  | [], rows => .ok rows
  | part :: parts, rows => do
      let rows ← windowPartition sortBy registry n ws rows part
      windowPartitions n ws parts rows

/-- From the `n`-th entry of the find list on. -/
def windowSpecs (n : Nat) : List FindSpec → List Row → Except WindowError (List Row)
  | [], rows => .ok rows
  | .window ws :: specs, rows => do
      let rows ← windowPartitions sortBy registry n ws ((iterate.values (partitions ws rows)).map Prod.snd) rows
      windowSpecs (n + 1) specs rows
  | _ :: specs, rows => windowSpecs (n + 1) specs rows

def applyWindowFunctions (bindings : List Row) (findSpecs : List FindSpec) : Except WindowError (List Row) :=
  windowSpecs sortBy iterate registry 0 findSpecs bindings

end
end Minigraf
