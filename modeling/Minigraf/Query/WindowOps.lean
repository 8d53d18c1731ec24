import Minigraf.Query.AggregateValues
import Minigraf.Query.OrderBy

/-!
The incremental operations of the built-in aggregates, as `FunctionRegistry::with_builtins`
of `src/query/datalog/functions.rs` registers them for window functions, and the counts and
extremes they come to, which are those of `apply_builtin_aggregate`.
-/

namespace Minigraf

inductive AggState where
  | sum (total : Float) (isFloat : Bool)
  | count (n : Int64)
  | minMax (current : Option Value)
  | avg (sum : Float) (count : Nat)

structure WindowOps where
  init : AggState
  step : AggState → Value → AggState
  finalise : AggState → Value

/-- `as i64`: truncated, and brought into range. -/
def asInt64 (x : Float) : Int64 := x.toModel.toInt64

def countOps : WindowOps where
  init := .count 0
  step state v :=
    match state with
    | .count n => if v.isNull then .count n else .count (saturatingAdd n 1)
    | state => state
  finalise
    | .count n => .integer n
    | _ => .null

def sumOps : WindowOps where
  init := .sum 0.0 false
  step state v :=
    match state, v with
    | .sum total isFloat, .integer i => .sum (total + asFloat i) isFloat
    | .sum total _, .float f => .sum (total + f.toFloat) true
    | state, _ => state
  finalise
    | .sum total isFloat => if isFloat then .float (.ofFloat total) else .integer (asInt64 total)
    | _ => .null

/-- The operations of `min` and `max`, by when a value takes the place of the current one. -/
def extremeOps (replaces : Value → Value → Bool) : WindowOps where
  init := .minMax none
  step state v :=
    match state with
    | .minMax current =>
        if v.isNull then .minMax current
        else
          match current with
          | none => .minMax (some v)
          | some cur => if replaces v cur then .minMax (some v) else .minMax (some cur)
    | state => state
  finalise
    | .minMax current => current.getD .null
    | _ => .null

def minOps : WindowOps := extremeOps fun v cur => valueLt v cur

def maxOps : WindowOps := extremeOps fun v cur => valueLt cur v

/-- The count is a `usize`. -/
def avgOps : WindowOps where
  init := .avg 0.0 0
  step state v :=
    match state, v with
    | .avg sum count, .integer i => .avg (sum + asFloat i) (min (count + 1) (2 ^ 64 - 1))
    | .avg sum count, .float f => .avg (sum + f.toFloat) (min (count + 1) (2 ^ 64 - 1))
    | state, _ => state
  finalise
    | .avg sum count => if count = 0 then .null else .float (.ofFloat (sum / .ofModel (.ofNat count)))
    | _ => .null

/-- What stands in for the operations of an aggregate with no window form. -/
def stubOps : WindowOps where
  init := .count 0
  step state _ := state
  finalise _ := .null

/-- The aggregates of `with_builtins`. -/
def withBuiltins (name : String) : Option WindowOps :=
  match name with
  | "count" => some countOps
  | "sum" => some sumOps
  | "min" => some minOps
  | "max" => some maxOps
  | "avg" => some avgOps
  | "count-distinct" => some stubOps
  | "sum-distinct" => some stubOps
  | _ => none

/-- The values of the rows of a partition, one after the other. -/
def WindowOps.running (ops : WindowOps) (acc : AggState) : List Value → List Value
  | [] => []
  | v :: vs => ops.finalise (ops.step acc v) :: running ops (ops.step acc v) vs

theorem WindowOps.running_getLast (ops : WindowOps) (acc : AggState) {vs : List Value} (some_ : vs ≠ []) :
    (ops.running acc vs).getLast? = some (ops.finalise (vs.foldl ops.step acc)) := by
  induction vs generalizing acc with
  | nil => exact absurd rfl some_
  | cons v vs ih =>
      cases vs with
      | nil => rfl
      | cons w vs =>
          rw [running, List.getLast?_cons, ih _ (List.cons_ne_nil w vs)]
          rfl

/-! ## Integers and nils -/

/-- Rows that hold integers and nils. -/
def IntegersOrNil (values : List Value) : Prop := ∀ v ∈ values, v = .null ∨ ∃ i, v = .integer i

def nonNulls (values : List Value) : List Value := values.filter fun v => !v.isNull

theorem nonNulls_integers {values : List Value} (cells : IntegersOrNil values) :
    nonNulls values = (integersOf values).map .integer := by
  induction values with
  | nil => rfl
  | cons v values ih =>
      have rest := ih fun w mem => cells w (List.mem_cons_of_mem v mem)
      rcases cells v List.mem_cons_self with rfl | ⟨i, rfl⟩
      · exact rest
      · exact congrArg _ rest

/-- A fold that leaves nils out is one over the integers. -/
theorem foldl_integersOf {α : Type} {step : α → Value → α} {values : List Value} (cells : IntegersOrNil values)
    (skips : ∀ a, step a .null = a) (a : α) :
    values.foldl step a = (integersOf values).foldl (fun a i => step a (.integer i)) a := by
  induction values generalizing a with
  | nil => rfl
  | cons v values ih =>
      have rest := ih fun w mem => cells w (List.mem_cons_of_mem v mem)
      rcases cells v List.mem_cons_self with rfl | ⟨i, rfl⟩
      · rw [List.foldl_cons, skips]
        exact rest a
      · exact rest _

/-- What the operations end up with on the rows of a partition. -/
def WindowOps.last (ops : WindowOps) (values : List Value) : Value := ops.finalise (values.foldl ops.step ops.init)

/-! ## Counts -/

theorem countValue_succ (n : Nat) :
    ∀ c, countValue n = .integer c → countValue (n + 1) = .integer (saturatingAdd c 1) := by
  intro c own
  have greatest : Int64.maxValue.toInt = 9223372036854775807 := rfl
  have one : (1 : Int64).toInt = 1 := rfl
  have small : ∀ {m : Nat}, m < 2 ^ 63 → (Int64.ofNat m).toInt = m := fun below => Int64.toInt_ofNat_of_lt below
  cases own
  rw [countValue]
  congr 1
  apply Int64.toInt_inj.mp
  rw [saturatingAdd_toInt, clamp]
  have least : Int64.minValue.toInt = -9223372036854775808 := rfl
  by_cases next : n + 1 < 2 ^ 63
  · rw [if_pos next, if_pos (by omega), small next, small (by omega)]
    omega
  · rw [if_neg next]
    by_cases top : n < 2 ^ 63
    · rw [if_pos top, small top]
      omega
    · rw [if_neg top]
      omega

theorem countOps_foldl (is : List Int64) {n : Nat} {c : Int64} (own : countValue n = .integer c) :
    ∃ c', is.foldl (fun a i => countOps.step a (.integer i)) (.count c) = .count c' ∧
      countValue (n + is.length) = .integer c' := by
  induction is generalizing n c with
  | nil => exact ⟨c, rfl, own⟩
  | cons i is ih =>
      obtain ⟨c', run, counted⟩ := ih (countValue_succ n c own)
      refine ⟨c', run, ?_⟩
      rw [List.length_cons, Nat.add_comm is.length, ← Nat.add_assoc]
      exact counted

theorem countOps_last {values : List Value} (cells : IntegersOrNil values) :
    applyBuiltinAggregate .count (nonNulls values) = .ok (countOps.last values) := by
  have skips : ∀ a, countOps.step a .null = a := by
    intro a
    cases a <;> rfl
  obtain ⟨c, run, counted⟩ := countOps_foldl (integersOf values) (n := 0) (c := 0) rfl
  have final : countOps.last values = .integer c := by
    rw [WindowOps.last, foldl_integersOf cells skips]
    exact congrArg countOps.finalise run
  rw [nonNulls_integers cells, applyBuiltinAggregate, List.length_map, final, ← counted, Nat.zero_add]

/-! ## Extremes -/

/-- The integer kept of two. -/
def Aggregate.keep (agg : Aggregate) (a b : Int64) : Int64 := if agg.replaces (compare a.toInt b.toInt) then b else a

theorem extreme_keep (agg : Aggregate) (i : Int64) (is : List Int64) :
    extreme agg ((i :: is).map .integer) = .ok (.integer (is.foldl agg.keep i)) := by
  have steps : ∀ (is : List Int64) (a : Int64),
      (is.map Value.integer).foldlM (extremeStep agg) (.integer a) = .ok (.integer (is.foldl agg.keep a)) := by
    intro is
    induction is with
    | nil => exact fun _ => rfl
    | cons j is ih =>
        intro a
        have step : extremeStep agg (.integer a) (.integer j) = .ok (.integer (agg.keep a j)) := by
          rw [Aggregate.keep]
          simp only [extremeStep, extremeOrdering]
          split <;> rfl
        rw [List.map_cons, List.foldlM_cons_ok step]
        exact ih _
  have same : (is.map Value.integer).find? (fun v => decide (v.discriminant ≠ (Value.integer i).discriminant)) = none := by
    rw [List.find?_eq_none]
    intro v mem
    obtain ⟨j, _, rfl⟩ := List.mem_map.mp mem
    simp [Value.discriminant]
  have own : agg.keep i i = i := by
    rw [Aggregate.keep]
    split <;> rfl
  rw [List.map_cons, extreme_fold same, ← List.map_cons, steps, List.foldl_cons, own]

theorem extremeOps_last {agg : Aggregate} {replaces : Value → Value → Bool}
    (agree : ∀ a b : Int64, replaces (.integer b) (.integer a) = agg.replaces (compare a.toInt b.toInt))
    {values : List Value} (cells : IntegersOrNil values) (some_ : integersOf values ≠ []) :
    extreme agg (nonNulls values) = .ok ((extremeOps replaces).last values) := by
  have skips : ∀ a, (extremeOps replaces).step a .null = a := by
    intro a
    cases a <;> rfl
  have steps : ∀ (is : List Int64) (a : Int64),
      is.foldl (fun a i => (extremeOps replaces).step a (.integer i)) (.minMax (some (.integer a))) =
        .minMax (some (.integer (is.foldl agg.keep a))) := by
    intro is
    induction is with
    | nil => exact fun _ => rfl
    | cons j is ih =>
        intro a
        have step : (extremeOps replaces).step (.minMax (some (.integer a))) (.integer j) =
            .minMax (some (.integer (agg.keep a j))) := by
          change (if replaces (.integer j) (.integer a) then _ else _) = _
          rw [agree, Aggregate.keep]
          split <;> rfl
        rw [List.foldl_cons, step]
        exact ih _
  rw [nonNulls_integers cells, WindowOps.last, foldl_integersOf cells skips]
  cases ints : integersOf values with
  | nil => exact absurd ints some_
  | cons i is =>
      rw [extreme_keep]
      exact congrArg (fun state => Except.ok ((extremeOps replaces).finalise state)) (steps is i).symm

theorem valueLt_replaces_min (a b : Int64) :
    valueLt (.integer b) (.integer a) = Aggregate.replaces .min (compare a.toInt b.toInt) := by
  rw [Bool.eq_iff_iff, valueLt_iff]
  change compare b.toInt a.toInt = .lt ↔ (compare a.toInt b.toInt).isGT = true
  rw [compare_lt_iff_lt, Ordering.isGT_iff_eq_gt, compare_gt_iff_gt]

theorem valueLt_replaces_max (a b : Int64) :
    valueLt (.integer a) (.integer b) = Aggregate.replaces .max (compare a.toInt b.toInt) := by
  rw [Bool.eq_iff_iff, valueLt_iff]
  change compare a.toInt b.toInt = .lt ↔ (compare a.toInt b.toInt).isLT = true
  rw [Ordering.isLT_iff_eq_lt]

theorem minOps_last {values : List Value} (cells : IntegersOrNil values) (some_ : integersOf values ≠ []) :
    applyBuiltinAggregate .min (nonNulls values) = .ok (minOps.last values) :=
  extremeOps_last valueLt_replaces_min cells some_

theorem maxOps_last {values : List Value} (cells : IntegersOrNil values) (some_ : integersOf values ≠ []) :
    applyBuiltinAggregate .max (nonNulls values) = .ok (maxOps.last values) :=
  extremeOps_last valueLt_replaces_max cells some_

end Minigraf
