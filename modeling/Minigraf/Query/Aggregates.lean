import Mathlib.Data.Int.Order.Basic
import Minigraf.Lib.Grouping
import Minigraf.Query.Expr
import Minigraf.Query.ValueOrder

/-!
The built-in aggregates of `apply_builtin_aggregate` in `src/query/datalog/functions.rs`,
over the values of a group that are not nil.

Integer sums saturate at every step, so a sum is the sum of its values, and does not depend
on their order, while the positive and the negative ones each stay in range. A sum with a
float among its values is taken in `f64`.
-/

namespace Minigraf

inductive Aggregate where
  | count
  | countDistinct
  | sum
  | sumDistinct
  | min
  | max
  deriving DecidableEq, Repr

def Aggregate.name : Aggregate → String
  | .count => "count"
  | .countDistinct => "count-distinct"
  | .sum => "sum"
  | .sumDistinct => "sum-distinct"
  | .min => "min"
  | .max => "max"

/-- `value_type_name`. -/
def Value.typeName : Value → String
  | .string _ => "String"
  | .integer _ => "Integer"
  | .float _ => "Float"
  | .boolean _ => "Boolean"
  | .ref _ => "Ref"
  | .keyword _ => "Keyword"
  | .null => "Null"

/-- The errors of the aggregates, with the values their texts name the types of. -/
inductive AggError where
  | int041 (got : Value)
  | int042
  | int043 (agg : Aggregate) (first other : Value)
  | int044 (agg : Aggregate) (got : Value)
  deriving DecidableEq, Repr

def AggError.message : AggError → String
  | .int041 got => "sum: expected Integer, Float, or Null, got " ++ got.typeName
  | .int042 => "min/max: no non-null values in group"
  | .int043 agg first other =>
      agg.name ++ ": cannot compare " ++ first.typeName ++ " and " ++ other.typeName ++ " values"
  | .int044 agg got => agg.name ++ ": expected Integer, Float, String, or Null, got " ++ got.typeName

/-- `i64::saturating_add`. -/
def saturatingAdd (a b : Int64) : Int64 :=
  if Int64.maxValue.toInt < a.toInt + b.toInt then Int64.maxValue
  else if a.toInt + b.toInt < Int64.minValue.toInt then Int64.minValue
  else Int64.ofInt (a.toInt + b.toInt)

/-- A length as an integer. -/
def countValue (n : Nat) : Value := .integer (if n < 2 ^ 63 then Int64.ofNat n else Int64.maxValue)

/-- The values in a `BTreeSet`, in its order. -/
def distinct (values : List Value) : List Value :=
  (Grouping.collect Value.rank id values).entries.map fun entry => entry.2.1

def Value.isNull (v : Value) : Bool := v matches .null

def addFloat (sum : Float) : Value → Except AggError Float
  | .float f => .ok (sum + f.toFloat)
  | .integer i => .ok (sum + asFloat i)
  | other => .error (.int041 other)

def sumFloats (values : List Value) : Except AggError Float := values.foldlM addFloat 0.0

def addInteger (sum : Int64) : Value → Except AggError Int64
  | .integer i => .ok (saturatingAdd sum i)
  | other => .error (.int041 other)

def sumIntegers (values : List Value) : Except AggError Int64 := values.foldlM addInteger 0

/-- The sum of values, of no value zero. -/
def sumValues (values : List Value) : Except AggError Value :=
  if values.isEmpty then .ok (.integer 0)
  else if values.any Value.isFloat then (sumFloats values).map fun x => .float (.ofFloat x)
  else (sumIntegers values).map .integer

/-- Whether `min` or `max` prefers the value the accumulator compares to in this way. -/
def Aggregate.replaces (agg : Aggregate) (ordering : Ordering) : Bool :=
  match agg with
  | .min => ordering.isGT
  | _ => ordering.isLT

/-- The order of `min` and `max`: two floats one of which is a NaN compare as equal. -/
def extremeOrdering : Value → Value → Option Ordering
  | .integer a, .integer b => some (compare a.toInt b.toInt)
  | .float a, .float b => some ((a.partialCmp b).getD .eq)
  | .string a, .string b => some (compare a b)
  | _, _ => none

def extremeStep (agg : Aggregate) (acc v : Value) : Except AggError Value :=
  match extremeOrdering acc v with
  | none => .error (.int044 agg v)
  | some ordering => .ok (if agg.replaces ordering then v else acc)

def extreme (agg : Aggregate) (values : List Value) : Except AggError Value :=
  match values with
  | [] => .error .int042
  | first :: rest =>
      match rest.find? fun v => decide (v.discriminant ≠ first.discriminant) with
      | some v => .error (.int043 agg first v)
      | none => (first :: rest).foldlM (extremeStep agg) first

def applyBuiltinAggregate (agg : Aggregate) (values : List Value) : Except AggError Value :=
  match agg with
  | .count => .ok (countValue values.length)
  | .countDistinct => .ok (countValue (distinct values).length)
  | .sum => sumValues values
  | .sumDistinct => sumValues (distinct values)
  | .min => extreme .min values
  | .max => extreme .max values

/-! ## Errors by their text -/

/-- The text by which a group without values is told apart. -/
def AggError.skips (e : AggError) : Bool :=
  decide ("no non-null values in group".toList <:+: e.message.toList)

theorem Aggregate.hyphen_name {agg : Aggregate} (h : agg = .min ∨ agg = .max) : '-' ∉ agg.name.toList := by
  rcases h with rfl | rfl <;> simp [name]

theorem Value.hyphen_typeName (v : Value) : '-' ∉ v.typeName.toList := by
  cases v <;> simp [typeName]

theorem AggError.skips_iff_contained (e : AggError) :
    e.skips = true ↔ "no non-null values in group".toList <:+: e.message.toList := decide_eq_true_iff

theorem AggError.not_skips {e : AggError} (plain : '-' ∉ e.message.toList) : ¬ e.skips = true := by
  rw [skips_iff_contained]
  intro part
  have hyphen : '-' ∈ "no non-null values in group".toList := by decide
  exact plain (part.subset hyphen)

theorem AggError.hyphen_int041 (got : Value) : '-' ∉ (int041 got).message.toList := by
  change '-' ∉ (("sum: expected Integer, Float, or Null, got " ++ got.typeName : String)).toList
  rw [String.toList_append, List.mem_append, not_or]
  exact ⟨by simp, got.hyphen_typeName⟩

theorem AggError.hyphen_int043 {agg : Aggregate} (own : agg = .min ∨ agg = .max) (first other : Value) :
    '-' ∉ (int043 agg first other).message.toList := by
  change '-' ∉ ((agg.name ++ ": cannot compare " ++ first.typeName ++ " and " ++ other.typeName ++
    " values" : String)).toList
  simp only [String.toList_append, List.mem_append, not_or]
  exact ⟨⟨⟨⟨⟨Aggregate.hyphen_name own, by simp⟩, first.hyphen_typeName⟩, by simp⟩,
    other.hyphen_typeName⟩, by simp⟩

theorem AggError.hyphen_int044 {agg : Aggregate} (own : agg = .min ∨ agg = .max) (got : Value) :
    '-' ∉ (int044 agg got).message.toList := by
  change '-' ∉ ((agg.name ++ ": expected Integer, Float, String, or Null, got " ++ got.typeName :
    String)).toList
  simp only [String.toList_append, List.mem_append, not_or]
  exact ⟨⟨Aggregate.hyphen_name own, by simp⟩, got.hyphen_typeName⟩

theorem AggError.skips_int042 : int042.skips = true := by
  rw [skips_iff_contained]
  refine ⟨"min/max: ".toList, [], ?_⟩
  change _ = "min/max: no non-null values in group".toList
  simp

end Minigraf
