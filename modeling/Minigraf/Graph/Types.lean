import Mathlib.Algebra.Order.Ring.Int
import Mathlib.Data.List.Basic
import Minigraf.Lib.WordOrder

/-!
The data model of `src/graph/types.rs`: entity ids, values and facts.

A UUID is its 128-bit number, which orders as its bytes do. A float is its bit
pattern: storage, encoding and hashing only ever read `to_bits`. Rust's strings
are Lean's; both compare by code point.
-/

namespace Minigraf

abbrev EntityId := Fin (2 ^ 128)

instance EntityId.instNeZero : NeZero (2 ^ 128) := ⟨by decide⟩

abbrev Attribute := String

abbrev TxId := UInt64

/-- An `f64` by its bit pattern. -/
structure F64 where
  bits : UInt64
  deriving DecidableEq, Repr

/-- Exponent all ones and a non-zero mantissa, whatever the sign. -/
def F64.isNaN (f : F64) : Bool :=
  decide (0x7FF0000000000000 < f.bits &&& 0x7FFFFFFFFFFFFFFF)

inductive Value where
  | string (s : String)
  | integer (i : Int64)
  | float (f : F64)
  | boolean (b : Bool)
  | ref (id : EntityId)
  | keyword (k : String)
  | null
  deriving DecidableEq, Repr

/-- The open end of a valid-time window (`i64::MAX`). -/
def VALID_TIME_FOREVER : Int64 := Int64.maxValue

structure Fact where
  entity : EntityId
  attr : Attribute
  value : Value
  txId : TxId
  txCount : UInt64
  validFrom : Int64
  validTo : Int64
  asserted : Bool
  deriving DecidableEq, Repr

end Minigraf
