import Mathlib.Order.Defs.LinearOrder

/-!
Linear orders on the fixed-width words. Lean's core proves the laws of the order
on each word; they are collected here as instances, so that keys and counters
built from words can be compared, sorted and bounded like any other order.
-/

instance UInt8.instLinearOrder : LinearOrder UInt8 where
  le_refl := UInt8.le_refl
  le_trans := fun _ _ _ => UInt8.le_trans
  le_antisymm := fun _ _ => UInt8.le_antisymm
  le_total := UInt8.le_total
  lt_iff_le_not_ge := fun a b => by
    rw [UInt8.lt_iff_toNat_lt, UInt8.le_iff_toNat_le, UInt8.le_iff_toNat_le]; omega
  toDecidableLE := inferInstance
  max_def := fun _ _ => rfl
  min_def := fun _ _ => rfl
  compare_eq_compareOfLessAndEq := fun _ _ => rfl

instance UInt32.instLinearOrder : LinearOrder UInt32 where
  le_refl := UInt32.le_refl
  le_trans := fun _ _ _ => UInt32.le_trans
  le_antisymm := fun _ _ => UInt32.le_antisymm
  le_total := UInt32.le_total
  lt_iff_le_not_ge := fun a b => by
    rw [UInt32.lt_iff_toNat_lt, UInt32.le_iff_toNat_le, UInt32.le_iff_toNat_le]; omega
  toDecidableLE := inferInstance
  max_def := fun _ _ => rfl
  min_def := fun _ _ => rfl
  compare_eq_compareOfLessAndEq := fun _ _ => rfl

instance UInt64.instLinearOrder : LinearOrder UInt64 where
  le_refl := UInt64.le_refl
  le_trans := fun _ _ _ => UInt64.le_trans
  le_antisymm := fun _ _ => UInt64.le_antisymm
  le_total := UInt64.le_total
  lt_iff_le_not_ge := fun a b => by
    rw [UInt64.lt_iff_toNat_lt, UInt64.le_iff_toNat_le, UInt64.le_iff_toNat_le]; omega
  toDecidableLE := inferInstance
  max_def := fun _ _ => rfl
  min_def := fun _ _ => rfl
  compare_eq_compareOfLessAndEq := fun _ _ => rfl

instance Int64.instLinearOrder : LinearOrder Int64 where
  le_refl := Int64.le_refl
  le_trans := fun _ _ _ => Int64.le_trans
  le_antisymm := fun _ _ => Int64.le_antisymm
  le_total := Int64.le_total
  lt_iff_le_not_ge := fun a b => by
    rw [Int64.lt_iff_toInt_lt, Int64.le_iff_toInt_le, Int64.le_iff_toInt_le]; omega
  toDecidableLE := inferInstance
  max_def := fun _ _ => rfl
  min_def := fun _ _ => rfl
  compare_eq_compareOfLessAndEq := fun _ _ => rfl
