import Mathlib.Data.Nat.Bitwise
import Minigraf.Query.ValueOrder

/-!
Floats by the numbers their bit patterns are: sign and magnitude.
-/

namespace Minigraf

/-! ## Sign transforms -/

theorem xor_top {n : Nat} (below : n < 2 ^ 63) : n ^^^ 2 ^ 63 = 2 ^ 63 + n := by
  apply Nat.eq_of_testBit_eq
  intro i
  rw [Nat.testBit_xor, Nat.testBit_two_pow]
  rcases lt_trichotomy i 63 with lt | rfl | gt
  · rw [Nat.testBit_two_pow_add_gt lt]
    simp [lt.ne']
  · rw [Nat.testBit_two_pow_add_eq]
    simp
  · have wide : 2 ^ 64 ≤ 2 ^ i := Nat.pow_le_pow_right (by decide) gt
    rw [Nat.testBit_lt_two_pow (by omega), Nat.testBit_lt_two_pow (by omega)]
    simp [gt.ne]

theorem toNat_xor_sign (w : UInt64) : (w ^^^ 0x8000000000000000).toNat =
    if w.toNat < 2 ^ 63 then 2 ^ 63 + w.toNat else w.toNat - 2 ^ 63 := by
  have range := w.toNat_lt
  have meaning : (w ^^^ 0x8000000000000000).toNat = w.toNat ^^^ 2 ^ 63 := UInt64.toNat_xor w _
  rw [meaning]
  split
  · apply xor_top
    assumption
  · have parts : w.toNat = (w.toNat - 2 ^ 63) ^^^ 2 ^ 63 := by
      rw [xor_top (by omega)]
      omega
    rw [parts, Nat.xor_assoc, Nat.xor_self, Nat.xor_zero, ← parts]

theorem toNat_not (w : UInt64) : (~~~w).toNat = 2 ^ 64 - 1 - w.toNat := BitVec.toNat_not

theorem shiftRight_sign_iff (w : UInt64) : w >>> 63 = 0 ↔ w.toNat < 2 ^ 63 := by
  have range := w.toNat_lt
  have meaning : (w >>> 63).toNat = w.toNat >>> 63 := UInt64.toNat_shiftRight w _
  rw [← UInt64.toNat_inj, meaning, Nat.shiftRight_eq_div_pow]
  change _ = 0 ↔ _
  omega

theorem toNat_magnitude (w : UInt64) : (w &&& 0x7FFFFFFFFFFFFFFF).toNat = w.toNat % 2 ^ 63 := by
  have meaning : (w &&& 0x7FFFFFFFFFFFFFFF).toNat = w.toNat &&& (2 ^ 63 - 1) := UInt64.toNat_and w _
  rw [meaning, Nat.and_two_pow_sub_one_eq_mod]

/-! ## Floats -/

/-- A negative sign, that of `-0.0` among them. -/
def F64.isNegative (f : F64) : Bool := decide (¬f.bits >>> 63 = 0)

theorem F64.isNegative_iff (f : F64) : f.isNegative = true ↔ 2 ^ 63 ≤ f.bits.toNat := by
  rw [isNegative, decide_eq_true_eq, shiftRight_sign_iff, not_lt]

theorem F64.place_eq (f : F64) : f.place =
    if f.bits.toNat < 2 ^ 63 then (f.bits.toNat : Int) else 2 ^ 63 - f.bits.toNat := by
  have range := f.bits.toNat_lt
  simp only [place, shiftRight_sign_iff, toNat_magnitude]
  split <;> omega

def Value.IsNaN : Value → Prop
  | .float f => f.isNaN = true
  | _ => False

end Minigraf
