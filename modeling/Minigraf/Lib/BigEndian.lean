import Mathlib.Algebra.Order.Ring.Int
import Mathlib.Data.List.Basic
import Mathlib.Data.List.Lex
import Minigraf.Lib.WordOrder

/-!
Bytes as numbers, most significant first. Byte strings of one length compare as the numbers
they stand for.
-/

namespace Minigraf

/-- The number the bytes stand for. -/
def beNat : List UInt8 → Nat
  | [] => 0
  | b :: bs => b.toNat * 256 ^ bs.length + beNat bs

theorem beNat_lt (bs : List UInt8) : beNat bs < 256 ^ bs.length := by
  induction bs with
  | nil => simp [beNat]
  | cons b bs ih =>
      have byte : b.toNat + 1 ≤ 256 := b.toNat_lt
      calc beNat (b :: bs) = b.toNat * 256 ^ bs.length + beNat bs := by simp only [beNat]
        _ < b.toNat * 256 ^ bs.length + 256 ^ bs.length := Nat.add_lt_add_left ih _
        _ = (b.toNat + 1) * 256 ^ bs.length := (Nat.succ_mul _ _).symm
        _ ≤ 256 * 256 ^ bs.length := Nat.mul_le_mul_right _ byte
        _ = 256 ^ (b :: bs).length := by rw [List.length_cons, Nat.pow_succ, Nat.mul_comm]

theorem beNat_append (as bs : List UInt8) : beNat (as ++ bs) = beNat as * 256 ^ bs.length + beNat bs := by
  induction as with
  | nil => simp [beNat]
  | cons a as ih =>
      simp only [List.cons_append, beNat, ih, List.length_append, Nat.pow_add, Nat.add_mul, Nat.mul_assoc,
        Nat.add_assoc]

/-- A leading byte decides unless it is the same. -/
theorem beNat_cons_lt_iff {a b : UInt8} {as bs : List UInt8} (same : as.length = bs.length) :
    beNat (a :: as) < beNat (b :: bs) ↔ a < b ∨ a = b ∧ beNat as < beNat bs := by
  have below := beNat_lt as
  have below' := beNat_lt bs
  rw [beNat, beNat, ← same] at *
  rcases lt_trichotomy a b with lt | rfl | gt
  · have first : a.toNat + 1 ≤ b.toNat := UInt8.lt_iff_toNat_lt.mp lt
    have carry := Nat.mul_le_mul_right (256 ^ as.length) first
    rw [Nat.succ_mul] at carry
    exact iff_of_true (by omega) (.inl lt)
  · simp
  · have first : b.toNat + 1 ≤ a.toNat := UInt8.lt_iff_toNat_lt.mp gt
    have carry := Nat.mul_le_mul_right (256 ^ as.length) first
    rw [Nat.succ_mul] at carry
    refine iff_of_false (by omega) fun no => ?_
    cases no with
    | inl lt => exact absurd lt (lt_asymm gt)
    | inr here => exact absurd here.1 gt.ne'

theorem lt_iff_beNat_lt {as bs : List UInt8} (same : as.length = bs.length) : as < bs ↔ beNat as < beNat bs := by
  induction as generalizing bs with
  | nil =>
      have empty : bs = [] := List.length_eq_zero_iff.mp same.symm
      simp [empty]
  | cons a as ih =>
      cases bs with
      | nil => cases same
      | cons b bs =>
          have rest : as.length = bs.length := Nat.succ.inj same
          rw [List.cons_lt_cons_iff, beNat_cons_lt_iff rest, ih rest]

theorem eq_iff_beNat_eq {as bs : List UInt8} (same : as.length = bs.length) : as = bs ↔ beNat as = beNat bs := by
  constructor
  · exact congrArg beNat
  · intro equal
    rcases lt_trichotomy as bs with lt | eq | gt
    · exact absurd equal ((lt_iff_beNat_lt same).mp lt).ne
    · exact eq
    · exact absurd equal.symm ((lt_iff_beNat_lt same.symm).mp gt).ne

end Minigraf
