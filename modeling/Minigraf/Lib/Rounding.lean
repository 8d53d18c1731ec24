import Mathlib.Algebra.Order.Ring.Int
import Mathlib.Data.Nat.Log
import Mathlib.Tactic.Ring

/-!
Rounding to a number of significant bits, to the nearest and between two to the even one.
-/

namespace Minigraf

/-- How many bits of a number do not fit. -/
def excess (p n : Nat) : Nat := n.log2 + 1 - p

/-- Round `q` by the part `r` of a whole `d` that is dropped. -/
def roundUp (q r d : Nat) : Nat := if 2 * r < d ∨ 2 * r = d ∧ q % 2 = 0 then q else q + 1

/-- A number rounded to `p` bits. -/
def roundBits (p n : Nat) : Nat := roundUp (n / 2 ^ excess p n) (n % 2 ^ excess p n) (2 ^ excess p n) * 2 ^ excess p n

def roundInt (p : Nat) (z : Int) : Int := if z < 0 then -(roundBits p z.natAbs : Int) else roundBits p z.natAbs

theorem roundUp_exact (q : Nat) {d : Nat} (some : 0 < d) : roundUp q 0 d = q := if_pos (.inl some)

theorem le_roundUp (q r d : Nat) : q ≤ roundUp q r d := by
  rw [roundUp]
  split <;> omega

theorem roundUp_le (q r d : Nat) : roundUp q r d ≤ q + 1 := by
  rw [roundUp]
  split <;> omega

/-- Both the dropped part and the whole may be scaled. -/
theorem roundUp_scale (q r d : Nat) {c : Nat} (some : 0 < c) : roundUp q (r * c) (d * c) = roundUp q r d := by
  have lt : 2 * (r * c) < d * c ↔ 2 * r < d := by
    rw [← Nat.mul_assoc]
    exact Nat.mul_lt_mul_right some
  have eq : 2 * (r * c) = d * c ↔ 2 * r = d := by
    rw [← Nat.mul_assoc]
    exact Nat.mul_left_inj some.ne'
  simp only [roundUp, lt, eq]

theorem roundUp_mono {q r q' r' d : Nat} (below : q < q' ∨ q = q' ∧ r ≤ r') : roundUp q r d ≤ roundUp q' r' d := by
  cases below with
  | inl less => exact Nat.le_trans (roundUp_le q r d) (Nat.le_trans less (le_roundUp q' r' d))
  | inr same =>
      obtain ⟨rfl, less⟩ := same
      rw [roundUp, roundUp]
      split <;> split <;> omega

theorem log2_mul_pow {n : Nat} (some : n ≠ 0) (j : Nat) : (n * 2 ^ j).log2 = n.log2 + j := by
  have wide : n * 2 ^ j ≠ 0 := Nat.mul_ne_zero some (Nat.two_pow_pos j).ne'
  have below := Nat.log2_self_le some
  have above : n < 2 ^ (n.log2 + 1) := Nat.lt_log2_self
  apply (Nat.log2_eq_iff wide).mpr
  constructor
  · rw [Nat.pow_add]
    exact Nat.mul_le_mul_right _ below
  · rw [Nat.add_right_comm, Nat.pow_add]
    exact Nat.mul_lt_mul_of_pos_right above (Nat.two_pow_pos j)

section

variable {p : Nat} (bits : 0 < p)

theorem roundBits_of_dvd {n : Nat} (whole : 2 ^ excess p n ∣ n) : roundBits p n = n := by
  rw [roundBits, Nat.mod_eq_zero_of_dvd whole, roundUp_exact _ (Nat.two_pow_pos _), Nat.div_mul_cancel whole]

theorem quotient_lt (p n : Nat) : n / 2 ^ excess p n < 2 ^ p := by
  have above : n < 2 ^ (n.log2 + 1) := Nat.lt_log2_self
  apply Nat.div_lt_of_lt_mul
  rw [← Nat.pow_add]
  apply Nat.lt_of_lt_of_le above
  apply Nat.pow_le_pow_right Nat.two_pos
  rw [excess]
  omega

include bits

theorem excess_of_lt {n : Nat} (few : n < 2 ^ p) : excess p n = 0 := by
  by_cases zero : n = 0
  · subst zero
    exact Nat.sub_eq_zero_of_le bits
  · have log := (Nat.log2_lt zero).mpr few
    exact Nat.sub_eq_zero_of_le log

theorem roundBits_of_lt {n : Nat} (few : n < 2 ^ p) : roundBits p n = n := by
  apply roundBits_of_dvd
  rw [excess_of_lt bits few]
  exact one_dvd n

theorem roundBits_scale (n j : Nat) : roundBits p (n * 2 ^ j) = roundBits p n * 2 ^ j := by
  by_cases zero : n = 0
  · subst zero
    rw [Nat.zero_mul, roundBits_of_lt bits (Nat.two_pow_pos p), Nat.zero_mul]
  · by_cases wide : p ≤ n.log2 + 1
    · have more : excess p (n * 2 ^ j) = excess p n + j := by
        rw [excess, excess, log2_mul_pow zero]
        omega
      rw [roundBits, more, Nat.pow_add, Nat.mul_div_mul_right _ _ (Nat.two_pow_pos j), Nat.mul_mod_mul_right,
        roundUp_scale _ _ _ (Nat.two_pow_pos j), ← Nat.mul_assoc]
      rfl
    · have few : n < 2 ^ p := (Nat.log2_lt zero).mp (by omega)
      rw [roundBits_of_lt bits few]
      apply roundBits_of_dvd
      apply Dvd.dvd.mul_left
      apply Nat.pow_dvd_pow
      rw [excess, log2_mul_pow zero]
      omega

/-- A number of at most `p` bits and zeros behind them is not changed. -/
theorem roundBits_fixed {m : Nat} (few : m ≤ 2 ^ p) (j : Nat) : roundBits p (m * 2 ^ j) = m * 2 ^ j := by
  rw [roundBits_scale bits]
  cases Nat.lt_or_eq_of_le few with
  | inl less => rw [roundBits_of_lt bits less]
  | inr same =>
      have one : m = 1 * 2 ^ p := by rw [same, Nat.one_mul]
      rw [one, roundBits_scale bits, roundBits_of_lt bits (Nat.one_lt_two_pow bits.ne')]

omit bits in
theorem roundBits_le_pow (n : Nat) : roundBits p n ≤ 2 ^ (n.log2 + 1) ∨ roundBits p n = n := by
  by_cases wide : p ≤ n.log2 + 1
  · left
    have quotient := Nat.le_trans (roundUp_le _ (n % 2 ^ excess p n) (2 ^ excess p n)) (quotient_lt p n)
    calc roundBits p n ≤ 2 ^ p * 2 ^ excess p n := Nat.mul_le_mul_right _ quotient
      _ = 2 ^ (n.log2 + 1) := by
        rw [← Nat.pow_add, excess]
        congr 1
        omega
  · right
    apply roundBits_of_dvd
    have none_ : excess p n = 0 := by
      rw [excess]
      omega
    rw [none_]
    exact one_dvd n

theorem pow_le_roundBits {n : Nat} (some : n ≠ 0) : 2 ^ n.log2 ≤ roundBits p n := by
  have split : 2 ^ (n.log2 - excess p n) * 2 ^ excess p n = 2 ^ n.log2 := by
    rw [← Nat.pow_add]
    congr 1
    rw [excess]
    omega
  rw [roundBits, ← split]
  apply Nat.mul_le_mul_right
  apply Nat.le_trans _ (le_roundUp _ _ _)
  apply (Nat.le_div_iff_mul_le (Nat.two_pow_pos _)).mpr
  rw [split]
  exact Nat.log2_self_le some

theorem roundBits_mono {m n : Nat} (below : m ≤ n) : roundBits p m ≤ roundBits p n := by
  by_cases zero : m = 0
  · subst zero
    rw [roundBits_of_lt bits (Nat.two_pow_pos p)]
    exact Nat.zero_le _
  · have zero' : n ≠ 0 := by omega
    have logs : m.log2 ≤ n.log2 := (Nat.le_log2 zero').mpr (Nat.le_trans (Nat.log2_self_le zero) below)
    cases Nat.lt_or_eq_of_le logs with
    | inl less =>
        have high := Nat.le_trans (Nat.pow_le_pow_right Nat.two_pos less) (pow_le_roundBits bits zero')
        have above : m < 2 ^ (m.log2 + 1) := Nat.lt_log2_self
        cases roundBits_le_pow m with
        | inl low => exact Nat.le_trans low high
        | inr same =>
            rw [same]
            exact Nat.le_trans above.le high
    | inr same =>
        have excesses : excess p m = excess p n := by rw [excess, excess, same]
        rw [roundBits, roundBits, excesses]
        apply Nat.mul_le_mul_right
        apply roundUp_mono
        have quotients := Nat.div_le_div_right (c := 2 ^ excess p n) below
        cases Nat.lt_or_eq_of_le quotients with
        | inl less => exact .inl less
        | inr equal =>
            have first := Nat.div_add_mod m (2 ^ excess p n)
            have second := Nat.div_add_mod n (2 ^ excess p n)
            rw [equal] at first
            exact .inr ⟨equal, by omega⟩

/-! ## Integers -/

omit bits in
theorem natAbs_roundInt (z : Int) : (roundInt p z).natAbs = roundBits p z.natAbs := by
  rw [roundInt]
  split <;> simp

omit bits in
theorem roundInt_natCast (n : Nat) : roundInt p n = roundBits p n := if_neg (by omega)

theorem roundInt_neg (z : Int) : roundInt p (-z) = -roundInt p z := by
  rcases lt_trichotomy z 0 with lt | rfl | gt
  · rw [roundInt, roundInt, if_pos lt, if_neg (by omega), Int.natAbs_neg, Int.neg_neg]
  · rw [Int.neg_zero, roundInt, if_neg (lt_irrefl _), Int.natAbs_zero, roundBits_of_lt bits (Nat.two_pow_pos p)]
    rfl
  · rw [roundInt, roundInt, if_pos (by omega), if_neg (by omega), Int.natAbs_neg]

theorem roundInt_scale (z : Int) (j : Nat) : roundInt p (z * 2 ^ j) = roundInt p z * 2 ^ j := by
  have scaled (n : Nat) : roundInt p ((n : Int) * 2 ^ j) = roundInt p n * 2 ^ j := by
    have cast : (n : Int) * 2 ^ j = ((n * 2 ^ j : Nat) : Int) := by push_cast; rfl
    rw [cast, roundInt_natCast, roundInt_natCast, roundBits_scale bits]
    push_cast
    rfl
  cases Int.natAbs_eq z with
  | inl nonneg => rw [nonneg, scaled]
  | inr neg => rw [neg, Int.neg_mul, roundInt_neg bits, scaled, roundInt_neg bits, Int.neg_mul]

theorem roundInt_mono {z z' : Int} (below : z ≤ z') : roundInt p z ≤ roundInt p z' := by
  rw [roundInt, roundInt]
  split
  · split
    · have parts := roundBits_mono bits (m := z'.natAbs) (n := z.natAbs) (by omega)
      omega
    · omega
  · rw [if_neg (by omega)]
    have parts := roundBits_mono bits (m := z.natAbs) (n := z'.natAbs) (by omega)
    omega

end
end Minigraf
