import Mathlib
import Minigraf.Lib.Rounding

/-!
What the model of `Float` computes, on numbers: every finite float is a whole number of the
least positive one, `2^-1074`, and sums and conversions round that number to 53 bits.
-/

namespace Minigraf

open Float.Model Float.Model.UnpackedFloat

/-- A float in units of the least positive one. -/
def units : UnpackedFloat → Int
  | .finite s m e _ => s.apply ((m * 2 ^ (e + 1074).toNat : Nat) : Int)
  | _ => 0

/-- A finite float with as many bits as there are. -/
inductive Canonical : UnpackedFloat → Prop where
  | zero (s : Sign) : Canonical (.zero s)
  | finite (s : Sign) (m : Nat) (e : Int) (pos : 0 < m) (low : -1074 ≤ e) (few : m < 2 ^ 53)
      (normal : 2 ^ 52 ≤ m ∨ e = -1074) : Canonical (.finite s m e pos)

/-! ## Rounding -/

/-- What the two bits kept of a dropped part say of it. -/
def KeptBits (r d : Nat) (em : ExtendedMantissa) : Prop :=
  match em.roundBit, em.stickyBit with
  | false, false => r = 0
  | false, true => 0 < r ∧ 2 * r < d
  | true, false => 2 * r = d
  | true, true => d < 2 * r

theorem KeptBits.roundedMantissa {r d : Nat} {em : ExtendedMantissa} (some : 0 < d) (kept : KeptBits r d em) :
    em.roundedMantissa = roundUp em.mantissa r d := by
  cases em with
  | mk q round sticky =>
      cases round <;> cases sticky <;> simp only [KeptBits] at kept
      · rw [kept, roundUp_exact _ some]
        rfl
      · exact (if_pos (.inl kept.2)).symm
      · simp only [roundUp]
        change q + q % 2 = _
        split <;> omega
      · simp only [roundUp]
        change q + 1 = _
        split <;> omega

theorem KeptBits.shiftRightOne {r d : Nat} {em : ExtendedMantissa} (kept : KeptBits r d em) (below : r < d) :
    KeptBits (r + d * (em.mantissa % 2)) (d * 2) em.shiftRightOne := by
  cases em with
  | mk q round sticky =>
      cases Nat.mod_two_eq_zero_or_one q with
      | inl even =>
          simp only [KeptBits, ExtendedMantissa.shiftRightOne, even]
          cases round <;> cases sticky <;> simp only [KeptBits] at kept <;> simp <;> omega
      | inr odd =>
          simp only [KeptBits, ExtendedMantissa.shiftRightOne, odd]
          cases round <;> cases sticky <;> simp only [KeptBits] at kept <;> simp <;> omega

theorem shiftRight_kept (m i : Nat) :
    ((⟨m, false, false⟩ : ExtendedMantissa) >>> i).mantissa = m / 2 ^ i ∧
      KeptBits (m % 2 ^ i) (2 ^ i) ((⟨m, false, false⟩ : ExtendedMantissa) >>> i) := by
  induction i with
  | zero => exact ⟨(Nat.div_one m).symm, Nat.mod_one m⟩
  | succ i ih =>
      have step : (⟨m, false, false⟩ : ExtendedMantissa) >>> (i + 1) =
          ((⟨m, false, false⟩ : ExtendedMantissa) >>> i).shiftRightOne := rfl
      have dropped : m % 2 ^ (i + 1) = m % 2 ^ i + 2 ^ i * (m / 2 ^ i % 2) := Nat.mod_mul
      have kept := ih.2.shiftRightOne (Nat.mod_lt _ (Nat.two_pow_pos i))
      rw [ih.1] at kept
      rw [step, dropped, Nat.pow_succ]
      refine ⟨?_, kept⟩
      rw [← Nat.div_div_eq_div_mul, ← ih.1]
      rfl

theorem roundedMantissa_shiftRight (m i : Nat) : ((⟨m, false, false⟩ : ExtendedMantissa) >>> i).roundedMantissa =
    roundUp (m / 2 ^ i) (m % 2 ^ i) (2 ^ i) := by
  have ⟨mantissa, kept⟩ := shiftRight_kept m i
  rw [kept.roundedMantissa (Nat.two_pow_pos i), mantissa]

/-- The exponent a number of units is written with. -/
theorem targetExponent_units {m : Nat} (pos : 0 < m) (j : Nat) :
    Format.binary64.targetExponent (totalExponent m ((j : Int) - 1074)) = (excess 53 (m * 2 ^ j) : Int) - 1074 := by
  have bits := log2_mul_pow (Nat.pos_iff_ne_zero.mp pos) j
  have format : Format.binary64.targetExponent (totalExponent m ((j : Int) - 1074)) =
      max ((m.log2 : Int) + 1 + ((j : Int) - 1074) - 53) (-1074) := rfl
  rw [format, excess, bits]
  omega

theorem shiftToTarget_units {m : Nat} (pos : 0 < m) (j : Nat) :
    shiftToTargetExponent Format.binary64 m ((j : Int) - 1074) .exact =
      ((⟨m, false, false⟩ : ExtendedMantissa) >>> (excess 53 (m * 2 ^ j) - j),
        (max j (excess 53 (m * 2 ^ j)) : Int) - 1074) := by
  have shift : ((excess 53 (m * 2 ^ j) : Int) - 1074 - ((j : Int) - 1074)).toNat = excess 53 (m * 2 ^ j) - j := by omega
  rw [shiftToTargetExponent, targetExponent_units pos, shiftToExponent, shift]
  apply Prod.ext
  · rfl
  · dsimp only
    omega

/-- How a number of units at most one shift away from its exponent is rounded. -/
theorem roundUp_units {m : Nat} (pos : 0 < m) {j k : Nat} (k_eq : excess 53 (m * 2 ^ j) = k) (fits : j ≤ k) :
    roundBits 53 (m * 2 ^ j) = roundUp (m / 2 ^ (k - j)) (m % 2 ^ (k - j)) (2 ^ (k - j)) * 2 ^ k ∧
      roundUp (m / 2 ^ (k - j)) (m % 2 ^ (k - j)) (2 ^ (k - j)) ≤ 2 ^ 53 ∧
      0 < roundUp (m / 2 ^ (k - j)) (m % 2 ^ (k - j)) (2 ^ (k - j)) ∧
      (2 ^ 52 ≤ roundUp (m / 2 ^ (k - j)) (m % 2 ^ (k - j)) (2 ^ (k - j)) ∨ k = 0) := by
  have bits := log2_mul_pow (Nat.pos_iff_ne_zero.mp pos) j
  have whole : 2 ^ k = 2 ^ (k - j) * 2 ^ j := by rw [← Nat.pow_add, Nat.sub_add_cancel fits]
  have quotient : m * 2 ^ j / 2 ^ k = m / 2 ^ (k - j) := by
    rw [whole, Nat.mul_div_mul_right _ _ (Nat.two_pow_pos j)]
  have few := quotient_lt 53 (m * 2 ^ j)
  rw [k_eq, quotient] at few
  have up := roundUp_le (m / 2 ^ (k - j)) (m % 2 ^ (k - j)) (2 ^ (k - j))
  have down := le_roundUp (m / 2 ^ (k - j)) (m % 2 ^ (k - j)) (2 ^ (k - j))
  have large : 2 ^ 52 ≤ m / 2 ^ (k - j) ∨ k = 0 := by
    by_cases zero : k = 0
    · exact .inr zero
    · left
      rw [Nat.le_div_iff_mul_le (Nat.two_pow_pos _), ← Nat.pow_add]
      rw [excess, bits] at k_eq
      have same : 52 + (k - j) = m.log2 := by omega
      rw [same]
      exact Nat.log2_self_le (Nat.pos_iff_ne_zero.mp pos)
  refine ⟨?_, Nat.le_trans up few, ?_, large.imp_left fun large => Nat.le_trans large down⟩
  · have remainder : m * 2 ^ j % 2 ^ k = m % 2 ^ (k - j) * 2 ^ j := by rw [whole, Nat.mul_mod_mul_right]
    have scaled := roundUp_scale (m / 2 ^ (k - j)) (m % 2 ^ (k - j)) (2 ^ (k - j)) (Nat.two_pow_pos j)
    rw [← whole] at scaled
    rw [roundBits, k_eq, quotient, remainder, scaled]
  · cases large with
    | inl large => exact Nat.lt_of_lt_of_le (by decide) (Nat.le_trans large down)
    | inr zero =>
        have none_ : k - j = 0 := by omega
        rw [none_, Nat.pow_zero, Nat.div_one] at down
        rw [none_]
        exact Nat.lt_of_lt_of_le pos (by simpa using down)

theorem finite_units (s : Sign) {m : Nat} (pos : 0 < m) (k : Nat) :
    units (.finite s m ((k : Int) - 1074) pos) = s.apply ((m * 2 ^ k : Nat) : Int) := by
  have exponent : ((k : Int) - 1074 + 1074).toNat = k := by omega
  rw [units, exponent]

/-- A number of units that is whole at its exponent is the float it says. -/
theorem roundWithAccuracy_units (s : Sign) {m : Nat} (pos : 0 < m) {j : Nat} (fits : j ≤ excess 53 (m * 2 ^ j)) :
    Canonical (roundWithAccuracy Format.binary64 s m ((j : Int) - 1074) .exact) ∧
      units (roundWithAccuracy Format.binary64 s m ((j : Int) - 1074) .exact) =
        s.apply ((roundBits 53 (m * 2 ^ j) : Nat) : Int) := by
  obtain ⟨value, most, some, large⟩ := roundUp_units pos rfl fits
  have first := shiftToTarget_units pos j
  rw [roundWithAccuracy, first]
  dsimp only
  rw [roundedMantissa_shiftRight, max_eq_right (Int.ofNat_le.mpr fits)]
  rw [value]
  generalize roundUp _ _ _ = r at most some large
  generalize excess 53 (m * 2 ^ j) = k at large
  have second := shiftToTarget_units some k
  have bits := log2_mul_pow (Nat.pos_iff_ne_zero.mp some) k
  rw [second]
  dsimp only
  cases Nat.lt_or_eq_of_le most with
  | inl few =>
      have log := (Nat.log2_lt (Nat.pos_iff_ne_zero.mp some)).mpr few
      have within : excess 53 (r * 2 ^ k) ≤ k := by
        rw [excess, bits]
        omega
      have whole : ((⟨r, false, false⟩ : ExtendedMantissa) >>> (excess 53 (r * 2 ^ k) - k)).mantissa = r := by
        rw [Nat.sub_eq_zero_of_le within]
        rfl
      have top : (max k (excess 53 (r * 2 ^ k)) : Int) = k := by omega
      simp only [whole, top, dif_neg (Nat.pos_iff_ne_zero.mp some)]
      refine ⟨.finite s r _ some (by omega) few (large.imp_right fun zero => by omega), finite_units s some k⟩
  | inr full =>
      subst full
      have carry : excess 53 (2 ^ 53 * 2 ^ k) = k + 1 := by
        rw [excess, bits, Nat.log2_two_pow]
        omega
      have whole : ((⟨2 ^ 53, false, false⟩ : ExtendedMantissa) >>> (excess 53 (2 ^ 53 * 2 ^ k) - k)).mantissa = 2 ^ 52 := by
        rw [carry, Nat.add_sub_cancel_left]
        rfl
      have top : (max k (excess 53 (2 ^ 53 * 2 ^ k)) : Int) = ((k + 1 : Nat) : Int) := by
        omega
      have half : (2 : Nat) ^ 52 ≠ 0 := by decide
      simp only [whole, top, dif_neg half]
      refine ⟨.finite s _ _ _ (by omega) (by decide) (.inl (Nat.le_refl _)), ?_⟩
      rw [finite_units]
      congr 2
      rw [Nat.pow_succ, Nat.pow_succ 2 52]
      ring

/-- Any number of units is rounded to 53 bits. -/
theorem round_units (s : Sign) {m : Nat} (pos : 0 < m) (j : Nat) :
    Canonical (UnpackedFloat.round Format.binary64 s m ((j : Int) - 1074)) ∧
      units (UnpackedFloat.round Format.binary64 s m ((j : Int) - 1074)) =
        s.apply ((roundBits 53 (m * 2 ^ j) : Nat) : Int) := by
  rw [UnpackedFloat.round, targetExponent_units pos]
  have shift : ((j : Int) - 1074 - ((excess 53 (m * 2 ^ j) : Int) - 1074)).toNat = j - excess 53 (m * 2 ^ j) := by omega
  simp only [decreaseExponent, shift, Nat.shiftLeft_eq]
  by_cases fits : j ≤ excess 53 (m * 2 ^ j)
  · rw [Nat.sub_eq_zero_of_le fits, Nat.pow_zero, Nat.mul_one, Int.natCast_zero, Int.sub_zero]
    exact roundWithAccuracy_units s pos fits
  · have whole : m * 2 ^ (j - excess 53 (m * 2 ^ j)) * 2 ^ excess 53 (m * 2 ^ j) = m * 2 ^ j := by
      rw [Nat.mul_assoc, ← Nat.pow_add, Nat.sub_add_cancel (by omega)]
    have exponent : (j : Int) - 1074 - ((j - excess 53 (m * 2 ^ j) : Nat) : Int) = (excess 53 (m * 2 ^ j) : Int) - 1074 := by
      omega
    have wide : 0 < m * 2 ^ (j - excess 53 (m * 2 ^ j)) := Nat.mul_pos pos (Nat.two_pow_pos _)
    have rounded := roundWithAccuracy_units s wide (j := excess 53 (m * 2 ^ j)) (by rw [whole])
    rw [whole] at rounded
    rw [exponent]
    exact rounded

/-- A whole number of some power of two is rounded as its number of units is. -/
theorem normalize_units (z : Int) (j : Nat) (s : Sign) :
    Canonical (normalize Format.binary64 z ((j : Int) - 1074) s) ∧
      units (normalize Format.binary64 z ((j : Int) - 1074) s) = roundInt 53 (z * 2 ^ j) := by
  rw [UnpackedFloat.normalize]
  rcases lt_trichotomy z 0 with lt | rfl | gt
  · have order : compare z 0 = .lt := compare_lt_iff_lt.mpr lt
    have pos : 0 < (-z).toNat := by omega
    have rounded := round_units .negative pos j
    have number : z * 2 ^ j = -(((-z).toNat * 2 ^ j : Nat) : Int) := by
      push_cast
      rw [Int.toNat_of_nonneg (by omega)]
      ring
    simp only [order]
    rw [number, roundInt_neg (by decide), roundInt_natCast]
    exact rounded
  · have order : compare (0 : Int) 0 = .eq := compare_eq_iff_eq.mpr rfl
    simp only [order]
    exact ⟨.zero s, by rw [Int.zero_mul]; rfl⟩
  · have order : compare z 0 = .gt := compare_gt_iff_gt.mpr gt
    have pos : 0 < z.toNat := by omega
    have rounded := round_units .positive pos j
    have number : z * 2 ^ j = ((z.toNat * 2 ^ j : Nat) : Int) := by
      push_cast
      rw [Int.toNat_of_nonneg (by omega)]
    simp only [order]
    rw [number, roundInt_natCast]
    exact rounded

end Minigraf
