import Minigraf.Lib.Binary64
import Minigraf.Lib.Comparison

/-!
Floats that are numbers: what packing keeps of them, how they compare, and the sums and
conversions of `Float` as roundings of whole numbers of units.
-/

namespace Minigraf

open Float.Model hiding pack unpack
open Float.Model.UnpackedFloat

/-! ## Packing -/

theorem unpackSign_packComponents (spec : Format) (s : Sign) (e : BitVec spec.exponentBits)
    (m : BitVec spec.mantissaBitsWithoutImplicit) :
    Sign.ofBitVec (unpackSign (packComponents spec s e m)) = s := by
  have kept : unpackSign (packComponents spec s e m) = s.toBitVec := by
    apply BitVec.eq_of_getLsbD_eq
    intro i below
    have first : i = 0 := by omega
    rw [first]
    simp [unpackSign, packComponents, BitVec.getLsbD_append, BitVec.getElem_append]
  rw [kept]
  cases s <;> rfl

theorem unpack_zero (s : Sign) : unpack Format.binary64 (pack Format.binary64 (.zero s)) = .zero s := by
  cases s <;> rfl

theorem unpack_finite (s : Sign) {m : Nat} {e : Int} (pos : 0 < m) (low : -1074 ≤ e) (few : m < 2 ^ 53)
    (normal : 2 ^ 52 ≤ m ∨ e = -1074) (high : e ≤ 971) :
    unpack Format.binary64 (pack Format.binary64 (.finite s m e pos)) = .finite s m e pos := by
  have biased : (e + (Format.exponentBias Format.binary64 : Int) + (52 : Nat)).toNat = (e + 1075).toNat := by
    change (e + 1023 + 52).toNat = _
    omega
  have fits : ¬ 2 ^ 11 ≤ (e + 1075).toNat + 1 := by omega
  cases Nat.lt_or_ge m (2 ^ 52) with
  | inl short =>
      have least : e = -1074 := normal.resolve_left (by omega)
      have log : ¬ m.log2 + 1 = Format.mantissaBits Format.binary64 := by
        have below := (Nat.log2_lt (Nat.pos_iff_ne_zero.mp pos)).mpr short
        change ¬ m.log2 + 1 = 53
        omega
      have packed : pack Format.binary64 (.finite s m e pos) =
          packComponents Format.binary64 s 0#11 (BitVec.ofNat 52 m) := by
        rw [pack]
        simp only [biased]
        rw [if_neg fits, if_neg log]
      have whole : (BitVec.ofNat 52 m).toNat = m := by
        rw [BitVec.toNat_ofNat, Nat.mod_eq_of_lt short]
      have some : BitVec.ofNat 52 m ≠ 0#52 := by
        intro zero
        rw [← BitVec.toNat_inj, whole] at zero
        exact absurd zero (Nat.pos_iff_ne_zero.mp pos)
      rw [packed, unpack]
      simp only [unpackMantissa_packComponents, unpackExponent_packComponents, unpackSign_packComponents]
      rw [if_neg (by decide), if_pos trivial, dif_neg some]
      subst least
      congr 1
  | inr long =>
      have log : m.log2 + 1 = Format.mantissaBits Format.binary64 := by
        have exact_ := (Nat.log2_eq_iff (Nat.pos_iff_ne_zero.mp pos)).mpr ⟨long, few⟩
        change m.log2 + 1 = 53
        omega
      have packed : pack Format.binary64 (.finite s m e pos) =
          packComponents Format.binary64 s (BitVec.ofNat 11 (e + 1075).toNat) (BitVec.ofNat 52 m) := by
        rw [pack]
        simp only [biased]
        rw [if_neg fits, if_pos log]
      have exponent : (BitVec.ofNat 11 (e + 1075).toNat).toNat = (e + 1075).toNat := by
        rw [BitVec.toNat_ofNat, Nat.mod_eq_of_lt (by omega)]
      have notAll : BitVec.ofNat 11 (e + 1075).toNat ≠ -1#11 := by
        intro all
        rw [← BitVec.toNat_inj, exponent] at all
        change _ = 2047 at all
        omega
      have notZero : BitVec.ofNat 11 (e + 1075).toNat ≠ 0#11 := by
        intro zero
        rw [← BitVec.toNat_inj, exponent] at zero
        change _ = 0 at zero
        omega
      have whole : (1#1 ++ BitVec.ofNat 52 m).toNat = m := by
        have parts : m = 1 <<< 52 + m % 2 ^ 52 := by
          rw [Nat.shiftLeft_eq]
          omega
        rw [BitVec.toNat_append, BitVec.toNat_ofNat m 52]
        rw [← Nat.shiftLeft_add_eq_or_of_lt (Nat.mod_lt _ (Nat.two_pow_pos 52))]
        exact parts.symm
      rw [packed, unpack]
      simp only [unpackMantissa_packComponents, unpackExponent_packComponents, unpackSign_packComponents]
      rw [if_neg notAll, if_neg notZero]
      congr 1
      rw [exponent]
      change ((e + 1075).toNat : Int) - (1023 + 52) = e
      omega

/-! ## Numbers of units -/

/-- The float is this number of units. -/
def HoldsUnits (x : Float) (z : Int) : Prop := Canonical x.toModel.unpack ∧ units x.toModel.unpack = z

/-- What no exponent is too large for is packed as it is. -/
theorem Canonical.unpack_pack {u : UnpackedFloat} (canonical : Canonical u) (small : (units u).natAbs < 2 ^ 2098) :
    unpack Format.binary64 (pack Format.binary64 u) = u := by
  cases canonical with
  | zero s => exact unpack_zero s
  | finite s m e pos low few normal =>
      apply unpack_finite s pos low few normal
      by_contra high
      have long : 2 ^ 52 ≤ m := normal.resolve_right (by omega)
      have size : (units (.finite s m e pos)).natAbs = m * 2 ^ (e + 1074).toNat := by
        cases s
        · exact Int.natAbs_neg _
        · rfl
      have steps : ∀ {p : Nat}, p ≤ (e + 1074).toNat → 2 ^ (52 + p) ≤ m * 2 ^ (e + 1074).toNat := by
        intro p most
        rw [Nat.pow_add]
        exact Nat.mul_le_mul long (Nat.pow_le_pow_right (by decide) most)
      rw [size] at small
      have reached := steps (p := 2046) (by omega)
      have total : 52 + 2046 = 2098 := rfl
      rw [total] at reached
      exact absurd small (Nat.not_lt.mpr reached)

theorem holds_pack {u : UnpackedFloat} (canonical : Canonical u) (small : (units u).natAbs < 2 ^ 2098) :
    HoldsUnits (.ofModel (.pack u)) (units u) := by
  have kept : (Float.ofModel (.pack u)).toModel.unpack = u := canonical.unpack_pack small
  rw [HoldsUnits, kept]
  exact ⟨canonical, rfl⟩

/-! ## Comparison -/

theorem then_compare_units {m m' k k' : Nat} (few : m < 2 ^ 53) (few' : m' < 2 ^ 53)
    (normal : 2 ^ 52 ≤ m ∨ k = 0) (normal' : 2 ^ 52 ≤ m' ∨ k' = 0) :
    (compare k k').then (compare m m') = compare (m * 2 ^ k) (m' * 2 ^ k') := by
  have smaller : ∀ {m m' k k' : Nat}, m < 2 ^ 53 → 2 ^ 52 ≤ m' ∨ k' = 0 → k < k' → m * 2 ^ k < m' * 2 ^ k' := by
    intro m m' k k' few normal' less
    have long : 2 ^ 52 ≤ m' := normal'.resolve_right (by omega)
    calc m * 2 ^ k < 2 ^ 53 * 2 ^ k := Nat.mul_lt_mul_of_pos_right few (Nat.two_pow_pos k)
      _ = 2 ^ 52 * 2 ^ (k + 1) := by ring
      _ ≤ m' * 2 ^ k' := Nat.mul_le_mul long (Nat.pow_le_pow_right (by decide) less)
  rcases lt_trichotomy k k' with less | rfl | more
  · rw [compare_lt_iff_lt.mpr less, compare_lt_iff_lt.mpr (smaller few normal' less)]
    rfl
  · rw [compare_eq_iff_eq.mpr rfl]
    change compare m m' = _
    rcases lt_trichotomy m m' with less | rfl | more
    · rw [compare_lt_iff_lt.mpr less, compare_lt_iff_lt.mpr (Nat.mul_lt_mul_of_pos_right less (Nat.two_pow_pos k))]
    · rw [compare_eq_iff_eq.mpr rfl, compare_eq_iff_eq.mpr rfl]
    · rw [compare_gt_iff_gt.mpr more, compare_gt_iff_gt.mpr (Nat.mul_lt_mul_of_pos_right more (Nat.two_pow_pos k))]
  · rw [compare_gt_iff_gt.mpr more, compare_gt_iff_gt.mpr (smaller few' normal more)]
    rfl

/-- Floats that are numbers compare as their numbers of units do. -/
theorem Canonical.compare_units {u v : UnpackedFloat} (hu : Canonical u) (hv : Canonical v) :
    u.compare v = some (compare (units u) (units v)) := by
  have magnitude : ∀ {m m' : Nat} {e e' : Int}, -1074 ≤ e → -1074 ≤ e' → m < 2 ^ 53 → m' < 2 ^ 53 →
      (2 ^ 52 ≤ m ∨ e = -1074) → (2 ^ 52 ≤ m' ∨ e' = -1074) →
      (compare e e').then (compare m m') =
        compare ((m * 2 ^ (e + 1074).toNat : Nat) : Int) ((m' * 2 ^ (e' + 1074).toNat : Nat) : Int) := by
    intro m m' e e' low low' few few' normal normal'
    rw [compare_cast, ← then_compare_units few few' (normal.imp_right fun least => by omega)
      (normal'.imp_right fun least => by omega)]
    congr 1
    rw [← compare_cast, Int.toNat_of_nonneg (by omega), Int.toNat_of_nonneg (by omega)]
    rcases lt_trichotomy e e' with less | rfl | more
    · rw [compare_lt_iff_lt.mpr less, compare_lt_iff_lt.mpr (by omega)]
    · rw [compare_eq_iff_eq.mpr rfl, compare_eq_iff_eq.mpr rfl]
    · rw [compare_gt_iff_gt.mpr more, compare_gt_iff_gt.mpr (by omega)]
  have some_ : ∀ {m k : Nat}, 0 < m → (0 : Int) < ((m * 2 ^ k : Nat) : Int) := by
    intro m k pos
    exact Int.natCast_pos.mpr (Nat.mul_pos pos (Nat.two_pow_pos k))
  cases hu with
  | zero s =>
      cases hv with
      | zero s' =>
          change some Ordering.eq = some (compare (0 : Int) 0)
          rw [compare_eq_iff_eq.mpr rfl]
      | finite s' m' e' pos' low' few' normal' =>
          have large := some_ (k := (e' + 1074).toNat) pos'
          cases s'
          · exact congrArg some (compare_gt_iff_gt.mpr (neg_lt_zero.mpr large)).symm
          · exact congrArg some (compare_lt_iff_lt.mpr large).symm
  | finite s m e pos low few normal =>
      have large := some_ (k := (e + 1074).toNat) pos
      cases hv with
      | zero s' =>
          cases s
          · exact congrArg some (compare_lt_iff_lt.mpr (neg_lt_zero.mpr large)).symm
          · exact congrArg some (compare_gt_iff_gt.mpr large).symm
      | finite s' m' e' pos' low' few' normal' =>
          have large' := some_ (k := (e' + 1074).toNat) pos'
          cases s <;> cases s'
          · apply congrArg some
            rw [magnitude low low' few few' normal normal']
            exact (compare_neg _ _).symm
          · exact congrArg some (compare_lt_iff_lt.mpr ((neg_lt_zero.mpr large).trans large')).symm
          · exact congrArg some (compare_gt_iff_gt.mpr ((neg_lt_zero.mpr large').trans large)).symm
          · exact congrArg some (magnitude low low' few few' normal normal')

/-- Where a float that is no NaN stands: by its sign and whether it is infinite, then by
exponent and mantissa. -/
def unpackedLevel : UnpackedFloat → ℤ ×ₗ ℤ ×ₗ ℤ
  | .infinity .negative => toLex (-2, toLex (0, 0))
  | .finite .negative m e _ => toLex (-1, toLex (-e, -m))
  | .finite .positive m e _ => toLex (1, toLex (e, m))
  | .infinity .positive => toLex (2, toLex (0, 0))
  | _ => toLex (0, toLex (0, 0))

theorem compare_unpackedLevel {u v : UnpackedFloat} (hu : u ≠ .notANumber) (hv : v ≠ .notANumber) :
    u.compare v = some (compare (unpackedLevel u) (unpackedLevel v)) := by
  cases u with
  | notANumber => exact absurd rfl hu
  | infinity s =>
      cases v with
      | notANumber => exact absurd rfl hv
      | infinity s' => cases s <;> cases s' <;> rfl
      | zero s' => cases s <;> rfl
      | finite s' m' e' pos' => cases s <;> cases s' <;> rfl
  | zero s =>
      cases v with
      | notANumber => exact absurd rfl hv
      | infinity s' => cases s' <;> rfl
      | zero s' => rfl
      | finite s' m' e' pos' => cases s' <;> rfl
  | finite s m e pos =>
      cases v with
      | notANumber => exact absurd rfl hv
      | infinity s' => cases s <;> cases s' <;> rfl
      | zero s' => cases s <;> rfl
      | finite s' m' e' pos' =>
          cases s <;> cases s'
          · simp only [unpackedLevel, compare_toLex, compare_self, compare_neg, compare_cast, ← Ordering.swap_then]
            rfl
          · rfl
          · rfl
          · simp only [unpackedLevel, compare_toLex, compare_self, compare_cast]
            rfl

theorem float_lt_iff (x y : Float) : x < y ↔ x.toModel.unpack.compare y.toModel.unpack = some .lt := by
  have meaning : x < y ↔ decide (x.toModel < y.toModel) = true := Iff.rfl
  have compared : x.toModel < y.toModel ↔ (x.toModel.unpack.compare y.toModel.unpack == some Ordering.lt) = true := Iff.rfl
  rw [meaning, decide_eq_true_iff, compared, beq_iff_eq]

theorem float_beq_iff (x y : Float) : (x == y) = true ↔ x.toModel.unpack.compare y.toModel.unpack = some .eq := by
  have meaning : (x == y) = (x.toModel.unpack.compare y.toModel.unpack == some Ordering.eq) := rfl
  rw [meaning, beq_iff_eq]

theorem isNaN_iff_unpack (x : Float) : x.isNaN = true ↔ x.toModel.unpack = .notANumber := by
  change x.toModel.unpack.isNaN = true ↔ _
  cases x.toModel.unpack <;> simp [UnpackedFloat.isNaN]

/-- Where a float stands among those that are no NaN. -/
def floatLevel (x : Float) : ℤ ×ₗ ℤ ×ₗ ℤ := unpackedLevel x.toModel.unpack

theorem compare_floatLevel {x y : Float} (hx : x.isNaN = false) (hy : y.isNaN = false) :
    x.toModel.unpack.compare y.toModel.unpack = some (compare (floatLevel x) (floatLevel y)) := by
  apply compare_unpackedLevel
  · intro nan
    rw [(isNaN_iff_unpack x).mpr nan] at hx
    cases hx
  · intro nan
    rw [(isNaN_iff_unpack y).mpr nan] at hy
    cases hy

theorem float_lt_iff_level {x y : Float} (hx : x.isNaN = false) (hy : y.isNaN = false) :
    x < y ↔ floatLevel x < floatLevel y := by
  rw [float_lt_iff, compare_floatLevel hx hy, Option.some_inj, compare_lt_iff_lt]

theorem float_beq_iff_level {x y : Float} (hx : x.isNaN = false) (hy : y.isNaN = false) :
    (x == y) = true ↔ floatLevel x = floatLevel y := by
  rw [float_beq_iff, compare_floatLevel hx hy, Option.some_inj, compare_eq_iff_eq]

/-- With a NaN nothing compares. -/
theorem compare_nan {x y : Float} (nan : x.isNaN = true ∨ y.isNaN = true) :
    x.toModel.unpack.compare y.toModel.unpack = none := by
  cases nan with
  | inl left => rw [(isNaN_iff_unpack x).mp left, UnpackedFloat.compare]
  | inr right =>
      rw [(isNaN_iff_unpack y).mp right]
      cases x.toModel.unpack <;> rfl

/-! ## Conversions and sums -/

theorem natAbs_roundInt_le {z : Int} {p : Nat} (small : z.natAbs ≤ 2 ^ p) (few : 53 ≤ p) :
    (roundInt 53 z).natAbs ≤ 2 ^ p := by
  have pow : roundBits 53 (2 ^ p) = 2 ^ p := by
    have kept := roundBits_fixed (p := 53) (by decide) (m := 2 ^ 53) (Nat.le_refl _) (p - 53)
    rw [← Nat.pow_add, Nat.add_sub_cancel' few] at kept
    exact kept
  rw [natAbs_roundInt, ← pow]
  exact roundBits_mono (by decide) small

theorem natAbs_scaled_lt {z : Int} {p j q : Nat} (most : z.natAbs ≤ 2 ^ p) (room : p + j < q) :
    (z * 2 ^ j).natAbs < 2 ^ q := by
  have size : (z * 2 ^ j).natAbs = z.natAbs * 2 ^ j := by
    rw [Int.natAbs_mul, Int.natAbs_pow]
    rfl
  calc (z * 2 ^ j).natAbs = z.natAbs * 2 ^ j := size
    _ ≤ 2 ^ p * 2 ^ j := Nat.mul_le_mul_right _ most
    _ = 2 ^ (p + j) := (Nat.pow_add 2 p j).symm
    _ < 2 ^ q := Nat.pow_lt_pow_right (by decide) room

/-- An integer becomes its rounding to 53 bits. -/
theorem holds_ofInt {z : Int} (small : z.natAbs ≤ 2 ^ 64) :
    HoldsUnits (.ofModel (.ofInt z)) (roundInt 53 z * 2 ^ 1074) := by
  have ⟨canonical, value⟩ := normalize_units z 1074 .positive
  rw [roundInt_scale (by decide)] at value
  have most := natAbs_roundInt_le small (by decide)
  have bounded := natAbs_scaled_lt (j := 1074) (q := 2098) most (by decide)
  rw [← value] at bounded ⊢
  exact holds_pack canonical bounded

theorem Canonical.units_fixed {u : UnpackedFloat} (canonical : Canonical u) : roundInt 53 (units u) = units u := by
  cases canonical with
  | zero s => exact (roundInt_natCast 0).trans (congrArg _ (roundBits_of_lt (by decide) (by decide)))
  | finite s m e pos low few normal =>
      have fixed : roundInt 53 ((m * 2 ^ (e + 1074).toNat : Nat) : Int) = ((m * 2 ^ (e + 1074).toNat : Nat) : Int) := by
        rw [roundInt_natCast, roundBits_fixed (by decide) few.le]
      cases s
      · exact (roundInt_neg (by decide) _).trans (congrArg _ fixed)
      · exact fixed

theorem HoldsUnits.fixed {x : Float} {a : Int} (hx : HoldsUnits x a) : roundInt 53 a = a := by
  rw [← hx.2]
  exact hx.1.units_fixed

theorem canonical_add {u v : UnpackedFloat} (hu : Canonical u) (hv : Canonical v) :
    Canonical (UnpackedFloat.add Format.binary64 u v) ∧
      units (UnpackedFloat.add Format.binary64 u v) = roundInt 53 (units u + units v) := by
  cases hu with
  | zero s =>
      cases hv with
      | zero s' => cases s <;> cases s' <;> exact ⟨.zero _, rfl⟩
      | finite s' m' e' pos' low' few' normal' =>
          have right : Canonical (.finite s' m' e' pos') := .finite s' m' e' pos' low' few' normal'
          have sum : units (.zero s) + units (.finite s' m' e' pos') = units (.finite s' m' e' pos') := Int.zero_add _
          rw [sum, right.units_fixed]
          exact ⟨right, rfl⟩
  | finite s m e pos low few normal =>
      have left : Canonical (.finite s m e pos) := .finite s m e pos low few normal
      cases hv with
      | zero s' =>
          have sum : units (.finite s m e pos) + units (.zero s') = units (.finite s m e pos) := Int.add_zero _
          rw [sum, left.units_fixed]
          exact ⟨left, rfl⟩
      | finite s' m' e' pos' low' few' normal' =>
          have least : -1074 ≤ min e e' := le_min low low'
          have whole : ∀ (s : Sign) (m : Nat) {e : Int} (pos : 0 < m), min (-1074) e = -1074 → ∀ t ≤ e, -1074 ≤ t →
              s.apply ((m <<< (e - t).toNat : Nat) : Int) * 2 ^ (t + 1074).toNat = units (.finite s m e pos) := by
            intro s m e pos low t below floor
            have exponents : (e - t).toNat + (t + 1074).toNat = (e + 1074).toNat := by omega
            have size : ((m <<< (e - t).toNat : Nat) : Int) * 2 ^ (t + 1074).toNat = ((m * 2 ^ (e + 1074).toNat : Nat) : Int) := by
              rw [Nat.shiftLeft_eq, ← exponents]
              push_cast
              ring
            cases s
            · exact (Int.neg_mul _ _).trans (congrArg _ size)
            · exact size
          have exponent : (((min e e' + 1074).toNat : Nat) : Int) - 1074 = min e e' := by omega
          have rounded := normalize_units (s.apply ((m <<< (e - min e e').toNat : Nat) : Int) +
            s'.apply ((m' <<< (e' - min e e').toNat : Nat) : Int)) (min e e' + 1074).toNat .positive
          rw [Int.add_mul, whole s m pos (by omega) _ (min_le_left e e') least,
            whole s' m' pos' (by omega) _ (min_le_right e e') least, exponent] at rounded
          exact rounded

/-- A sum in range is rounded once. -/
theorem HoldsUnits.add {x y : Float} {a b : Int} (hx : HoldsUnits x a) (hy : HoldsUnits y b)
    (small : (roundInt 53 (a + b)).natAbs < 2 ^ 2098) : HoldsUnits (x + y) (roundInt 53 (a + b)) := by
  have ⟨canonical, value⟩ := canonical_add hx.1 hy.1
  rw [hx.2, hy.2] at value
  rw [← value] at small ⊢
  exact holds_pack canonical small

theorem apply_div {s : Sign} {n d : Nat} (some : 0 < d) {z : Int} (whole : s.apply (n : Int) = z * d) :
    s.apply ((n / d : Nat) : Int) = z := by
  have nonzero : (d : Int) ≠ 0 := Int.natCast_ne_zero.mpr some.ne'
  have exact_ : ∀ {w : Int}, (n : Int) = w * d → ((n / d : Nat) : Int) = w := by
    intro w product
    rw [Int.natCast_ediv, product, Int.mul_ediv_cancel _ nonzero]
  cases s
  · have product : (n : Int) = -z * d := by
      rw [Int.neg_mul, ← whole]
      exact (Int.neg_neg _).symm
    exact (congrArg _ (exact_ product)).trans (Int.neg_neg z)
  · exact exact_ whole

theorem roundToInt_units (s : Sign) {m : Nat} {e : Int} (pos : 0 < m) (low : -1074 ≤ e) {z : Int}
    (whole : units (.finite s m e pos) = z * 2 ^ 1074) : roundToInt s m e = z := by
  have shift : (0 - (e - (e - 0).toNat)).toNat = (-e).toNat := by omega
  have mantissa := (shiftRight_kept (m <<< (e - 0).toNat) (-e).toNat).1
  have exponents : (e - 0).toNat + 1074 = (e + 1074).toNat + (-e).toNat := by omega
  have scaled : s.apply ((m <<< (e - 0).toNat : Nat) : Int) * 2 ^ 1074 = z * (2 ^ (-e).toNat : Nat) * 2 ^ 1074 := by
    have sizes : ((m <<< (e - 0).toNat : Nat) : Int) * 2 ^ 1074 =
        ((m * 2 ^ (e + 1074).toNat : Nat) : Int) * 2 ^ (-e).toNat := by
      rw [Nat.shiftLeft_eq, Int.natCast_mul, Int.natCast_mul, Int.natCast_pow, Int.natCast_pow, mul_assoc, mul_assoc,
        Nat.cast_ofNat, ← pow_add, ← pow_add, exponents]
    have signed : s.apply ((m <<< (e - 0).toNat : Nat) : Int) * 2 ^ 1074 =
        units (.finite s m e pos) * 2 ^ (-e).toNat := by
      cases s
      · exact (Int.neg_mul _ _).trans ((congrArg _ sizes).trans (Int.neg_mul _ _).symm)
      · exact sizes
    rw [signed, whole, Int.natCast_pow, Nat.cast_ofNat, mul_right_comm]
  have cancel := mul_right_cancel₀ (pow_ne_zero _ (by decide)) scaled
  rw [roundToInt, decreaseExponent]
  simp only [shiftToExponent]
  rw [shift]
  change s.apply (((⟨m <<< (e - 0).toNat, false, false⟩ : ExtendedMantissa) >>> (-e).toNat).mantissa : Int) = z
  rw [mantissa]
  exact apply_div (Nat.two_pow_pos _) cancel

/-- A whole number is truncated to itself, as far as there is one. -/
theorem HoldsUnits.toInt64 {x : Float} {z : Int} (hx : HoldsUnits x (z * 2 ^ 1074)) :
    x.toModel.toInt64 = Int64.ofIntClamp z := by
  have ⟨canonical, value⟩ := hx
  change Int64.ofIntClamp (x.toModel.unpack.toInt _ _) = _
  apply congrArg
  generalize x.toModel.unpack = u at canonical value
  cases canonical with
  | zero s =>
      have zero : z = 0 := by
        by_contra some
        exact absurd value.symm (mul_ne_zero some (pow_ne_zero _ (by decide)))
      rw [zero]
      rfl
  | finite s m e pos low few normal => exact roundToInt_units s pos low value

theorem HoldsUnits.isNaN {x : Float} {a : Int} (hx : HoldsUnits x a) : x.isNaN = false := by
  apply Bool.eq_false_of_not_eq_true
  intro nan
  have canonical := hx.1
  rw [(isNaN_iff_unpack x).mp nan] at canonical
  cases canonical

theorem HoldsUnits.level_le {x y : Float} {a b : Int} (hx : HoldsUnits x a) (hy : HoldsUnits y b) (below : a ≤ b) :
    floatLevel x ≤ floatLevel y := by
  have levels := compare_floatLevel hx.isNaN hy.isNaN
  rw [hx.1.compare_units hy.1, hx.2, hy.2, Option.some_inj] at levels
  rw [← compare_le_iff_le, ← levels, compare_le_iff_le]
  exact below

end Minigraf
