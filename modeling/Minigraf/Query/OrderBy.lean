import Mathlib.Data.String.Basic
import Minigraf.Lib.FiniteFloats
import Minigraf.Query.Expr

/-!
`value_lt` and `value_cmp` of `src/query/datalog/functions.rs`, by which `min`, `max` and
`:order-by` order values.

Strings have an order, and so have the numbers that are no NaN, but `value_cmp` calls any
two values equal that have none in common, and takes an integer for its nearest float where
it meets one. A value between two others may thus be equal to both.
-/

namespace Minigraf

def valueLt : Value → Value → Bool
  | .integer x, .integer y => decide (x < y)
  | .float x, .float y => decide (x.toFloat < y.toFloat)
  | .integer x, .float y => decide (asFloat x < y.toFloat)
  | .float x, .integer y => decide (x.toFloat < asFloat y)
  | .string x, .string y => decide (x < y)
  | _, _ => false

def valueCmp : Value → Value → Ordering
  | .integer x, .integer y => compare x.toInt y.toInt
  | .float x, .float y => (partialCmp x.toFloat y.toFloat).getD .eq
  | .integer x, .float y => (partialCmp (asFloat x) y.toFloat).getD .eq
  | .float x, .integer y => (partialCmp x.toFloat (asFloat y)).getD .eq
  | .string x, .string y => compare x y
  | _, _ => .eq

/-! ## What has an order -/

inductive ValueKind where
  | text
  | number
  | other
  deriving DecidableEq, Repr

/-- The values among which there is an order: a NaN is like the values that have none. -/
def Value.kind : Value → ValueKind
  | .string _ => .text
  | .integer _ => .number
  | .float f => if f.toFloat.isNaN then .other else .number
  | _ => .other

theorem asFloat_holds (i : Int64) : HoldsUnits (asFloat i) (roundInt 53 i.toInt * 2 ^ 1074) := by
  apply holds_ofInt
  have low := i.le_toInt
  have high := i.toInt_lt
  omega

theorem asFloat_isNaN (i : Int64) : (asFloat i).isNaN = false := (asFloat_holds i).isNaN

/-- The conversion keeps the order, though not strictly. -/
theorem asFloat_mono {i j : Int64} (below : i.toInt ≤ j.toInt) :
    floatLevel (asFloat i) ≤ floatLevel (asFloat j) := by
  apply (asFloat_holds i).level_le (asFloat_holds j)
  exact Int.mul_le_mul_of_nonneg_right (roundInt_mono (by decide) below) (pow_nonneg (by decide) _)

theorem partialCmp_nan {x y : Float} (nan : x.isNaN = true ∨ y.isNaN = true) : partialCmp x y = none := by
  have lt : ¬ x < y := by
    rw [float_lt_iff, compare_nan nan]
    nofun
  have gt : ¬ y < x := by
    rw [float_lt_iff, compare_nan nan.symm]
    nofun
  have eq : ¬ (x == y) = true := by
    rw [float_beq_iff, compare_nan nan]
    nofun
  rw [partialCmp, if_neg lt, if_neg gt, if_neg eq]

theorem partialCmp_levels {x y : Float} (hx : x.isNaN = false) (hy : y.isNaN = false) :
    partialCmp x y = some (compare (floatLevel x) (floatLevel y)) := by
  rw [partialCmp]
  rcases lt_trichotomy (floatLevel x) (floatLevel y) with lt | eq | gt
  · rw [if_pos ((float_lt_iff_level hx hy).mpr lt), compare_lt_iff_lt.mpr lt]
  · have notLt : ¬ x < y := fun lt => ((float_lt_iff_level hx hy).mp lt).ne eq
    have notGt : ¬ y < x := fun gt => ((float_lt_iff_level hy hx).mp gt).ne' eq
    rw [if_neg notLt, if_neg notGt, if_pos ((float_beq_iff_level hx hy).mpr eq), compare_eq_iff_eq.mpr eq]
  · have notLt : ¬ x < y := fun lt => ((float_lt_iff_level hx hy).mp lt).not_gt gt
    rw [if_neg notLt, if_pos ((float_lt_iff_level hy hx).mpr gt), compare_gt_iff_gt.mpr gt]

/-! ## Numbers -/

/-- The level of the float a number is or becomes. -/
def Value.numberLevel : Value → ℤ ×ₗ ℤ ×ₗ ℤ
  | .integer i => floatLevel (asFloat i)
  | .float f => floatLevel f.toFloat
  | _ => toLex (0, toLex (0, 0))

def Value.isInteger (v : Value) : Bool := v matches .integer _

theorem Value.float_kind {f : F64} (number : (Value.float f).kind = .number) : f.toFloat.isNaN = false := by
  cases nan : f.toFloat.isNaN with
  | false => rfl
  | true =>
      rw [kind, if_pos nan] at number
      cases number

/-- Numbers compare by the floats they are or become, unless both are integers. -/
theorem valueCmp_numbers {a b : Value} (ha : a.kind = .number) (hb : b.kind = .number)
    (mixed : ¬ (a.isInteger = true ∧ b.isInteger = true)) :
    valueCmp a b = compare a.numberLevel b.numberLevel := by
  cases a with
  | integer i =>
      cases b with
      | integer j => exact absurd ⟨rfl, rfl⟩ mixed
      | float g =>
          simp only [valueCmp]
          rw [partialCmp_levels (asFloat_isNaN i) (Value.float_kind hb)]
          rfl
      | string _ | boolean _ | ref _ | keyword _ | null => cases hb
  | float f =>
      cases b with
      | integer j =>
          simp only [valueCmp]
          rw [partialCmp_levels (Value.float_kind ha) (asFloat_isNaN j)]
          rfl
      | float g =>
          simp only [valueCmp]
          rw [partialCmp_levels (Value.float_kind ha) (Value.float_kind hb)]
          rfl
      | string _ | boolean _ | ref _ | keyword _ | null => cases hb
  | string _ | boolean _ | ref _ | keyword _ | null => cases ha

/-- Values that have no order in common are equal. -/
theorem valueCmp_apart {a b : Value} (texts : ¬ (a.kind = .text ∧ b.kind = .text))
    (numbers : ¬ (a.kind = .number ∧ b.kind = .number)) : valueCmp a b = .eq := by
  have nan : ∀ {f : F64}, ¬ (Value.float f).kind = .number → f.toFloat.isNaN = true := by
    intro f other
    cases nan : f.toFloat.isNaN with
    | true => rfl
    | false =>
        rw [Value.kind, nan] at other
        exact absurd rfl other
  cases a with
  | integer i =>
      cases b with
      | integer j => exact absurd ⟨rfl, rfl⟩ numbers
      | float g =>
          simp only [valueCmp]
          rw [partialCmp_nan (.inr (nan fun number => numbers ⟨rfl, number⟩))]
          rfl
      | string _ | boolean _ | ref _ | keyword _ | null => rfl
  | float f =>
      cases b with
      | integer j =>
          simp only [valueCmp]
          rw [partialCmp_nan (.inl (nan fun number => numbers ⟨number, rfl⟩))]
          rfl
      | float g =>
          have either : f.toFloat.isNaN = true ∨ g.toFloat.isNaN = true := by
            by_cases left : (Value.float f).kind = .number
            · exact .inr (nan fun right => numbers ⟨left, right⟩)
            · exact .inl (nan left)
          simp only [valueCmp]
          rw [partialCmp_nan either]
          rfl
      | string _ | boolean _ | ref _ | keyword _ | null => rfl
  | string s =>
      cases b with
      | string t => exact absurd ⟨rfl, rfl⟩ texts
      | integer _ | float _ | boolean _ | ref _ | keyword _ | null => rfl
  | boolean _ | ref _ | keyword _ | null => cases b <;> rfl

theorem Value.kind_text {v : Value} (text : v.kind = .text) : ∃ s, v = .string s := by
  cases v with
  | string s => exact ⟨s, rfl⟩
  | float f =>
      rw [kind] at text
      split at text <;> cases text
  | integer _ | boolean _ | ref _ | keyword _ | null => cases text

theorem Value.isInteger_iff {v : Value} : v.isInteger = true ↔ ∃ i, v = .integer i := by
  cases v <;> simp [isInteger]

/-! ## Two values -/

theorem partialCmp_lt_iff (x y : Float) : (partialCmp x y).getD .eq = .lt ↔ x < y := by
  rw [partialCmp]
  by_cases lt : x < y
  · rw [if_pos lt]
    exact iff_of_true rfl lt
  · rw [if_neg lt]
    refine iff_of_false ?_ lt
    split
    · nofun
    · split <;> nofun

theorem valueLt_iff (a b : Value) : valueLt a b = true ↔ valueCmp a b = .lt := by
  cases a with
  | integer i =>
      cases b with
      | integer j =>
          rw [valueLt, valueCmp, decide_eq_true_iff, compare_lt_iff_lt]
          exact Int64.lt_iff_toInt_lt
      | float g => rw [valueLt, valueCmp, decide_eq_true_iff, partialCmp_lt_iff]
      | string _ | boolean _ | ref _ | keyword _ | null => exact iff_of_false nofun nofun
  | float f =>
      cases b with
      | integer j => rw [valueLt, valueCmp, decide_eq_true_iff, partialCmp_lt_iff]
      | float g => rw [valueLt, valueCmp, decide_eq_true_iff, partialCmp_lt_iff]
      | string _ | boolean _ | ref _ | keyword _ | null => exact iff_of_false nofun nofun
  | string s =>
      cases b with
      | string t =>
          rw [valueLt, valueCmp, decide_eq_true_iff]
          exact (compare_lt_iff_lt (a := s)).symm
      | integer _ | float _ | boolean _ | ref _ | keyword _ | null => exact iff_of_false nofun nofun
  | boolean _ | ref _ | keyword _ | null => cases b <;> exact iff_of_false nofun nofun

theorem valueCmp_swap (a b : Value) : valueCmp a b = (valueCmp b a).swap := by
  by_cases texts : a.kind = .text ∧ b.kind = .text
  · obtain ⟨s, rfl⟩ := Value.kind_text texts.1
    obtain ⟨t, rfl⟩ := Value.kind_text texts.2
    exact (compare_swap t s).symm
  · by_cases numbers : a.kind = .number ∧ b.kind = .number
    · by_cases integers : a.isInteger = true ∧ b.isInteger = true
      · obtain ⟨i, rfl⟩ := Value.isInteger_iff.mp integers.1
        obtain ⟨j, rfl⟩ := Value.isInteger_iff.mp integers.2
        exact (compare_swap j.toInt i.toInt).symm
      · rw [valueCmp_numbers numbers.1 numbers.2 integers, valueCmp_numbers numbers.2 numbers.1 (fun both => integers both.symm)]
        exact (compare_swap _ _).symm
    · rw [valueCmp_apart texts numbers, valueCmp_apart (fun both => texts both.symm) (fun both => numbers both.symm)]
      rfl

theorem valueCmp_eq_comm {a b : Value} (equal : valueCmp a b = .eq) : valueCmp b a = .eq := by
  rw [valueCmp_swap, equal]
  rfl

/-- A number before another has no greater level. -/
theorem numberLevel_le {a b : Value} (ha : a.kind = .number) (hb : b.kind = .number)
    (below : valueCmp a b ≠ .gt) : a.numberLevel ≤ b.numberLevel := by
  by_cases integers : a.isInteger = true ∧ b.isInteger = true
  · obtain ⟨i, rfl⟩ := Value.isInteger_iff.mp integers.1
    obtain ⟨j, rfl⟩ := Value.isInteger_iff.mp integers.2
    apply asFloat_mono
    rw [valueCmp, Ne, compare_gt_iff_gt] at below
    omega
  · rw [valueCmp_numbers ha hb integers, Ne, compare_gt_iff_gt] at below
    exact not_lt.mp below

theorem numberLevel_eq {a b : Value} (ha : a.kind = .number) (hb : b.kind = .number)
    (equal : valueCmp a b = .eq) : a.numberLevel = b.numberLevel := by
  have reversed := valueCmp_eq_comm equal
  apply le_antisymm
  · apply numberLevel_le ha hb
    rw [equal]
    nofun
  · apply numberLevel_le hb ha
    rw [reversed]
    nofun

theorem Value.kind_number {v : Value} (number : v.kind = .number) :
    ∃ x, toFloat v = some x ∧ x.isNaN = false ∧ v.numberLevel = floatLevel x := by
  cases v with
  | integer i => exact ⟨asFloat i, rfl, asFloat_isNaN i, rfl⟩
  | float f => exact ⟨f.toFloat, rfl, float_kind number, rfl⟩
  | string _ | boolean _ | ref _ | keyword _ | null => cases number

theorem Value.kind_of_toFloat {v : Value} {x : Float} (converts : toFloat v = some x) (number : x.isNaN = false) :
    v.kind = .number ∧ v.numberLevel = floatLevel x := by
  cases v with
  | integer i =>
      cases converts
      exact ⟨rfl, rfl⟩
  | float f =>
      cases converts
      refine ⟨?_, rfl⟩
      rw [kind, number]
      rfl
  | string _ | boolean _ | ref _ | keyword _ | null => cases converts

theorem isNaN_of_apart {x y : Float} (apart : x < y ∨ y < x) : x.isNaN = false ∧ y.isNaN = false := by
  have numbers : ∀ {x y : Float}, x < y → ¬ (x.isNaN = true ∨ y.isNaN = true) := by
    intro x y lt nan
    rw [float_lt_iff, compare_nan nan] at lt
    cases lt
  have both : ¬ (x.isNaN = true ∨ y.isNaN = true) := apart.elim numbers fun gt nan => numbers gt nan.symm
  rw [not_or, Bool.not_eq_true, Bool.not_eq_true] at both
  exact both

theorem valueCmp_of_apart {a c : Value} {x y : Float} (left : toFloat a = some x) (right : toFloat c = some y)
    (apart : x < y ∨ y < x) : a.kind = .number ∧ c.kind = .number ∧ valueCmp a c ≠ .eq := by
  have ⟨hx, hy⟩ := isNaN_of_apart apart
  have ⟨ha, levelA⟩ := Value.kind_of_toFloat left hx
  have ⟨hc, levelC⟩ := Value.kind_of_toFloat right hy
  refine ⟨ha, hc, ?_⟩
  intro equal
  have levels := numberLevel_eq ha hc equal
  rw [levelA, levelC] at levels
  cases apart with
  | inl lt => exact ((float_lt_iff_level hx hy).mp lt).ne levels
  | inr gt => exact ((float_lt_iff_level hy hx).mp gt).ne' levels

/-! ## Three values -/

/-- What a sort asks of its comparison, of three values. -/
structure Preordered (a b c : Value) : Prop where
  reverse : valueCmp a b = (valueCmp b a).swap
  trans : valueCmp a b ≠ .gt → valueCmp b c ≠ .gt → valueCmp a c ≠ .gt
  transEq : valueCmp a b = .eq → valueCmp b c = .eq → valueCmp a c = .eq
  agrees : valueLt a b = true ↔ valueCmp a b = .lt

/-- The second value is equal to the first and to the third, which are not equal: it is of
another kind than theirs, or a float to which two integers round. -/
inductive Bridges : Value → Value → Value → Prop where
  | texts {s t : String} {b : Value} : s ≠ t → b.kind ≠ .text → Bridges (.string s) b (.string t)
  | integers {i j : Int64} {b : Value} : i ≠ j → b.kind ≠ .number → Bridges (.integer i) b (.integer j)
  | numbers {a b c : Value} {x y : Float} : toFloat a = some x → toFloat c = some y → x < y ∨ y < x →
      b.kind ≠ .number → Bridges a b c
  | rounded {i j : Int64} {f : F64} : i ≠ j → (asFloat i == f.toFloat) = true → (f.toFloat == asFloat j) = true →
      Bridges (.integer i) (.float f) (.integer j)

/-- Between numbers only a float that two integers round to is a bridge. -/
theorem bridges_numbers {a b c : Value} (ha : a.kind = .number) (hb : b.kind = .number) (hc : c.kind = .number)
    (left : valueCmp a b = .eq) (right : valueCmp b c = .eq) (apart : valueCmp a c ≠ .eq) : Bridges a b c := by
  have first := numberLevel_eq ha hb left
  have second := numberLevel_eq hb hc right
  by_cases integers : a.isInteger = true ∧ c.isInteger = true
  · obtain ⟨i, rfl⟩ := Value.isInteger_iff.mp integers.1
    obtain ⟨j, rfl⟩ := Value.isInteger_iff.mp integers.2
    have differ : i ≠ j := by
      rintro rfl
      exact apart (compare_self i.toInt)
    cases b with
    | integer k =>
        have same : i.toInt = j.toInt := (compare_eq_iff_eq.mp left).trans (compare_eq_iff_eq.mp right)
        exact absurd (Int64.toInt_inj.mp same) differ
    | float f =>
        have hf := Value.float_kind hb
        exact .rounded differ ((float_beq_iff_level (asFloat_isNaN i) hf).mpr first)
          ((float_beq_iff_level hf (asFloat_isNaN j)).mpr second)
    | string _ | boolean _ | ref _ | keyword _ | null => cases hb
  · rw [valueCmp_numbers ha hc integers, first, second] at apart
    exact absurd (compare_self _) apart

theorem bridges_others {a b c : Value} (ha : a.kind = .number) (hc : c.kind = .number) (other : b.kind ≠ .number)
    (apart : valueCmp a c ≠ .eq) : Bridges a b c := by
  by_cases integers : a.isInteger = true ∧ c.isInteger = true
  · obtain ⟨i, rfl⟩ := Value.isInteger_iff.mp integers.1
    obtain ⟨j, rfl⟩ := Value.isInteger_iff.mp integers.2
    apply Bridges.integers _ other
    rintro rfl
    exact apart (compare_self i.toInt)
  · obtain ⟨x, left, hx, levelA⟩ := Value.kind_number ha
    obtain ⟨y, right, hy, levelC⟩ := Value.kind_number hc
    rw [valueCmp_numbers ha hc integers, levelA, levelC, Ne, compare_eq_iff_eq] at apart
    apply Bridges.numbers left right _ other
    exact (lt_or_gt_of_ne apart).imp (float_lt_iff_level hx hy).mpr (float_lt_iff_level hy hx).mpr

theorem bridges_iff (a b c : Value) :
    Bridges a b c ↔ valueCmp a b = .eq ∧ valueCmp b c = .eq ∧ valueCmp a c ≠ .eq := by
  constructor
  · intro bridges
    cases bridges with
    | @texts s t _ apart other =>
        refine ⟨valueCmp_apart (fun both => other both.2) nofun, valueCmp_apart (fun both => other both.1) ?_, ?_⟩
        · nofun
        · intro equal
          exact apart ((compare_eq_iff_eq (a := s)).mp equal)
    | @integers i j _ apart other =>
        refine ⟨valueCmp_apart nofun (fun both => other both.2), valueCmp_apart ?_ (fun both => other both.1), ?_⟩
        · nofun
        · intro equal
          exact apart (Int64.toInt_inj.mp (compare_eq_iff_eq.mp equal))
    | numbers left right apart other =>
        have ⟨ha, hc, strict⟩ := valueCmp_of_apart left right apart
        refine ⟨valueCmp_apart ?_ (fun both => other both.2), valueCmp_apart ?_ (fun both => other both.1), strict⟩
        · rw [ha]
          nofun
        · rw [hc]
          nofun
    | @rounded i j f apart left right =>
        have hf : f.toFloat.isNaN = false := by
          apply Bool.eq_false_of_not_eq_true
          intro nan
          rw [float_beq_iff, compare_nan (.inr nan)] at left
          cases left
        have first := (float_beq_iff_level (asFloat_isNaN i) hf).mp left
        have second := (float_beq_iff_level hf (asFloat_isNaN j)).mp right
        simp only [valueCmp]
        rw [partialCmp_levels (asFloat_isNaN i) hf, partialCmp_levels hf (asFloat_isNaN j), first, second]
        refine ⟨compare_self _, compare_self _, ?_⟩
        intro equal
        exact apart (Int64.toInt_inj.mp (compare_eq_iff_eq.mp equal))
  · intro ⟨left, right, apart⟩
    by_cases texts : a.kind = .text ∧ c.kind = .text
    · obtain ⟨s, rfl⟩ := Value.kind_text texts.1
      obtain ⟨t, rfl⟩ := Value.kind_text texts.2
      apply Bridges.texts
      · rintro rfl
        exact apart (compare_self s)
      · intro text
        obtain ⟨u, rfl⟩ := Value.kind_text text
        have first := (compare_eq_iff_eq (a := s)).mp left
        have second := (compare_eq_iff_eq (a := u)).mp right
        rw [first, second] at apart
        exact apart (compare_self t)
    · by_cases numbers : a.kind = .number ∧ c.kind = .number
      · by_cases number : b.kind = .number
        · exact bridges_numbers numbers.1 number numbers.2 left right apart
        · exact bridges_others numbers.1 numbers.2 number apart
      · exact absurd (valueCmp_apart texts numbers) apart

/-- Where the last of three values comes before the first, with the second between them,
the second is equal to both. -/
theorem valueCmp_squeezed {a b c : Value} (left : valueCmp a b ≠ .gt) (right : valueCmp b c ≠ .gt)
    (above : valueCmp a c = .gt) : valueCmp a b = .eq ∧ valueCmp b c = .eq := by
  by_cases texts : a.kind = .text ∧ c.kind = .text
  · obtain ⟨s, rfl⟩ := Value.kind_text texts.1
    obtain ⟨t, rfl⟩ := Value.kind_text texts.2
    by_cases text : b.kind = .text
    · obtain ⟨u, rfl⟩ := Value.kind_text text
      have first : s ≤ u := not_lt.mp fun gt => left ((compare_gt_iff_gt (a := s)).mpr gt)
      have second : u ≤ t := not_lt.mp fun gt => right ((compare_gt_iff_gt (a := u)).mpr gt)
      exact absurd ((compare_gt_iff_gt (a := s)).mp above) (not_lt.mpr (first.trans second))
    · exact ⟨valueCmp_apart (fun both => text both.2) nofun, valueCmp_apart (fun both => text both.1) (fun both => by cases both.2)⟩
  · by_cases numbers : a.kind = .number ∧ c.kind = .number
    · have ⟨ha, hc⟩ := numbers
      by_cases hb : b.kind = .number
      · have first := numberLevel_le ha hb left
        have second := numberLevel_le hb hc right
        by_cases integers : a.isInteger = true ∧ c.isInteger = true
        · obtain ⟨i, rfl⟩ := Value.isInteger_iff.mp integers.1
          obtain ⟨j, rfl⟩ := Value.isInteger_iff.mp integers.2
          have later : j.toInt < i.toInt := compare_gt_iff_gt.mp above
          have back := asFloat_mono later.le
          by_cases integer : b.isInteger = true
          · obtain ⟨k, rfl⟩ := Value.isInteger_iff.mp integer
            have notLater : ¬ k.toInt < i.toInt := fun gt => left (compare_gt_iff_gt.mpr gt)
            have notLater' : ¬ j.toInt < k.toInt := fun gt => right (compare_gt_iff_gt.mpr gt)
            omega
          · rw [valueCmp_numbers ha hb (fun both => integer both.2), valueCmp_numbers hb hc (fun both => integer both.1)]
            exact ⟨compare_eq_iff_eq.mpr (first.antisymm (second.trans back)),
              compare_eq_iff_eq.mpr (second.antisymm (back.trans first))⟩
        · rw [valueCmp_numbers ha hc integers, compare_gt_iff_gt] at above
          exact absurd above (not_lt.mpr (first.trans second))
      · refine ⟨valueCmp_apart ?_ (fun both => hb both.2), valueCmp_apart ?_ (fun both => hb both.1)⟩
        · rw [ha]
          nofun
        · rw [hc]
          nofun
    · rw [valueCmp_apart texts numbers] at above
      cases above

theorem Bridges.transEq_of_not {a b c : Value} (unbridged : ¬ Bridges a b c) (left : valueCmp a b = .eq)
    (right : valueCmp b c = .eq) : valueCmp a c = .eq := by
  by_contra apart
  exact unbridged ((bridges_iff a b c).mpr ⟨left, right, apart⟩)

theorem Bridges.trans_of_not {a b c : Value} (unbridged : ¬ Bridges a b c) (left : valueCmp a b ≠ .gt)
    (right : valueCmp b c ≠ .gt) : valueCmp a c ≠ .gt := by
  intro above
  have both := valueCmp_squeezed left right above
  rw [transEq_of_not unbridged both.1 both.2] at above
  cases above

theorem valueCmp_preordered_iff (a b c : Value) : Preordered a b c ↔ ¬ Bridges a b c := by
  constructor
  · intro preordered bridges
    have ⟨left, right, apart⟩ := (bridges_iff a b c).mp bridges
    exact apart (preordered.transEq left right)
  · intro unbridged
    exact ⟨valueCmp_swap a b, Bridges.trans_of_not unbridged, Bridges.transEq_of_not unbridged, valueLt_iff a b⟩

/-- The order is none: nil is equal to 1 and to 2. -/
theorem valueCmp_not_preordered : ¬ ∀ a b c, Preordered a b c := by
  intro preordered
  have equal := (preordered (.integer 1) .null (.integer 2)).transEq rfl rfl
  exact absurd equal (by decide)

end Minigraf
