import Minigraf.Query.FloatBits

/-!
`Hash`, `==` and `cmp` of values in `src/graph/types.rs`: three impls that have to agree on
which values are the same, for maps ordered by `cmp` and maps keyed by hash to group alike.
-/

namespace Minigraf

/-- What a hasher is given. -/
inductive HashWrite where
  | discriminant (n : Nat)
  | str (s : String)
  | i64 (i : Int64)
  | u8 (n : UInt8)
  | u64 (n : UInt64)
  | bool (b : Bool)
  | uuid (id : EntityId)
  deriving DecidableEq, Repr

/-- `-f`. -/
def F64.neg (f : F64) : F64 := ⟨f.bits ^^^ 0x8000000000000000⟩

def F64.hash (f : F64) : List HashWrite :=
  if f.isNaN then [.u8 0]
  else if f.isZero then [.u8 2, .u64 0]
  else if f.isNegative then [.u8 1, .u64 f.neg.bits]
  else [.u8 2, .u64 f.bits]

/-- `Hash` of a value. -/
def Value.hash (v : Value) : List HashWrite :=
  .discriminant v.discriminant ::
    match v with
    | .string s => [.str s]
    | .integer i => [.i64 i]
    | .float f => f.hash
    | .boolean b => [.bool b]
    | .ref r => [.uuid r]
    | .keyword k => [.str k]
    | .null => []

/-! ## Floats -/

theorem F64.isZero_iff (f : F64) : f.isZero = true ↔ f.place = 0 := by
  have range := f.bits.toNat_lt
  rw [isZero, decide_eq_true_eq, ← UInt64.toNat_inj, toNat_magnitude, place_eq]
  change _ = 0 ↔ _
  split <;> omega

theorem F64.eq_of_place {f g : F64} (same : f.place = g.place) : f = g ∨ f.isZero = true ∧ g.isZero = true := by
  have range := f.bits.toNat_lt
  have range' := g.bits.toNat_lt
  rw [isZero_iff, isZero_iff, ← same, and_self, place_eq]
  rw [place_eq, place_eq] at same
  by_cases bits : f.bits.toNat = g.bits.toNat
  · left
    cases f
    cases g
    exact congrArg mk (UInt64.toNat_inj.mp bits)
  · right
    split at same <;> split at same <;> split <;> omega

theorem F64.eq_iff (f g : F64) : f.eq g = true ↔ f.isNaN = false ∧ g.isNaN = false ∧ f.place = g.place := by
  rw [F64.eq, Bool.and_eq_true, Bool.and_eq_true, Bool.or_eq_true, Bool.and_eq_true, Bool.not_eq_true',
    Bool.not_eq_true', decide_eq_true_eq, and_assoc]
  refine and_congr_right fun _ => and_congr_right fun _ => ⟨fun same => ?_, eq_of_place⟩
  cases same with
  | inl same => exact congrArg place same
  | inr zero => exact ((isZero_iff f).mp zero.1).trans ((isZero_iff g).mp zero.2).symm

theorem F64.hash_congr {f g : F64} (same : f.eq g = true) : f.hash = g.hash := by
  rw [F64.eq, Bool.and_eq_true, Bool.and_eq_true, Bool.or_eq_true, Bool.and_eq_true, Bool.not_eq_true',
    Bool.not_eq_true', decide_eq_true_eq] at same
  obtain ⟨⟨number, number'⟩, equal | ⟨zero, zero'⟩⟩ := same
  · exact congrArg F64.hash equal
  · simp [F64.hash, number, number', zero, zero']

theorem F64.rank_eq_iff (f g : F64) : f.rank = g.rank ↔ f.eq g = true ∨ f.isNaN = true ∧ g.isNaN = true := by
  have below := f.place_lt
  have below' := g.place_lt
  rw [eq_iff]
  cases nan : f.isNaN <;> cases nan' : g.isNaN <;> simp [rank, nan, nan'] <;> omega

/-! ## Values -/

theorem Value.hash_congr {a b : Value} (same : a.eq b = true) : a.hash = b.hash := by
  rcases Value.eq_iff.mp same with ⟨f, g, rfl, rfl, same⟩ | ⟨rfl, _⟩
  · exact congrArg (HashWrite.discriminant 2 :: ·) (F64.hash_congr same)
  · rfl

theorem Value.rank_float_iff (f g : F64) : (Value.float f).rank = (Value.float g).rank ↔ f.rank = g.rank := by
  change toLex (2, toLex ("", f.rank)) = toLex (2, toLex ("", g.rank)) ↔ _
  simp only [toLex_inj, Prod.mk.injEq, true_and]

theorem Value.cmp_eq_iff_eq (a b : Value) : a.cmp b = .eq ↔ a.eq b = true ∨ a.IsNaN ∧ b.IsNaN := by
  rw [cmp_eq_iff]
  constructor
  · intro same
    cases plain : a.isFloat with
    | false =>
        cases eq_of_rank same plain
        refine .inl (Value.eq_iff.mpr (.inr ⟨rfl, fun f float => ?_⟩))
        rw [float] at plain
        cases plain
    | true =>
        have kind := discriminant_of_rank same
        cases a with
        | float f =>
            cases b with
            | float g => exact (F64.rank_eq_iff f g).mp ((rank_float_iff f g).mp same)
            | string _ | integer _ | boolean _ | ref _ | keyword _ | null => cases kind
        | string _ | integer _ | boolean _ | ref _ | keyword _ | null => cases plain
  · intro same
    cases same with
    | inl same =>
        cases Value.eq_iff.mp same with
        | inl floats =>
            obtain ⟨f, g, rfl, rfl, same⟩ := floats
            exact (rank_float_iff f g).mpr ((F64.rank_eq_iff f g).mpr (.inl same))
        | inr same => rw [same.1]
    | inr nans =>
        cases a with
        | float f =>
            cases b with
            | float g => exact (rank_float_iff f g).mpr ((F64.rank_eq_iff f g).mpr (.inr nans))
            | string _ | integer _ | boolean _ | ref _ | keyword _ | null => exact nans.2.elim
        | string _ | integer _ | boolean _ | ref _ | keyword _ | null => exact nans.1.elim

theorem Value.cmp_swap (a b : Value) : b.cmp a = (a.cmp b).swap := by
  rw [cmp_eq, cmp_eq]
  exact (Std.OrientedOrd.eq_swap)

theorem Value.cmp_isLE_iff (a b : Value) : (a.cmp b).isLE = true ↔ a.rank ≤ b.rank := by
  rw [cmp_eq, Ordering.isLE_iff_ne_gt]
  exact compare_le_iff_le

/-- `cmp` is a total order, it finds equal what `==` does and NaNs, and what is equal by `==`
is hashed alike. -/
theorem Value.order_coheres :
    (∀ a : Value, a.cmp a = .eq) ∧
    (∀ a b : Value, b.cmp a = (a.cmp b).swap) ∧
    (∀ a b : Value, (a.cmp b).isLE = true ∨ (b.cmp a).isLE = true) ∧
    (∀ a b : Value, (a.cmp b).isLE = true → (b.cmp a).isLE = true → a.cmp b = .eq) ∧
    (∀ a b c : Value, (a.cmp b).isLE = true → (b.cmp c).isLE = true → (a.cmp c).isLE = true) ∧
    (∀ a b : Value, a.cmp b = .eq ↔ a.eq b = true ∨ a.IsNaN ∧ b.IsNaN) ∧
    ∀ a b : Value, a.eq b = true → a.hash = b.hash := by
  refine ⟨fun a => cmp_eq_iff.mpr rfl, cmp_swap, fun a b => ?_, fun a b up down => ?_, fun a b c first second => ?_,
    cmp_eq_iff_eq, fun _ _ => hash_congr⟩
  · rw [cmp_isLE_iff, cmp_isLE_iff]
    exact le_total _ _
  · rw [cmp_isLE_iff] at up down
    exact cmp_eq_iff.mpr (le_antisymm up down)
  · rw [cmp_isLE_iff] at *
    exact le_trans first second

end Minigraf
