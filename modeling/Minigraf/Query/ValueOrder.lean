import Mathlib.Data.List.Lex
import Mathlib.Data.String.Basic
import Minigraf.Lib.Comparison
import Minigraf.Query.Types

/-!
`Value::cmp` of `src/graph/types.rs`: values of one variant by what they carry, others by
their variant. It tells apart less than `==` on floats does: the two zeros are alike, and
so are all NaNs, which come after every other float.
-/

namespace Minigraf

def Value.discriminant : Value → Nat
  | .string _ => 0
  | .integer _ => 1
  | .float _ => 2
  | .boolean _ => 3
  | .ref _ => 4
  | .keyword _ => 5
  | .null => 6

/-- Where a float that is no NaN stands among the others: sign and magnitude. -/
def F64.place (f : F64) : Int :=
  let magnitude : Int := (f.bits &&& 0x7FFFFFFFFFFFFFFF).toNat
  if f.bits >>> 63 = 0 then magnitude else -magnitude

/-- `partial_cmp` on floats. -/
def F64.partialCmp (f g : F64) : Option Ordering :=
  if f.isNaN || g.isNaN then none else some (compare f.place g.place)

def Value.cmp : Value → Value → Ordering
  | .string s, .string t => compare s t
  | .integer i, .integer j => compare i.toInt j.toInt
  | .float f, .float g =>
      if f.isNaN && g.isNaN then .eq
      else if f.isNaN then .gt
      else if g.isNaN then .lt
      else (f.partialCmp g).getD .eq
  | .boolean b, .boolean c => compare b.toNat c.toNat
  | .ref x, .ref y => compare x.val y.val
  | .keyword k, .keyword l => compare k l
  | .null, .null => .eq
  | v, w => compare v.discriminant w.discriminant

/-- `cmp` on vectors. -/
def cmpValues : List Value → List Value → Ordering
  | [], [] => .eq
  | [], _ :: _ => .lt
  | _ :: _, [] => .gt
  | v :: vs, w :: ws => (v.cmp w).then (cmpValues vs ws)

/-! ## Ranks -/

/-- Where a value stands in the order of `cmp`. -/
abbrev Rank := ℕ ×ₗ String ×ₗ ℤ

/-- A NaN stands behind every magnitude. -/
def F64.rank (f : F64) : Int := if f.isNaN then 2 ^ 64 else f.place

def Value.rank : Value → Rank
  | .string s => toLex (0, toLex (s, 0))
  | .integer i => toLex (1, toLex ("", i.toInt))
  | .float f => toLex (2, toLex ("", f.rank))
  | .boolean b => toLex (3, toLex ("", b.toNat))
  | .ref x => toLex (4, toLex ("", x.val))
  | .keyword k => toLex (5, toLex (k, 0))
  | .null => toLex (6, toLex ("", 0))

theorem F64.place_lt (f : F64) : f.place < 2 ^ 64 := by
  have bound := (f.bits &&& 0x7FFFFFFFFFFFFFFF).toNat_lt
  unfold place
  simp only
  split <;> omega

theorem F64.cmp_rank (f g : F64) :
    (if f.isNaN && g.isNaN then Ordering.eq
      else if f.isNaN then .gt
      else if g.isNaN then .lt
      else (f.partialCmp g).getD .eq) = compare f.rank g.rank := by
  have hf := f.place_lt
  have hg := g.place_lt
  cases nf : f.isNaN <;> cases ng : g.isNaN <;> simp only [F64.rank, F64.partialCmp, nf, ng,
    Bool.and_self, Bool.and_true, Bool.and_false, Bool.or_self, if_true, if_false, Bool.false_eq_true,
    Option.getD_some]
  · exact (compare_lt_iff_lt.mpr hf).symm
  · exact (compare_gt_iff_gt.mpr hg).symm
  · exact (compare_eq_iff_eq.mpr rfl).symm

theorem Value.rank_fst (v : Value) : (ofLex v.rank).1 = v.discriminant := by
  cases v <;> rfl

theorem Value.cmp_of_ne {v w : Value} (h : v.discriminant ≠ w.discriminant) :
    v.cmp w = compare v.discriminant w.discriminant := by
  cases v <;> cases w <;> first | exact absurd rfl h | rfl

/-- `cmp` compares ranks. -/
theorem Value.cmp_eq (v w : Value) : v.cmp w = compare v.rank w.rank := by
  by_cases same : v.discriminant = w.discriminant
  · cases v with
    | string s =>
        cases w with
        | string t =>
            change compare s t = compare (toLex (0, toLex (s, (0 : ℤ)))) (toLex (0, toLex (t, (0 : ℤ))))
            rw [compare_toLex, compare_toLex, compare_self (0 : ℤ), compare_self (0 : ℕ)]
            cases compare s t <;> rfl
        | integer _ | float _ | boolean _ | ref _ | keyword _ | null => cases same
    | integer i =>
        cases w with
        | integer j =>
            change compare i.toInt j.toInt = compare (toLex ((1 : ℕ), toLex ("", i.toInt)))
              (toLex (1, toLex ("", j.toInt)))
            rw [compare_toLex, compare_toLex, compare_self "", compare_self (1 : ℕ)]
            rfl
        | string _ | float _ | boolean _ | ref _ | keyword _ | null => cases same
    | float f =>
        cases w with
        | float g =>
            refine (F64.cmp_rank f g).trans ?_
            change _ = compare (toLex ((2 : ℕ), toLex ("", f.rank))) (toLex (2, toLex ("", g.rank)))
            rw [compare_toLex, compare_toLex, compare_self "", compare_self (2 : ℕ)]
            rfl
        | string _ | integer _ | boolean _ | ref _ | keyword _ | null => cases same
    | boolean b =>
        cases w with
        | boolean c =>
            change compare b.toNat c.toNat = compare (toLex ((3 : ℕ), toLex ("", (b.toNat : ℤ))))
              (toLex (3, toLex ("", (c.toNat : ℤ))))
            rw [compare_toLex, compare_toLex, compare_self "", compare_self (3 : ℕ), compare_cast]
            rfl
        | string _ | integer _ | float _ | ref _ | keyword _ | null => cases same
    | ref x =>
        cases w with
        | ref y =>
            change compare x.val y.val = compare (toLex ((4 : ℕ), toLex ("", (x.val : ℤ))))
              (toLex (4, toLex ("", (y.val : ℤ))))
            rw [compare_toLex, compare_toLex, compare_self "", compare_self (4 : ℕ)]
            rw [compare_cast]
            rfl
        | string _ | integer _ | float _ | boolean _ | keyword _ | null => cases same
    | keyword k =>
        cases w with
        | keyword l =>
            change compare k l = compare (toLex (5, toLex (k, (0 : ℤ)))) (toLex (5, toLex (l, (0 : ℤ))))
            rw [compare_toLex, compare_toLex, compare_self (0 : ℤ), compare_self (5 : ℕ)]
            cases compare k l <;> rfl
        | string _ | integer _ | float _ | boolean _ | ref _ | null => cases same
    | null =>
        cases w with
        | null => rfl
        | string _ | integer _ | float _ | boolean _ | ref _ | keyword _ => cases same
  · rw [cmp_of_ne same, ← rank_fst, ← rank_fst]
    rw [← rank_fst, ← rank_fst] at same
    conv_rhs => rw [← toLex_ofLex v.rank, ← toLex_ofLex w.rank]
    rw [compare_toLex]
    rcases lt_or_gt_of_ne same with lt | gt
    · rw [compare_lt_iff_lt.mpr lt]
      rfl
    · rw [compare_gt_iff_gt.mpr gt]
      rfl

theorem Value.cmp_eq_iff {v w : Value} : v.cmp w = .eq ↔ v.rank = w.rank := by
  rw [cmp_eq, compare_eq_iff_eq]

def Value.isFloat (v : Value) : Bool := v matches .float _

theorem Value.discriminant_of_rank {v w : Value} (same : v.rank = w.rank) : v.discriminant = w.discriminant := by
  rw [← rank_fst, ← rank_fst, same]

/-- Values that are no floats have a rank of their own. -/
theorem Value.eq_of_rank {v w : Value} (same : v.rank = w.rank) (plain : v.isFloat = false) : v = w := by
  have kind := discriminant_of_rank same
  cases v with
  | string s =>
      cases w with
      | string t =>
          change toLex (0, toLex (s, (0 : ℤ))) = toLex (0, toLex (t, (0 : ℤ))) at same
          simp only [toLex_inj, Prod.mk.injEq, true_and, and_true] at same
          rw [same]
      | integer _ | float _ | boolean _ | ref _ | keyword _ | null => cases kind
  | integer i =>
      cases w with
      | integer j =>
          change toLex (1, toLex ("", i.toInt)) = toLex (1, toLex ("", j.toInt)) at same
          simp only [toLex_inj, Prod.mk.injEq, true_and] at same
          rw [Int64.toInt.inj same]
      | string _ | float _ | boolean _ | ref _ | keyword _ | null => cases kind
  | float f => cases plain
  | boolean b =>
      cases w with
      | boolean c =>
          change toLex (3, toLex ("", (b.toNat : ℤ))) = toLex (3, toLex ("", (c.toNat : ℤ))) at same
          simp only [toLex_inj, Prod.mk.injEq, true_and, Int.natCast_inj] at same
          cases b <;> cases c <;> first | rfl | cases same
      | string _ | integer _ | float _ | ref _ | keyword _ | null => cases kind
  | ref x =>
      cases w with
      | ref y =>
          change toLex (4, toLex ("", (x.val : ℤ))) = toLex (4, toLex ("", (y.val : ℤ))) at same
          simp only [toLex_inj, Prod.mk.injEq, true_and, Int.natCast_inj] at same
          rw [Fin.ext same]
      | string _ | integer _ | float _ | boolean _ | keyword _ | null => cases kind
  | keyword k =>
      cases w with
      | keyword l =>
          change toLex (5, toLex (k, (0 : ℤ))) = toLex (5, toLex (l, (0 : ℤ))) at same
          simp only [toLex_inj, Prod.mk.injEq, true_and, and_true] at same
          rw [same]
      | string _ | integer _ | float _ | boolean _ | ref _ | null => cases kind
  | null =>
      cases w with
      | null => rfl
      | string _ | integer _ | float _ | boolean _ | ref _ | keyword _ => cases kind

end Minigraf
