import Mathlib.Data.Int.Order.Basic
import Mathlib.Data.Prod.Lex

/-!
`compare` of linear orders: of an element with itself, of pairs, of numbers cast and
negated.
-/

namespace Minigraf

section Lex

variable {α β : Type} [LinearOrder α] [LinearOrder β]

theorem compare_toLex (a a' : α) (b b' : β) :
    compare (toLex (a, b)) (toLex (a', b')) = (compare a a').then (compare b b') := by
  rcases lt_trichotomy a a' with lt | rfl | gt
  · rw [compare_lt_iff_lt.mpr lt]
    exact compare_lt_iff_lt.mpr (Prod.Lex.toLex_lt_toLex.mpr (.inl lt))
  · rw [(compare_eq_iff_eq (a := a)).mpr rfl, Ordering.then]
    rcases lt_trichotomy b b' with lt | rfl | gt
    · rw [compare_lt_iff_lt.mpr lt]
      exact compare_lt_iff_lt.mpr (Prod.Lex.toLex_lt_toLex.mpr (.inr ⟨rfl, lt⟩))
    · rw [(compare_eq_iff_eq (a := b)).mpr rfl]
      exact (compare_eq_iff_eq (a := toLex (a, b))).mpr rfl
    · rw [compare_gt_iff_gt.mpr gt]
      exact compare_gt_iff_gt.mpr (Prod.Lex.toLex_lt_toLex.mpr (.inr ⟨rfl, gt⟩))
  · rw [compare_gt_iff_gt.mpr gt]
    exact compare_gt_iff_gt.mpr (Prod.Lex.toLex_lt_toLex.mpr (.inl gt))

theorem compare_self (a : α) : compare a a = Ordering.eq := compare_eq_iff_eq.mpr rfl

theorem compare_swap (a b : α) : (compare a b).swap = compare b a := by
  rcases lt_trichotomy a b with lt | rfl | gt
  · rw [compare_lt_iff_lt.mpr lt, compare_gt_iff_gt.mpr lt]
    rfl
  · rw [compare_self]
    rfl
  · rw [compare_gt_iff_gt.mpr gt, compare_lt_iff_lt.mpr gt]
    rfl

end Lex

theorem compare_cast (m n : ℕ) : compare (m : ℤ) (n : ℤ) = compare m n := by
  rcases lt_trichotomy m n with lt | eq | gt
  · rw [compare_lt_iff_lt.mpr lt, compare_lt_iff_lt.mpr (Int.ofNat_lt.mpr lt)]
  · rw [eq, compare_self, compare_self]
  · rw [compare_gt_iff_gt.mpr gt, compare_gt_iff_gt.mpr (Int.ofNat_lt.mpr gt)]

theorem compare_neg (a b : ℤ) : compare (-a) (-b) = (compare a b).swap := by
  rcases lt_trichotomy a b with lt | rfl | gt
  · rw [compare_lt_iff_lt.mpr lt, compare_gt_iff_gt.mpr (Int.neg_lt_neg lt)]
    rfl
  · rw [compare_self, compare_self]
    rfl
  · rw [compare_gt_iff_gt.mpr gt, compare_lt_iff_lt.mpr (Int.neg_lt_neg gt)]
    rfl

end Minigraf
