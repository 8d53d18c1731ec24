import Mathlib.Algebra.BigOperators.Group.List.Basic
import Mathlib.Data.List.Dedup
import Minigraf.Lib.Results
import Minigraf.Query.Aggregates

/-!
What the built-in aggregates accept, what they return, and that the order of the values of
a group is neither here nor there.

Two things do depend on it. A sum of integers saturates at every step, so it has to be
steady: of one sign, or with its gains and its losses each in range. And a NaN among the
values of `min` or `max` compares as equal to every float.
-/

namespace Minigraf

/-! ## Sums -/

def clamp (n : Int) : Int := max Int64.minValue.toInt (min Int64.maxValue.toInt n)

def gains (is : List Int64) : Int := (is.map fun i => max i.toInt 0).sum

def losses (is : List Int64) : Int := (is.map fun i => min i.toInt 0).sum

def total (is : List Int64) : Int := (is.map Int64.toInt).sum

/-- A sum that no order of its members takes out of range and back. -/
def Steady (is : List Int64) : Prop :=
  losses is = 0 ∨ gains is = 0 ∨ (gains is ≤ Int64.maxValue.toInt ∧ Int64.minValue.toInt ≤ losses is)

instance (is : List Int64) : Decidable (Steady is) :=
  inferInstanceAs (Decidable (losses is = 0 ∨ gains is = 0 ∨ _))

theorem integer_range (i : Int64) : Int64.minValue.toInt ≤ i.toInt ∧ i.toInt ≤ Int64.maxValue.toInt :=
  ⟨i.minValue_le_toInt, i.toInt_le⟩

theorem saturatingAdd_toInt (a b : Int64) : (saturatingAdd a b).toInt = clamp (a.toInt + b.toInt) := by
  have least : Int64.minValue.toInt = -9223372036854775808 := rfl
  have greatest : Int64.maxValue.toInt = 9223372036854775807 := rfl
  unfold saturatingAdd clamp
  by_cases high : Int64.maxValue.toInt < a.toInt + b.toInt
  · rw [if_pos high]
    omega
  · rw [if_neg high]
    by_cases low : a.toInt + b.toInt < Int64.minValue.toInt
    · rw [if_pos low]
      omega
    · rw [if_neg low, Int64.toInt_ofInt_of_le (by omega) (by omega)]
      omega

theorem gains_cons (i : Int64) (is : List Int64) : gains (i :: is) = max i.toInt 0 + gains is := by
  rw [gains, List.map_cons, List.sum_cons, ← gains]

theorem losses_cons (i : Int64) (is : List Int64) : losses (i :: is) = min i.toInt 0 + losses is := by
  rw [losses, List.map_cons, List.sum_cons, ← losses]

theorem total_cons (i : Int64) (is : List Int64) : total (i :: is) = i.toInt + total is := by
  rw [total, List.map_cons, List.sum_cons, ← total]

theorem total_split (is : List Int64) : total is = gains is + losses is ∧ 0 ≤ gains is ∧ losses is ≤ 0 := by
  induction is with
  | nil => exact ⟨rfl, le_refl 0, le_refl 0⟩
  | cons i is ih =>
      rw [total_cons, gains_cons, losses_cons]
      omega

/-- A running sum that cannot leave its range on one of its sides, or has room on both, is
the whole sum brought into range. -/
theorem foldl_saturatingAdd (is : List Int64) (s : Int64)
    (room : losses is = 0 ∨ gains is = 0 ∨
      (s.toInt + gains is ≤ Int64.maxValue.toInt ∧ Int64.minValue.toInt ≤ s.toInt + losses is)) :
    (is.foldl saturatingAdd s).toInt = clamp (s.toInt + total is) := by
  induction is generalizing s with
  | nil =>
      have range := integer_range s
      change s.toInt = clamp (s.toInt + 0)
      unfold clamp
      omega
  | cons i is ih =>
      have step := saturatingAdd_toInt s i
      have split := total_split is
      have range := integer_range s
      rw [gains_cons, losses_cons] at room
      rw [List.foldl_cons, ih, step, total_cons]
      · unfold clamp
        omega
      · rw [step]
        unfold clamp
        omega

theorem Steady.foldl {is : List Int64} (steady : Steady is) :
    (is.foldl saturatingAdd 0).toInt = clamp (total is) := by
  have zero : (0 : Int64).toInt = 0 := rfl
  have sum := foldl_saturatingAdd is 0 (by rwa [zero, Int.zero_add, Int.zero_add])
  rwa [zero, Int.zero_add] at sum

theorem gains_losses_perm {is js : List Int64} (perm : is.Perm js) :
    gains is = gains js ∧ losses is = losses js :=
  ⟨(perm.map _).sum_eq, (perm.map _).sum_eq⟩

theorem Steady.perm {is js : List Int64} (perm : is.Perm js) : Steady is ↔ Steady js := by
  have same := gains_losses_perm perm
  rw [Steady, Steady, same.1, same.2]

theorem total_perm {is js : List Int64} (perm : is.Perm js) : total is = total js := (perm.map _).sum_eq

/-- The sum of integers in ascending order: the losses come first. -/
def ascendingTotal (is : List Int64) : Int :=
  min Int64.maxValue.toInt (max Int64.minValue.toInt (losses is) + gains is)

theorem foldl_ascending (is : List Int64) (sorted : is.Pairwise fun i j => i.toInt ≤ j.toInt) (s : Int64)
    (start : s.toInt ≤ 0 ∨ losses is = 0) : (is.foldl saturatingAdd s).toInt =
      min Int64.maxValue.toInt (max Int64.minValue.toInt (s.toInt + losses is) + gains is) := by
  induction is generalizing s with
  | nil =>
      have range := integer_range s
      change s.toInt = min _ (max _ (s.toInt + 0) + 0)
      omega
  | cons i is ih =>
      have least : Int64.minValue.toInt = -9223372036854775808 := rfl
      have greatest : Int64.maxValue.toInt = 9223372036854775807 := rfl
      have ⟨later, sorted⟩ := List.pairwise_cons.mp sorted
      have step := saturatingAdd_toInt s i
      have split := total_split is
      have range := integer_range s
      have gaining : 0 ≤ i.toInt → losses is = 0 := by
        intro gain
        refine (List.sum_eq_zero fun n mem => ?_)
        obtain ⟨j, hj, same⟩ := List.mem_map.mp mem
        have above := later j hj
        omega
      rw [losses_cons] at start
      rw [List.foldl_cons, ih sorted, step, losses_cons, gains_cons]
      · unfold clamp
        omega
      · rw [step]
        unfold clamp
        omega

theorem ascendingTotal_perm {is js : List Int64} (perm : is.Perm js) :
    ascendingTotal is = ascendingTotal js := by
  have same := gains_losses_perm perm
  rw [ascendingTotal, ascendingTotal, same.1, same.2]

/-! ## Kinds of values -/

def Value.integer? : Value → Option Int64
  | .integer i => some i
  | _ => none

def integersOf (values : List Value) : List Int64 := values.filterMap Value.integer?

def Value.isNumber (v : Value) : Bool := decide (v.discriminant = 1 ∨ v.discriminant = 2)

def Value.isOrderable (v : Value) : Bool := decide (v.discriminant ≤ 2)

def Value.isNaN : Value → Bool
  | .float f => f.isNaN
  | _ => false

theorem mem_integersOf {values : List Value} {i : Int64} : i ∈ integersOf values ↔ .integer i ∈ values := by
  rw [integersOf, List.mem_filterMap]
  constructor
  · intro ⟨v, mem, own⟩
    cases v with
    | integer j =>
        cases own
        exact mem
    | string _ | float _ | boolean _ | ref _ | keyword _ | null => cases own
  · exact fun mem => ⟨_, mem, rfl⟩

/-! ## Distinct values -/

theorem distinct_ranks (values : List Value) : (distinct values).map Value.rank =
    (Grouping.collect Value.rank id values).entries.map Prod.fst := by
  rw [distinct, List.map_map]
  refine List.map_congr_left fun ⟨r, k, rows⟩ mem => ?_
  obtain ⟨own, head⟩ := (Grouping.mem_collect Value.rank id).mp mem
  rw [own, Option.map_id_fun, id_eq] at head
  exact (Grouping.mem_rowsAt.mp (List.mem_of_head? head)).2

theorem distinct_sorted (values : List Value) : ((distinct values).map Value.rank).Pairwise (· < ·) := by
  rw [distinct_ranks]
  exact List.pairwise_map.mpr (Grouping.collect Value.rank id values).sorted

theorem mem_distinct_ranks {values : List Value} {r : Rank} :
    r ∈ (distinct values).map Value.rank ↔ r ∈ values.map Value.rank := by
  rw [distinct_ranks, Grouping.mem_ranks, List.mem_map]
  rfl

theorem mem_of_mem_distinct {values : List Value} {v : Value} (mem : v ∈ distinct values) : v ∈ values := by
  obtain ⟨⟨r, k, rows⟩, entry, rfl⟩ := List.mem_map.mp mem
  obtain ⟨own, head⟩ := (Grouping.mem_collect Value.rank id).mp entry
  rw [own, Option.map_id_fun, id_eq] at head
  exact (Grouping.mem_rowsAt.mp (List.mem_of_head? head)).1

theorem mem_distinct_of_plain {values : List Value} {v : Value} (plain : v.isFloat = false) :
    v ∈ distinct values ↔ v ∈ values := by
  refine ⟨mem_of_mem_distinct, fun mem => ?_⟩
  obtain ⟨w, own, same⟩ := List.mem_map.mp (mem_distinct_ranks.mpr (List.mem_map_of_mem mem))
  rwa [Value.eq_of_rank same.symm plain]

/-- Each rank counts once. -/
theorem distinct_length (values : List Value) :
    (distinct values).length = (values.map Value.rank).dedup.length := by
  rw [← List.length_map]
  refine ((List.perm_ext_iff_of_nodup ?_ (List.nodup_dedup _)).mpr fun r => ?_).length_eq
  · exact (distinct_sorted values).imp ne_of_lt
  · rw [mem_distinct_ranks, List.mem_dedup]

theorem distinct_integers_sorted (values : List Value) :
    (integersOf (distinct values)).Pairwise fun i j => i.toInt < j.toInt := by
  refine List.Pairwise.filterMap _ (fun v w lt i hi j hj => ?_) (List.pairwise_map.mp (distinct_sorted values))
  cases v <;> cases hi
  cases w <;> cases hj
  change toLex (1, toLex ("", i.toInt)) < toLex (1, toLex ("", j.toInt)) at lt
  simpa [Prod.Lex.toLex_lt_toLex] using lt

theorem distinct_integers (values : List Value) :
    (integersOf (distinct values)).Perm (integersOf values).dedup := by
  refine (List.perm_ext_iff_of_nodup ?_ (List.nodup_dedup _)).mpr fun i => ?_
  · refine (distinct_integers_sorted values).imp fun lt same => ?_
    rw [same] at lt
    exact absurd lt (lt_irrefl _)
  · rw [List.mem_dedup, mem_integersOf, mem_integersOf]
    exact mem_distinct_of_plain rfl

/-- Where values that are alike are the same, the set does not depend on their order. -/
theorem distinct_perm {values values' : List Value} (perm : values.Perm values')
    (alike : ∀ v ∈ values, ∀ w ∈ values, v.rank = w.rank → v = w) : distinct values = distinct values' := by
  have ranks : (distinct values).map Value.rank = (distinct values').map Value.rank := by
    refine (distinct_sorted values).eq_of_mem_iff (distinct_sorted values') fun r => ?_
    rw [mem_distinct_ranks, mem_distinct_ranks]
    exact (perm.map _).mem_iff
  rw [← List.forall₂_eq_eq_eq, List.forall₂_map_left_iff, List.forall₂_map_right_iff] at ranks
  rw [← List.forall₂_eq_eq_eq]
  refine List.forall₂_iff_zip.mpr ⟨ranks.length_eq, fun {v w} pair => ?_⟩
  obtain ⟨hv, hw⟩ := List.of_mem_zip pair
  exact alike v (mem_of_mem_distinct hv) w (perm.mem_iff.mpr (mem_of_mem_distinct hw))
    (List.forall₂_zip ranks pair)

end Minigraf
