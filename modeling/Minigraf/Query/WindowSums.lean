import Minigraf.Query.WindowOps

/-!
The sum of a window against the sum of `apply_builtin_aggregate`, on integers and nils.

The window adds up in `f64` and truncates what it comes to, the batch adds up in `i64` and
saturates at every step. The first rounds every value and every sum to 53 bits.
-/

namespace Minigraf

/-- A sum of which every member and every partial sum is rounded to 53 bits. -/
def roundedTotal (is : List Int64) : Int := is.foldl (fun r i => roundInt 53 (r + roundInt 53 i.toInt)) 0

/-- A sum of which every partial sum is brought into range. -/
def saturatedTotal (is : List Int64) : Int := is.foldl (fun s i => clamp (s + i.toInt)) 0

/-- Every member and every partial sum has at most 53 bits. -/
structure ExactTotals (is : List Int64) : Prop where
  members : ∀ i ∈ is, roundInt 53 i.toInt = i.toInt
  sums : ∀ p, p <+: is → roundInt 53 (total p) = total p

/-! ## The batch -/

theorem foldl_saturatingAdd_toInt (is : List Int64) (s : Int64) :
    (is.foldl saturatingAdd s).toInt = is.foldl (fun s i => clamp (s + i.toInt)) s.toInt := by
  induction is generalizing s with
  | nil => rfl
  | cons i is ih => rw [List.foldl_cons, List.foldl_cons, ih, saturatingAdd_toInt]

theorem sum_integers {values : List Value} (cells : IntegersOrNil values) :
    applyBuiltinAggregate .sum (nonNulls values) =
      .ok (.integer ((integersOf values).foldl saturatingAdd 0)) := by
  have integers : ∀ v ∈ nonNulls values, ∃ i, v = .integer i := by
    intro v mem
    rw [nonNulls_integers cells, List.mem_map] at mem
    obtain ⟨i, _, own⟩ := mem
    exact ⟨i, own.symm⟩
  have same : integersOf (nonNulls values) = integersOf values := by
    rw [nonNulls_integers cells]
    conv => rhs; rw [← List.filterMap_some (l := integersOf values)]
    rw [integersOf, List.filterMap_map]
    rfl
  rw [applyBuiltinAggregate, sumValues_integers, same]
  · intro v mem
    obtain ⟨i, rfl⟩ := integers v mem
    rfl
  · intro v mem
    obtain ⟨i, rfl⟩ := integers v mem
    rfl

/-! ## The window -/

theorem roundInt_add_bounded {r v : Int} (left : r.natAbs ≤ 2 ^ 117) (right : v.natAbs ≤ 2 ^ 63) :
    (roundInt 53 (r + v)).natAbs ≤ 2 ^ 117 := by
  have top : roundBits 53 (2 ^ 117 + 2 ^ 63) = 2 ^ 117 := by decide +kernel
  rw [natAbs_roundInt, ← top]
  apply roundBits_mono (by decide)
  exact (Int.natAbs_add_le r v).trans (Nat.add_le_add left right)

/-- What a float total stands at: it never comes to infinity, since from 2^117 on an
integer is too small to change it. -/
structure SumState (state : AggState) (r : Int) : Prop where
  total : ∃ x, state = .sum x false ∧ HoldsUnits x (r * 2 ^ 1074)
  bounded : r.natAbs ≤ 2 ^ 117

theorem SumState.step {state : AggState} {r : Int} (at_ : SumState state r) (i : Int64) :
    SumState (sumOps.step state (.integer i)) (roundInt 53 (r + roundInt 53 i.toInt)) := by
  obtain ⟨x, rfl, holds⟩ := at_.total
  have range := i.le_toInt
  have range' := i.toInt_lt
  have small : (roundInt 53 i.toInt).natAbs ≤ 2 ^ 63 := natAbs_roundInt_le (by omega) (by decide)
  have bounded := roundInt_add_bounded at_.bounded small
  have scaled : roundInt 53 (r * 2 ^ 1074 + roundInt 53 i.toInt * 2 ^ 1074) =
      roundInt 53 (r + roundInt 53 i.toInt) * 2 ^ 1074 := by
    rw [← Int.add_mul, roundInt_scale (by decide)]
  have sum := holds.add (asFloat_holds i) (by
    rw [scaled]
    exact natAbs_scaled_lt bounded (by decide))
  rw [scaled] at sum
  exact ⟨⟨_, rfl, sum⟩, bounded⟩

theorem sumOps_foldl (is : List Int64) {state : AggState} {r : Int} (at_ : SumState state r) :
    SumState (is.foldl (fun a i => sumOps.step a (.integer i)) state)
      (is.foldl (fun r i => roundInt 53 (r + roundInt 53 i.toInt)) r) := by
  induction is generalizing state r with
  | nil => exact at_
  | cons i is ih => exact ih (at_.step i)

theorem sumOps_last {values : List Value} (cells : IntegersOrNil values) :
    sumOps.last values = .integer (Int64.ofIntClamp (roundedTotal (integersOf values))) := by
  have skips : ∀ a, sumOps.step a .null = a := by
    intro a
    cases a <;> rfl
  have start : SumState sumOps.init 0 := by
    refine ⟨⟨0.0, rfl, ?_⟩, by decide⟩
    rw [Int.zero_mul]
    exact ⟨.zero .positive, rfl⟩
  obtain ⟨x, state, holds⟩ := (sumOps_foldl (integersOf values) start).total
  rw [WindowOps.last, foldl_integersOf cells skips, state]
  exact congrArg Value.integer holds.toInt64

theorem toInt_ofIntClamp (n : Int) : (Int64.ofIntClamp n).toInt = clamp n := by
  have least : Int64.minValue.toInt = -9223372036854775808 := rfl
  have greatest : Int64.maxValue.toInt = 9223372036854775807 := rfl
  unfold clamp Int64.ofIntClamp
  by_cases low : Int64.minValue.toInt ≤ n
  · rw [dif_pos low]
    by_cases high : n ≤ Int64.maxValue.toInt
    · rw [dif_pos high, Int64.toInt_ofIntLE]
      omega
    · rw [dif_neg high]
      omega
  · rw [dif_neg low]
    omega

theorem sumOps_agrees {values : List Value} (cells : IntegersOrNil values) :
    applyBuiltinAggregate .sum (nonNulls values) = .ok (sumOps.last values) ↔
      clamp (roundedTotal (integersOf values)) = saturatedTotal (integersOf values) := by
  have batch := foldl_saturatingAdd_toInt (integersOf values) 0
  rw [sum_integers cells, sumOps_last cells, Except.ok.injEq, Value.integer.injEq, ← Int64.toInt_inj, batch,
    toInt_ofIntClamp]
  exact eq_comm

/-! ## Exact sums -/

theorem total_concat (p : List Int64) (i : Int64) : total (p ++ [i]) = total p + i.toInt := by
  rw [total, List.map_append, List.sum_append]
  exact congrArg _ (Int.add_zero _)

theorem foldl_rounded {pre is : List Int64} (exact_ : ExactTotals (pre ++ is)) :
    is.foldl (fun r i => roundInt 53 (r + roundInt 53 i.toInt)) (total pre) = total (pre ++ is) := by
  induction is generalizing pre with
  | nil => rw [List.append_nil, List.foldl_nil]
  | cons i is ih =>
      have split : pre ++ i :: is = pre ++ [i] ++ is := List.append_cons pre i is
      have member := exact_.members i (List.mem_append_right pre List.mem_cons_self)
      have sum := exact_.sums (pre ++ [i]) (split ▸ List.prefix_append _ is)
      rw [total_concat] at sum
      rw [List.foldl_cons, member, sum, ← total_concat]
      rw [split] at exact_ ⊢
      exact ih exact_

theorem ExactTotals.rounded {is : List Int64} (exact_ : ExactTotals is) : roundedTotal is = total is :=
  @foldl_rounded [] is exact_

/-! ## Sums that leave the range -/

/-- No partial sum is further out of range than the sum: what saturation cuts off on the way
is cut off at the end as well. -/
structure CutAtEnd (is : List Int64) : Prop where
  above : Int64.minValue.toInt ≤ total is →
    ∀ p, p <+: is → total p ≤ max Int64.maxValue.toInt (total is)
  below : total is ≤ Int64.maxValue.toInt →
    ∀ p, p <+: is → min Int64.minValue.toInt (total is) ≤ total p

theorem minValue_le_maxValue : Int64.minValue.toInt ≤ Int64.maxValue.toInt := by decide

theorem saturatedTotal_concat (p : List Int64) (i : Int64) :
    saturatedTotal (p ++ [i]) = clamp (saturatedTotal p + i.toInt) := by
  rw [saturatedTotal, List.foldl_append]
  rfl

theorem saturatedTotal_range (is : List Int64) :
    Int64.minValue.toInt ≤ saturatedTotal is ∧ saturatedTotal is ≤ Int64.maxValue.toInt := by
  have batch : ((is.foldl saturatingAdd 0).toInt) = saturatedTotal is := foldl_saturatingAdd_toInt is 0
  rw [← batch]
  exact ⟨Int64.minValue_le_toInt _, Int64.toInt_le _⟩

/-- Saturation takes off no more than the partial sums were too high. -/
theorem total_sub_le_saturatedTotal {is : List Int64} {excess : Int} (some_ : 0 ≤ excess)
    (bound : ∀ p, p <+: is → total p ≤ Int64.maxValue.toInt + excess) :
    total is - excess ≤ saturatedTotal is := by
  induction is using List.reverseRecOn with
  | nil =>
      change 0 - excess ≤ 0
      omega
  | append_singleton p i ih =>
      have before := ih fun q pre => bound q (pre.trans (List.prefix_append p [i]))
      have whole := bound (p ++ [i]) List.prefix_rfl
      rw [saturatedTotal_concat, clamp]
      rw [total_concat] at whole ⊢
      omega

/-- Saturation adds no more than the partial sums were too low. -/
theorem saturatedTotal_le_total_add {is : List Int64} {lack : Int} (some_ : 0 ≤ lack)
    (bound : ∀ p, p <+: is → Int64.minValue.toInt - lack ≤ total p) :
    saturatedTotal is ≤ total is + lack := by
  induction is using List.reverseRecOn with
  | nil =>
      change 0 ≤ 0 + lack
      omega
  | append_singleton p i ih =>
      have before := ih fun q pre => bound q (pre.trans (List.prefix_append p [i]))
      have whole := bound (p ++ [i]) List.prefix_rfl
      have order := minValue_le_maxValue
      rw [saturatedTotal_concat, clamp]
      rw [total_concat] at whole ⊢
      omega

theorem CutAtEnd.saturated {is : List Int64} (cut : CutAtEnd is) : saturatedTotal is = clamp (total is) := by
  have range := saturatedTotal_range is
  have order := minValue_le_maxValue
  rw [clamp]
  by_cases high : Int64.maxValue.toInt < total is
  · have least := @total_sub_le_saturatedTotal is (total is - Int64.maxValue.toInt) (by omega)
      fun p pre => by
        have bound := cut.above (by omega) p pre
        omega
    omega
  · by_cases low : total is < Int64.minValue.toInt
    · have most := @saturatedTotal_le_total_add is (Int64.minValue.toInt - total is) (by omega)
        fun p pre => by
          have bound := cut.below (by omega) p pre
          omega
      omega
    · have least := @total_sub_le_saturatedTotal is 0 (by omega) fun p pre => by
        have bound := cut.above (by omega) p pre
        omega
      have most := @saturatedTotal_le_total_add is 0 (by omega) fun p pre => by
        have bound := cut.below (by omega) p pre
        omega
      omega

/-- What was cut off at the top is missing to the end, unless the sum is cut off at the
bottom as well. -/
theorem saturatedTotal_lt {is p : List Int64} (pre : p <+: is) (high : Int64.maxValue.toInt < total p)
    (apart : ∀ q, q <+: is → Int64.minValue.toInt < total q) : saturatedTotal is < total is := by
  induction is using List.reverseRecOn with
  | nil =>
      rw [List.prefix_nil.mp pre] at high
      exact absurd high (by decide)
  | append_singleton q i ih =>
      have range := saturatedTotal_range (q ++ [i])
      rcases List.prefix_concat_iff.mp pre with rfl | pre
      · omega
      · have before := ih pre fun r sub => apart r (sub.trans (List.prefix_append q [i]))
        have whole := apart (q ++ [i]) List.prefix_rfl
        rw [saturatedTotal_concat, clamp]
        rw [total_concat] at whole ⊢
        omega

theorem lt_saturatedTotal {is p : List Int64} (pre : p <+: is) (low : total p < Int64.minValue.toInt)
    (apart : ∀ q, q <+: is → total q < Int64.maxValue.toInt) : total is < saturatedTotal is := by
  induction is using List.reverseRecOn with
  | nil =>
      rw [List.prefix_nil.mp pre] at low
      exact absurd low (by decide)
  | append_singleton q i ih =>
      have range := saturatedTotal_range (q ++ [i])
      rcases List.prefix_concat_iff.mp pre with rfl | pre
      · omega
      · have before := ih pre fun r sub => apart r (sub.trans (List.prefix_append q [i]))
        have whole := apart (q ++ [i]) List.prefix_rfl
        have order := minValue_le_maxValue
        rw [saturatedTotal_concat, clamp]
        rw [total_concat] at whole ⊢
        omega

/-- The partial sums reach one end of the range at most. -/
def OneSided (is : List Int64) : Prop :=
  (∀ p, p <+: is → Int64.minValue.toInt < total p) ∨ (∀ p, p <+: is → total p < Int64.maxValue.toInt)

/-- Where only one end of the range is reached and the sum is in range, no partial sum may
leave it. -/
theorem OneSided.cutAtEnd {is : List Int64} (side : OneSided is) (least : Int64.minValue.toInt ≤ total is)
    (most : total is ≤ Int64.maxValue.toInt) (same : saturatedTotal is = clamp (total is)) : CutAtEnd is := by
  rw [clamp] at same
  rcases side with apart | apart
  · refine ⟨fun _ p pre => ?_, fun _ p pre => ?_⟩
    · by_contra high
      have missing := saturatedTotal_lt pre (by omega) apart
      omega
    · have above := apart p pre
      omega
  · refine ⟨fun _ p pre => ?_, fun _ p pre => ?_⟩
    · have under := apart p pre
      omega
    · by_contra low
      have missing := lt_saturatedTotal pre (by omega) apart
      omega

/-! ## Windows -/

/-- The aggregates that have a window form. -/
def windowAggregates : List Aggregate := [.count, .sum, .min, .max]

/-- The last running value of a window is what the batch returns. -/
def WindowAgrees (agg : Aggregate) (values : List Value) : Prop :=
  ∃ ops v, withBuiltins agg.name = some ops ∧ (ops.running ops.init values).getLast? = some v ∧
    applyBuiltinAggregate agg (nonNulls values) = .ok v

theorem windowAgrees_iff {agg : Aggregate} {ops : WindowOps} (registered : withBuiltins agg.name = some ops)
    {values : List Value} (some_ : values ≠ []) :
    WindowAgrees agg values ↔ applyBuiltinAggregate agg (nonNulls values) = .ok (ops.last values) := by
  have final : (ops.running ops.init values).getLast? = some (ops.last values) := ops.running_getLast ops.init some_
  constructor
  · intro ⟨ops', v, registered', last, batch⟩
    rw [registered] at registered'
    cases registered'
    rw [final] at last
    cases last
    exact batch
  · exact fun batch => ⟨ops, _, registered, final, batch⟩

/-- On integers and nils, not all of them nils, the windows of `count`, `min` and `max` come
to what the batch returns; that of `sum` does where every integer and every partial sum has at
most 53 bits and what is cut off is cut off at the end. Of the exact sums in range that reach
one end of it at most, it does so for no others. -/
theorem windows_agree {values : List Value} (cells : IntegersOrNil values) (some_ : nonNulls values ≠ []) :
    (∀ agg ∈ windowAggregates, agg ≠ .sum → WindowAgrees agg values) ∧
      (ExactTotals (integersOf values) → CutAtEnd (integersOf values) →
        ∀ agg ∈ windowAggregates, WindowAgrees agg values) ∧
      (ExactTotals (integersOf values) → OneSided (integersOf values) →
        Int64.minValue.toInt ≤ total (integersOf values) → total (integersOf values) ≤ Int64.maxValue.toInt →
        ((∀ agg ∈ windowAggregates, WindowAgrees agg values) ↔ CutAtEnd (integersOf values))) := by
  have rows : values ≠ [] := by
    rintro rfl
    exact some_ rfl
  have integers : integersOf values ≠ [] := by
    intro none_
    rw [nonNulls_integers cells, none_] at some_
    exact some_ rfl
  have count : WindowAgrees .count values := (windowAgrees_iff rfl rows).mpr (countOps_last cells)
  have min : WindowAgrees .min values := (windowAgrees_iff rfl rows).mpr (minOps_last cells integers)
  have max : WindowAgrees .max values := (windowAgrees_iff rfl rows).mpr (maxOps_last cells integers)
  have sum : WindowAgrees .sum values ↔ _ := (windowAgrees_iff rfl rows).trans (sumOps_agrees cells)
  have others : ∀ agg ∈ windowAggregates, agg ≠ .sum → WindowAgrees agg values := by
    intro agg mem other
    simp only [windowAggregates, List.mem_cons, List.not_mem_nil, or_false] at mem
    rcases mem with rfl | rfl | rfl | rfl
    · exact count
    · exact absurd rfl other
    · exact min
    · exact max
  have all : WindowAgrees .sum values → ∀ agg ∈ windowAggregates, WindowAgrees agg values := by
    intro agrees agg mem
    by_cases own : agg = .sum
    · exact own ▸ agrees
    · exact others agg mem own
  refine ⟨others, ?_, ?_⟩
  · intro exact_ cut
    refine all (sum.mpr ?_)
    rw [exact_.rounded, cut.saturated]
  · intro exact_ side least most
    constructor
    · intro agree
      have same := sum.mp (agree .sum (by decide))
      rw [exact_.rounded] at same
      exact side.cutAtEnd least most same.symm
    · intro cut
      refine all (sum.mpr ?_)
      rw [exact_.rounded, cut.saturated]

theorem windows_agree_three :
    windowAggregates.Forall fun agg => WindowAgrees agg [.integer 3, .null, .integer (-5)] := by
  have cells : IntegersOrNil [.integer 3, .null, .integer (-5)] := by
    intro v mem
    simp only [List.mem_cons, List.not_mem_nil, or_false] at mem
    rcases mem with rfl | rfl | rfl
    · exact .inr ⟨3, rfl⟩
    · exact .inl rfl
    · exact .inr ⟨-5, rfl⟩
  have exact_ : ExactTotals [3, -5] := by
    have members : [(3 : Int64), -5].all fun i => roundInt 53 i.toInt == i.toInt := by decide +kernel
    refine ⟨fun i mem => eq_of_beq (List.all_eq_true.mp members i mem), fun p pre => ?_⟩
    have sums : ∀ p ∈ [(3 : Int64), -5].inits, roundInt 53 (total p) = total p := by decide +kernel
    exact sums p ((List.mem_inits _ _).mpr pre)
  have cut : CutAtEnd [3, -5] := by
    have near : ∀ p ∈ [(3 : Int64), -5].inits, -5 ≤ total p ∧ total p ≤ 3 := by decide +kernel
    have top : (3 : Int) ≤ Int64.maxValue.toInt := by decide +kernel
    have bottom : Int64.minValue.toInt ≤ -5 := by decide +kernel
    refine ⟨fun _ p pre => ?_, fun _ p pre => ?_⟩
    · have bound := near p ((List.mem_inits _ _).mpr pre)
      omega
    · have bound := near p ((List.mem_inits _ _).mpr pre)
      omega
  have integers : integersOf [.integer 3, .null, .integer (-5)] = [3, -5] := rfl
  rw [← integers] at exact_ cut
  exact List.forall_iff_forall_mem.mpr ((windows_agree cells (by decide)).2.1 exact_ cut)

/-- 2^53 + 1 alone: the window makes 2^53 of it. -/
theorem windows_disagree :
    ¬ ∀ values, IntegersOrNil values → nonNulls values ≠ [] → ∀ agg ∈ windowAggregates, WindowAgrees agg values := by
  intro agree
  have cells : IntegersOrNil [.integer 9007199254740993] := by
    intro v mem
    exact .inr ⟨_, List.mem_singleton.mp mem⟩
  have sum := agree _ cells (by decide) .sum (by decide)
  have rounded := (sumOps_agrees cells).mp ((windowAgrees_iff rfl (List.cons_ne_nil _ _)).mp sum)
  change clamp (roundInt 53 (0 + roundInt 53 9007199254740993)) = clamp (0 + 9007199254740993) at rounded
  exact absurd rounded (by decide +kernel)

end Minigraf
