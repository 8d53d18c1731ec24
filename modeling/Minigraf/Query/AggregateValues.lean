import Minigraf.Query.AggregateLaws

/-!
Which values an aggregate accepts, which value it gives, and when the order of the values
does not tell.
-/

namespace Minigraf

/-- The values an aggregate does not fail on. -/
def Aggregate.Accepts (agg : Aggregate) (values : List Value) : Prop :=
  match agg with
  | .count | .countDistinct => True
  | .sum | .sumDistinct => ∀ v ∈ values, v.isNumber = true
  | .min | .max => values ≠ [] ∧ (∀ v ∈ values, v.isOrderable = true) ∧
      ∀ v ∈ values, ∀ w ∈ values, v.discriminant = w.discriminant

/-- The value of an aggregate. Of a sum with floats, and of the least or greatest of
values with a NaN among them, nothing is said. -/
def Aggregate.IsValue (agg : Aggregate) (values : List Value) (v : Value) : Prop :=
  match agg with
  | .count => v = countValue values.length
  | .countDistinct => v = countValue (values.map Value.rank).dedup.length
  | .sum => (∀ w ∈ values, w.isFloat = false) → Steady (integersOf values) →
      ∃ n, v = .integer n ∧ n.toInt = clamp (total (integersOf values))
  | .sumDistinct => (∀ w ∈ values, w.isFloat = false) → ∃ n, v = .integer n ∧
      n.toInt = ascendingTotal (integersOf values).dedup
  | .min => (∀ w ∈ values, w.isNaN = false) → v ∈ values ∧ ∀ w ∈ values, v.rank ≤ w.rank
  | .max => (∀ w ∈ values, w.isNaN = false) → v ∈ values ∧ ∀ w ∈ values, w.rank ≤ v.rank

/-- The values whose order does not tell. -/
def Aggregate.OrderFree (agg : Aggregate) (values : List Value) : Prop :=
  match agg with
  | .count | .countDistinct => True
  | .sum => (∀ v ∈ values, v.isFloat = false) ∧ Steady (integersOf values)
  | .sumDistinct => ∀ v ∈ values, ∀ w ∈ values, v.rank = w.rank → v = w
  | .min | .max => ∀ v ∈ values, v.isNaN = false

theorem Aggregate.Accepts.perm {agg : Aggregate} {values values' : List Value} (perm : values.Perm values') :
    agg.Accepts values ↔ agg.Accepts values' := by
  cases agg with
  | count | countDistinct => exact Iff.rfl
  | sum | sumDistinct => simp only [Accepts, perm.mem_iff]
  | min | max =>
      have empty : values = [] ↔ values' = [] := by
        rw [← List.length_eq_zero_iff, ← List.length_eq_zero_iff, perm.length_eq]
      simp only [Accepts, perm.mem_iff, ne_eq, empty]

/-! ## Sums -/

theorem Value.exists_integer {v : Value} (integer : v.discriminant = 1) : ∃ i, v = .integer i := by
  cases v with
  | integer i => exact ⟨i, rfl⟩
  | string _ | float _ | boolean _ | ref _ | keyword _ | null => cases integer

theorem addInteger_fold {values : List Value} (integers : ∀ v ∈ values, v.discriminant = 1) (s : Int64) :
    values.foldlM addInteger s = .ok ((integersOf values).foldl saturatingAdd s) := by
  induction values generalizing s with
  | nil => rfl
  | cons v values ih =>
      obtain ⟨i, rfl⟩ := Value.exists_integer (integers v List.mem_cons_self)
      have step : addInteger s (.integer i) = .ok (saturatingAdd s i) := rfl
      rw [List.foldlM_cons_ok step]
      exact ih (fun w mem => integers w (List.mem_cons_of_mem _ mem)) _

theorem Value.isFloat_iff {v : Value} : v.isFloat = true ↔ v.discriminant = 2 := by
  cases v <;> simp [isFloat, discriminant]

theorem Value.isNumber_iff {v : Value} : v.isNumber = true ↔ v.discriminant = 1 ∨ v.isFloat = true := by
  rw [isNumber, decide_eq_true_eq, isFloat_iff]

/-- Without floats the integers are summed up. -/
theorem sumValues_integers {values : List Value} (numbers : ∀ v ∈ values, v.isNumber = true)
    (plain : ∀ v ∈ values, v.isFloat = false) :
    sumValues values = .ok (.integer ((integersOf values).foldl saturatingAdd 0)) := by
  have integers : ∀ v ∈ values, v.discriminant = 1 := by
    intro v mem
    refine (Value.isNumber_iff.mp (numbers v mem)).resolve_right ?_
    rw [plain v mem]
    exact Bool.false_ne_true
  have none : values.any Value.isFloat = false := by
    rw [List.any_eq_false]
    intro v mem
    rw [plain v mem]
    exact Bool.false_ne_true
  unfold sumValues
  by_cases empty : values.isEmpty = true
  · rw [if_pos empty, List.isEmpty_iff.mp empty]
    rfl
  · rw [if_neg empty, none, if_neg Bool.false_ne_true, sumIntegers, addInteger_fold integers]
    rfl

theorem addFloat_ok {v : Value} (number : v.isNumber = true) (sum : Float) :
    ∃ sum', addFloat sum v = .ok sum' := by
  cases v with
  | integer i => exact ⟨_, rfl⟩
  | float f => exact ⟨_, rfl⟩
  | string _ | boolean _ | ref _ | keyword _ | null => cases number

theorem addFloat_error {v : Value} {sum : Float} {e : AggError} (h : addFloat sum v = .error e) :
    e = .int041 v := by
  cases v <;> cases h <;> rfl

theorem addInteger_error {v : Value} {sum : Int64} {e : AggError} (h : addInteger sum v = .error e) :
    e = .int041 v := by
  cases v <;> cases h <;> rfl

theorem addFloat_fails {v : Value} (other : v.isNumber = false) (sum : Float) :
    ∃ e, addFloat sum v = .error e := by
  cases v with
  | integer i | float f => cases other
  | string _ | boolean _ | ref _ | keyword _ | null => exact ⟨_, rfl⟩

theorem addInteger_fails {v : Value} (other : v.isNumber = false) (sum : Int64) :
    ∃ e, addInteger sum v = .error e := by
  cases v with
  | integer i => cases other
  | string _ | float _ | boolean _ | ref _ | keyword _ | null => exact ⟨_, rfl⟩

/-- A value that is no number is an error of the sum. -/
theorem sumValues_error {values : List Value} {v : Value} (mem : v ∈ values) (other : v.isNumber = false) :
    ∃ got, sumValues values = .error (.int041 got) := by
  have filled : ¬ values.isEmpty = true := by
    rw [List.isEmpty_iff]
    exact List.ne_nil_of_mem mem
  unfold sumValues
  rw [if_neg filled]
  by_cases float : values.any Value.isFloat = true
  · obtain ⟨e, failed⟩ := List.exists_foldlM_error mem (addFloat_fails other) 0.0
    obtain ⟨w, _, sum, own⟩ := List.of_foldlM_error failed
    refine ⟨w, ?_⟩
    rw [if_pos float, sumFloats, failed, addFloat_error own]
    rfl
  · obtain ⟨e, failed⟩ := List.exists_foldlM_error mem (addInteger_fails other) 0
    obtain ⟨w, _, sum, own⟩ := List.of_foldlM_error failed
    refine ⟨w, ?_⟩
    rw [if_neg float, sumIntegers, failed, addInteger_error own]
    rfl

theorem sumValues_ok {values : List Value} (numbers : ∀ v ∈ values, v.isNumber = true) :
    ∃ v, sumValues values = .ok v := by
  by_cases float : values.any Value.isFloat = true
  · obtain ⟨x, ran, _⟩ := List.foldlM_invariant (fun _ => True) (fun v mem sum _ =>
      (addFloat_ok (numbers v mem) sum).imp fun _ ran => ⟨ran, trivial⟩) (s := 0.0) trivial
    unfold sumValues
    by_cases empty : values.isEmpty = true
    · rw [if_pos empty]
      exact ⟨_, rfl⟩
    · rw [if_neg empty, if_pos float, sumFloats, ran]
      exact ⟨_, rfl⟩
  · refine ⟨_, sumValues_integers numbers fun v mem => ?_⟩
    rw [Bool.not_eq_true, List.any_eq_false] at float
    exact Bool.eq_false_iff.mpr (float v mem)

/-- Numbers have a sum; anything else has none, and is no group without values. -/
theorem sumValues_cases (values : List Value) :
    ((∀ v ∈ values, v.isNumber = true) ∧ ∃ v, sumValues values = .ok v) ∨
      ((¬ ∀ v ∈ values, v.isNumber = true) ∧ ∃ got, sumValues values = .error (.int041 got)) := by
  by_cases numbers : ∀ v ∈ values, v.isNumber = true
  · exact .inl ⟨numbers, sumValues_ok numbers⟩
  · refine .inr ⟨numbers, ?_⟩
    obtain ⟨v, bad⟩ := Classical.not_forall.mp numbers
    obtain ⟨mem, other⟩ := Classical.not_imp.mp bad
    exact sumValues_error mem (Bool.eq_false_iff.mpr other)

theorem distinct_numbers {values : List Value} :
    (∀ v ∈ distinct values, v.isNumber = true) ↔ ∀ v ∈ values, v.isNumber = true := by
  refine ⟨fun numbers v mem => ?_, fun numbers v mem => numbers v (mem_of_mem_distinct mem)⟩
  obtain ⟨w, own, same⟩ := List.mem_map.mp (mem_distinct_ranks.mpr (List.mem_map_of_mem mem))
  have number := numbers w own
  rwa [Value.isNumber, Value.discriminant_of_rank same] at number

theorem sumDistinct_ascending {values : List Value} (plain : ∀ v ∈ values, v.isFloat = false)
    {v : Value} (ran : sumValues (distinct values) = .ok v) :
    ∃ n, v = .integer n ∧ n.toInt = ascendingTotal (integersOf values).dedup := by
  have numbers : ∀ w ∈ distinct values, w.isNumber = true := by
    obtain ⟨numbers, -⟩ | ⟨-, got, failed⟩ := sumValues_cases (distinct values)
    · exact numbers
    · rw [ran] at failed
      cases failed
  rw [sumValues_integers numbers fun w mem => plain w (mem_of_mem_distinct mem)] at ran
  cases ran
  refine ⟨_, rfl, ?_⟩
  rw [foldl_ascending _ ((distinct_integers_sorted values).imp le_of_lt) 0 (.inl (le_refl 0)),
    ascendingTotal_perm (distinct_integers values).symm, ascendingTotal]
  exact congrArg (fun n => min _ (max _ n + _)) (Int.zero_add _)

/-! ## Least and greatest values -/

/-- The order of `min` and `max` on ranks: the first is preferred or as good. -/
def Aggregate.prefers (agg : Aggregate) (r r' : Rank) : Prop :=
  match agg with
  | .min => r ≤ r'
  | _ => r' ≤ r

theorem Aggregate.prefers_trans {agg : Aggregate} {r r' r'' : Rank} (h : agg.prefers r r')
    (h' : agg.prefers r' r'') : agg.prefers r r'' := by
  cases agg with
  | min => exact le_trans h h'
  | count | countDistinct | sum | sumDistinct | max => exact le_trans h' h

theorem Aggregate.prefers_self (agg : Aggregate) (r : Rank) : agg.prefers r r := by
  cases agg <;> exact le_refl r

theorem Aggregate.replaces_iff {agg : Aggregate} {r r' : Rank} :
    agg.replaces (compare r r') = true ↔ ¬ agg.prefers r r' := by
  cases agg with
  | min => exact (Ordering.isGT_iff_eq_gt.trans compare_gt_iff_gt).trans not_le.symm
  | count | countDistinct | sum | sumDistinct | max =>
      exact (Ordering.isLT_iff_eq_lt.trans compare_lt_iff_lt).trans not_le.symm

theorem extremeOrdering_isSome {v w : Value} (orderable : v.isOrderable = true)
    (same : v.discriminant = w.discriminant) : ∃ ordering, extremeOrdering v w = some ordering := by
  cases v with
  | string _ | integer _ | float _ =>
      cases w <;> first | exact ⟨_, rfl⟩ | cases same
  | boolean _ | ref _ | keyword _ | null => cases orderable

theorem extremeOrdering_none {v w : Value} (other : v.isOrderable = false) : extremeOrdering v w = none := by
  cases v with
  | string _ | integer _ | float _ => cases other
  | boolean _ | ref _ | keyword _ | null => rfl

theorem extremeOrdering_rank {v w : Value} (orderable : v.isOrderable = true)
    (same : v.discriminant = w.discriminant) (hv : v.isNaN = false) (hw : w.isNaN = false) :
    extremeOrdering v w = some (compare v.rank w.rank) := by
  rw [← Value.cmp_eq]
  cases v with
  | string s => cases w <;> first | rfl | cases same
  | integer i => cases w <;> first | rfl | cases same
  | float f =>
      cases w with
      | float g =>
          have hf : f.isNaN = false := hv
          have hg : g.isNaN = false := hw
          change some ((f.partialCmp g).getD .eq) = some (Value.cmp (.float f) (.float g))
          change _ = some (if f.isNaN && g.isNaN then Ordering.eq else if f.isNaN then .gt
            else if g.isNaN then .lt else (f.partialCmp g).getD .eq)
          rw [hf, hg]
          rfl
      | string _ | integer _ | boolean _ | ref _ | keyword _ | null => cases same
  | boolean _ | ref _ | keyword _ | null => cases orderable

theorem extremeStep_ok {agg : Aggregate} {acc v : Value} (orderable : acc.isOrderable = true)
    (same : acc.discriminant = v.discriminant) :
    ∃ acc', extremeStep agg acc v = .ok acc' ∧ (acc' = acc ∨ acc' = v) := by
  obtain ⟨ordering, known⟩ := extremeOrdering_isSome orderable same
  unfold extremeStep
  rw [known]
  by_cases replaced : agg.replaces ordering = true
  · exact ⟨v, congrArg Except.ok (if_pos replaced), .inr rfl⟩
  · exact ⟨acc, congrArg Except.ok (if_neg replaced), .inl rfl⟩

/-- One step keeps the better of two values. -/
theorem extremeStep_prefers {agg : Aggregate} {acc v : Value} (orderable : acc.isOrderable = true)
    (same : acc.discriminant = v.discriminant) (hacc : acc.isNaN = false) (hv : v.isNaN = false) :
    ∃ acc', extremeStep agg acc v = .ok acc' ∧ (acc' = acc ∨ acc' = v) ∧
      agg.prefers acc'.rank acc.rank ∧ agg.prefers acc'.rank v.rank := by
  unfold extremeStep
  rw [extremeOrdering_rank orderable same hacc hv]
  by_cases replaced : agg.replaces (compare acc.rank v.rank) = true
  · refine ⟨v, congrArg Except.ok (if_pos replaced), .inr rfl, ?_, agg.prefers_self _⟩
    have worse := Aggregate.replaces_iff.mp replaced
    cases agg with
    | min => exact le_of_not_ge worse
    | count | countDistinct | sum | sumDistinct | max => exact le_of_not_ge worse
  · refine ⟨acc, congrArg Except.ok (if_neg replaced), .inl rfl, agg.prefers_self _, ?_⟩
    rw [Aggregate.replaces_iff] at replaced
    exact not_not.mp replaced

/-- The fold ends with a value it has met, preferred to all of them. -/
theorem extremeFold_prefers {agg : Aggregate} (values : List Value) (acc : Value)
    (orderable : acc.isOrderable = true) (same : ∀ v ∈ values, acc.discriminant = v.discriminant)
    (hacc : acc.isNaN = false) (plain : ∀ v ∈ values, v.isNaN = false) :
    ∃ best, values.foldlM (extremeStep agg) acc = .ok best ∧ best ∈ acc :: values ∧
      ∀ v ∈ acc :: values, agg.prefers best.rank v.rank := by
  induction values generalizing acc with
  | nil =>
      refine ⟨acc, rfl, List.mem_cons_self, fun v mem => ?_⟩
      rw [List.mem_singleton.mp mem]
      exact agg.prefers_self _
  | cons v values ih =>
      have hv := same v List.mem_cons_self
      obtain ⟨acc', ran, which, better, better'⟩ :=
        @extremeStep_prefers agg _ _ orderable hv hacc (plain v List.mem_cons_self)
      have kind : acc'.discriminant = acc.discriminant := by
        cases which with
        | inl old => rw [old]
        | inr new => rw [new, hv]
      have orderable' : acc'.isOrderable = true := by rwa [Value.isOrderable, kind]
      have plain' : acc'.isNaN = false := by
        cases which with
        | inl old => rwa [old]
        | inr new => rw [new, plain v List.mem_cons_self]
      obtain ⟨best, found, mem, least⟩ := ih acc' orderable'
        (fun w hw => kind.trans (same w (List.mem_cons_of_mem _ hw))) plain'
        fun w hw => plain w (List.mem_cons_of_mem _ hw)
      refine ⟨best, (List.foldlM_cons_ok ran).trans found, ?_, ?_⟩
      · rcases List.mem_cons.mp mem with rfl | later
        · rcases which with rfl | rfl <;> simp
        · exact List.mem_cons_of_mem _ (List.mem_cons_of_mem _ later)
      · have top := least acc' List.mem_cons_self
        intro w hw
        rcases List.mem_cons.mp hw with rfl | hw
        · exact Aggregate.prefers_trans top better
        · rcases List.mem_cons.mp hw with rfl | hw
          · exact Aggregate.prefers_trans top better'
          · exact least w (List.mem_cons_of_mem _ hw)

theorem extreme_differs {agg : Aggregate} {first v : Value} {rest : List Value}
    (other : rest.find? (fun v => decide (v.discriminant ≠ first.discriminant)) = some v) :
    extreme agg (first :: rest) = .error (.int043 agg first v) := by
  simp only [extreme, other]

theorem extreme_fold {agg : Aggregate} {first : Value} {rest : List Value}
    (same : rest.find? (fun v => decide (v.discriminant ≠ first.discriminant)) = none) :
    extreme agg (first :: rest) = (first :: rest).foldlM (extremeStep agg) first := by
  simp only [extreme, same]

/-- Values of one kind have a least and a greatest one; others have none, which is no group
without values. -/
theorem extreme_cases (agg : Aggregate) (first : Value) (rest : List Value) :
    ((∀ v ∈ first :: rest, v.isOrderable = true) ∧
        (∀ v ∈ first :: rest, first.discriminant = v.discriminant) ∧
        ∃ v, extreme agg (first :: rest) = .ok v) ∨
      ((¬ ((∀ v ∈ first :: rest, v.isOrderable = true) ∧
          ∀ v ∈ first :: rest, first.discriminant = v.discriminant)) ∧
        ∃ v w, extreme agg (first :: rest) = .error (.int043 agg v w) ∨
          extreme agg (first :: rest) = .error (.int044 agg v)) := by
  cases other : rest.find? fun v => decide (v.discriminant ≠ first.discriminant) with
  | some v =>
      have mem := List.mem_of_find?_eq_some other
      have differs := List.find?_some other
      rw [decide_eq_true_eq] at differs
      refine .inr ⟨fun ⟨_, same⟩ => ?_, first, v, .inl (extreme_differs other)⟩
      exact differs (same v (List.mem_cons_of_mem _ mem)).symm
  | none =>
      have same : ∀ v ∈ first :: rest, first.discriminant = v.discriminant := by
        intro v mem
        cases List.mem_cons.mp mem with
        | inl here => rw [here]
        | inr later =>
            have kind := List.find?_eq_none.mp other v later
            rw [decide_eq_true_eq, not_not] at kind
            exact kind.symm
      cases orderable : first.isOrderable with
      | true =>
          refine .inl ⟨fun v mem => ?_, same, ?_⟩
          · rwa [Value.isOrderable, ← same v mem]
          · obtain ⟨v, ran, _⟩ := List.foldlM_invariant
              (fun acc => acc.discriminant = first.discriminant)
              (fun v mem acc kind => by
                have own : acc.isOrderable = true := by rwa [Value.isOrderable, kind]
                obtain ⟨acc', ran, which⟩ :=
                  @extremeStep_ok agg _ _ own (kind.trans (same v mem))
                refine ⟨acc', ran, ?_⟩
                cases which with
                | inl old => rw [old, kind]
                | inr new => rw [new, same v mem]) (s := first) rfl
            exact ⟨v, (extreme_fold other).trans ran⟩
      | false =>
          refine .inr ⟨fun ⟨all, _⟩ => ?_, first, first, .inr ?_⟩
          · rw [all first List.mem_cons_self] at orderable
            cases orderable
          · refine (extreme_fold other).trans (List.foldlM_cons_error ?_)
            unfold extremeStep
            rw [extremeOrdering_none orderable]

/-- Values accepted by `min` and `max`, seen from the first. -/
theorem accepts_extreme {first : Value} {rest : List Value} : Aggregate.Accepts .min (first :: rest) ↔
    (∀ v ∈ first :: rest, v.isOrderable = true) ∧
      ∀ v ∈ first :: rest, first.discriminant = v.discriminant := by
  constructor
  · intro ⟨_, orderable, same⟩
    exact ⟨orderable, fun v mem => same first List.mem_cons_self v mem⟩
  · intro ⟨orderable, same⟩
    exact ⟨List.cons_ne_nil _ _, orderable, fun v hv w hw => (same v hv).symm.trans (same w hw)⟩

theorem extreme_isOk {agg : Aggregate} {values : List Value} :
    (∃ v, extreme agg values = .ok v) ↔ Aggregate.Accepts .min values := by
  cases values with
  | nil => exact iff_of_false (fun ⟨_, no⟩ => nomatch no) fun no => no.1 rfl
  | cons first rest =>
      rw [accepts_extreme]
      obtain ⟨orderable, same, ran⟩ | ⟨no, v, w, failed⟩ := extreme_cases agg first rest
      · exact iff_of_true ran ⟨orderable, same⟩
      · refine iff_of_false (fun ⟨v', ran⟩ => ?_) no
        rw [ran] at failed
        rcases failed with failed | failed <;> cases failed

theorem extreme_best {agg : Aggregate} {values : List Value} {v : Value} (ran : extreme agg values = .ok v)
    (plain : ∀ w ∈ values, w.isNaN = false) : v ∈ values ∧ ∀ w ∈ values, agg.prefers v.rank w.rank := by
  cases values with
  | nil => cases ran
  | cons first rest =>
      obtain ⟨orderable, same⟩ := accepts_extreme.mp (extreme_isOk.mp ⟨v, ran⟩)
      obtain ⟨best, found, mem, least⟩ := @extremeFold_prefers agg (first :: rest) first
        (orderable first List.mem_cons_self) same (plain first List.mem_cons_self) plain
      cases other : rest.find? fun v => decide (v.discriminant ≠ first.discriminant) with
      | some w =>
          rw [extreme_differs other] at ran
          cases ran
      | none =>
          rw [extreme_fold other, found] at ran
          cases ran
          refine ⟨?_, fun w hw => least w (List.mem_cons_of_mem _ hw)⟩
          cases List.mem_cons.mp mem with
          | inl here =>
              rw [here]
              exact List.mem_cons_self
          | inr later => exact later

theorem extreme_skips {agg : Aggregate} (own : agg = .min ∨ agg = .max) {values : List Value} {e : AggError}
    (failed : extreme agg values = .error e) : e.skips = true ↔ values = [] := by
  cases values with
  | nil =>
      cases failed
      exact iff_of_true AggError.skips_int042 rfl
  | cons first rest =>
      refine iff_of_false ?_ (List.cons_ne_nil _ _)
      obtain ⟨-, -, v, ran⟩ | ⟨-, v, w, failed'⟩ := extreme_cases agg first rest
      · rw [ran] at failed
        cases failed
      · rw [failed] at failed'
        rcases failed' with same | same
        · cases same
          exact AggError.not_skips (AggError.hyphen_int043 own v w)
        · cases same
          exact AggError.not_skips (AggError.hyphen_int044 own v)

/-! ## All of them -/

section

variable {agg : Aggregate} {values values' : List Value} {v v' : Value}

/-- An aggregate succeeds on the values it accepts. -/
theorem applyBuiltin_isOk : (∃ v, applyBuiltinAggregate agg values = .ok v) ↔ agg.Accepts values := by
  cases agg with
  | count | countDistinct => exact iff_of_true ⟨_, rfl⟩ trivial
  | sum =>
      change (∃ v, sumValues values = .ok v) ↔ ∀ v ∈ values, v.isNumber = true
      obtain ⟨numbers, ran⟩ | ⟨other, got, failed⟩ := sumValues_cases values
      · exact iff_of_true ran numbers
      · refine iff_of_false (fun ⟨v, ran⟩ => ?_) other
        rw [ran] at failed
        cases failed
  | sumDistinct =>
      change (∃ v, sumValues (distinct values) = .ok v) ↔ ∀ v ∈ values, v.isNumber = true
      rw [← distinct_numbers]
      obtain ⟨numbers, ran⟩ | ⟨other, got, failed⟩ := sumValues_cases (distinct values)
      · exact iff_of_true ran numbers
      · refine iff_of_false (fun ⟨v, ran⟩ => ?_) other
        rw [ran] at failed
        cases failed
  | min => exact extreme_isOk
  | max => exact extreme_isOk

/-- What it returns is the value of the aggregate. -/
theorem applyBuiltin_isValue (ran : applyBuiltinAggregate agg values = .ok v) : agg.IsValue values v := by
  cases agg with
  | count =>
      cases ran
      rfl
  | countDistinct =>
      cases ran
      exact congrArg countValue (distinct_length values)
  | sum =>
      intro plain steady
      have numbers := applyBuiltin_isOk.mp ⟨v, ran⟩
      change sumValues values = .ok v at ran
      rw [sumValues_integers numbers plain] at ran
      cases ran
      exact ⟨_, rfl, steady.foldl⟩
  | sumDistinct => exact fun plain => sumDistinct_ascending plain ran
  | min => exact extreme_best ran
  | max => exact extreme_best ran

/-- The error of a group without values is that of `min` and `max`, and only theirs. -/
theorem applyBuiltin_skips {e : AggError} (failed : applyBuiltinAggregate agg values = .error e) :
    e.skips = true ↔ (agg = .min ∨ agg = .max) ∧ values = [] := by
  have sums : ∀ values, sumValues values = .error e → ¬ e.skips = true := by
    intro values failed
    obtain ⟨-, v, ran⟩ | ⟨-, got, failed'⟩ := sumValues_cases values
    · rw [ran] at failed
      cases failed
    · rw [failed'] at failed
      cases failed
      exact AggError.not_skips (AggError.hyphen_int041 got)
  cases agg with
  | count | countDistinct => cases failed
  | sum => exact iff_of_false (sums _ failed) (by simp)
  | sumDistinct => exact iff_of_false (sums _ failed) (by simp)
  | min => exact (extreme_skips (.inl rfl) failed).trans (by simp)
  | max => exact (extreme_skips (.inr rfl) failed).trans (by simp)

theorem extreme_rank (plain : ∀ v ∈ values, v.isNaN = false) (perm : values.Perm values')
    (ran : extreme agg values = .ok v) (ran' : extreme agg values' = .ok v') : v.rank = v'.rank := by
  obtain ⟨mem, least⟩ := extreme_best ran plain
  obtain ⟨mem', least'⟩ := extreme_best ran' fun w hw => plain w (perm.mem_iff.mpr hw)
  have h := least v' (perm.mem_iff.mpr mem')
  have h' := least' v (perm.mem_iff.mp mem)
  cases agg with
  | min => exact le_antisymm h h'
  | count | countDistinct | sum | sumDistinct | max => exact le_antisymm h' h

/-- Values in another order have the same value, as values compare. -/
theorem applyBuiltin_rank (perm : values.Perm values') (free : agg.OrderFree values)
    (ran : applyBuiltinAggregate agg values = .ok v) (ran' : applyBuiltinAggregate agg values' = .ok v') :
    v.rank = v'.rank := by
  cases agg with
  | count =>
      cases ran
      cases ran'
      rw [perm.length_eq]
  | countDistinct =>
      have value : v = _ := applyBuiltin_isValue ran
      have value' : v' = _ := applyBuiltin_isValue ran'
      rw [value, value', (perm.map Value.rank).dedup.length_eq]
  | sum =>
      have integers : (integersOf values).Perm (integersOf values') := perm.filterMap _
      obtain ⟨n, rfl, value⟩ := applyBuiltin_isValue ran free.1 free.2
      obtain ⟨n', rfl, value'⟩ := applyBuiltin_isValue ran' (fun w hw => free.1 w (perm.mem_iff.mpr hw))
        ((Steady.perm integers).mp free.2)
      rw [total_perm integers, ← value'] at value
      rw [Int64.toInt.inj value]
  | sumDistinct =>
      change sumValues (distinct values) = .ok v at ran
      change sumValues (distinct values') = .ok v' at ran'
      rw [distinct_perm perm free, ran'] at ran
      cases ran
      rfl
  | min => exact extreme_rank free perm ran ran'
  | max => exact extreme_rank free perm ran ran'

end

end Minigraf
