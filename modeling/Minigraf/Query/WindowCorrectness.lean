import Minigraf.Query.WindowOrder

/-!
`apply_window_functions` against its meaning: right on every documented sort if and only if
the order values of every partition can be ordered.
-/

namespace Minigraf

section

variable {sortBy : SortBy (Value × Nat)} {iterate : Iteration (Option Value × List Nat)} {registry : String → Option AggImpl}
  {n : Nat} {ws : WindowSpec} {rows out : List Row} {part : List Nat}

/-! ## Sorted rows -/

theorem keyed_keys {keyed : List (Value × Nat)}
    (sorted : sortBy.sort (compareRows ws.order) (keyedRows ws rows part) = some keyed) :
    keyed.map Prod.fst = (keyed.map Prod.snd).map (orderKey ws rows) := by
  rw [List.map_map]
  apply List.map_congr_left
  intro entry mem
  obtain ⟨i, _, rfl⟩ := List.mem_map.mp ((sortBy.perm sorted).mem_iff.mp mem)
  rfl

theorem AggImpl.running_getElem (impl : AggImpl) (acc : impl.State) (m : Nat) (vs : List Value) (p : Nat) (below : p < vs.length) :
    (impl.running acc m vs)[p]? = some (impl.finalise ((vs.take (p + 1)).foldl impl.step acc) (m + p + 1)) := by
  induction vs generalizing acc m p with
  | nil => cases below
  | cons v vs ih =>
      cases p with
      | zero => rfl
      | succ p =>
          rw [running, List.getElem?_cons_succ, ih _ _ _ (Nat.lt_of_succ_lt_succ below), List.take_succ_cons, List.foldl_cons]
          congr 2
          omega

theorem rowsBefore_part (ws : WindowSpec) (rows : List Row) {order : List Nat} (perm : order.Perm part) (i : Nat) :
    rowsBefore ws.order (order.map (orderKey ws rows)) (orderKey ws rows i) =
      part.countP fun j => decide (compareKeys ws.order (orderKey ws rows j) (orderKey ws rows i) = .lt) := by
  rw [rowsBefore, List.countP_map]
  exact perm.countP_eq _

theorem places_getElem {order : List Nat} (perm : order.Perm part) {p i : Nat} (at_ : order[p]? = some i) :
    ((order.map (orderKey ws rows)).map fun key =>
        Value.integer (.ofNat (1 + rowsBefore ws.order (order.map (orderKey ws rows)) key)))[p]? =
      some (.integer (.ofNat (1 + part.countP fun j =>
        decide (compareKeys ws.order (orderKey ws rows j) (orderKey ws rows i) = .lt)))) := by
  have place := rowsBefore_part ws rows perm i
  rw [List.getElem?_map, List.getElem?_map, at_]
  exact congrArg (fun count => some (Value.integer (.ofNat (1 + count)))) place

theorem TiesSame.symm {order : Order} {a b : Value} (same : TiesSame order a b) : TiesSame order b a := by
  intro tie
  rw [compareKeys_swap] at tie
  apply Value.eq_comm
  apply same
  cases own : compareKeys order a b with
  | eq => rfl
  | lt | gt =>
      rw [own] at tie
      cases tie

/-- Ties between rows, in whatever order the rows are. -/
theorem pairwise_tiesSame_perm {part' : List Nat} (perm : part'.Perm part) :
    (part'.map (orderKey ws rows)).Pairwise (TiesSame ws.order) ↔
      part.Pairwise fun i j => TiesSame ws.order (orderKey ws rows i) (orderKey ws rows j) := by
  rw [List.pairwise_map]
  exact perm.pairwise_iff TiesSame.symm

theorem windowValues_aggregate (number : ws.func ≠ .rowNumber) (rank : ws.func ≠ .rank) {keyed : List (Value × Nat)}
    {values : List Value} :
    windowValues registry ws rows keyed = .ok values ↔ ∃ impl, registry ws.funcName = some impl ∧
      impl.running impl.init 0 (keyed.map fun entry => windowInput ws rows entry.2) = values := by
  cases found : registry ws.funcName with
  | none =>
      have failed : windowValues registry ws rows keyed = .error (.int030 ws.funcName) := by
        unfold windowValues
        cases func : ws.func with
        | rowNumber => exact absurd func number
        | rank => exact absurd func rank
        | _ => rw [found]
      rw [failed]
      simp
  | some impl =>
      have ran : windowValues registry ws rows keyed =
          .ok (impl.running impl.init 0 (keyed.map fun entry => windowInput ws rows entry.2)) := by
        unfold windowValues
        cases func : ws.func with
        | rowNumber => exact absurd func number
        | rank => exact absurd func rank
        | _ => rw [found]
      rw [ran]
      simp

theorem windowValueAt_aggregate (number : ws.func ≠ .rowNumber) (rank : ws.func ≠ .rank) {order : List Nat}
    {column : Nat → Option Value} :
    WindowValueAt registry ws rows part order column ↔ ∃ impl, registry ws.funcName = some impl ∧
      ∀ (p i : Nat), order[p]? = some i → column i = some (impl.of ((order.take (p + 1)).map (windowInput ws rows))) := by
  unfold WindowValueAt
  cases func : ws.func with
  | rowNumber => exact absurd func number
  | rank => exact absurd func rank
  | _ => exact Iff.rfl

/-- The value of a sorted row, by its place. -/
theorem windowValueAt_of_sorted {keyed : List (Value × Nat)} {values : List Value} {column : Nat → Option Value}
    (pre : PreorderOn (compareRows ws.order) (keyedRows ws rows part)) (sorts : Sorts (compareRows ws.order) (keyedRows ws rows part) keyed)
    (perm : (keyed.map Prod.snd).Perm part) (keys : keyed.map Prod.fst = (keyed.map Prod.snd).map (orderKey ws rows))
    (fits : part.length < 2 ^ 63)
    (ties : ws.func = .rank → (keyed.map Prod.fst).Pairwise (TiesSame ws.order))
    (vals : windowValues registry ws rows keyed = .ok values)
    (written : ∀ (p i : Nat), (keyed.map Prod.snd)[p]? = some i → column i = values[p]?) :
    WindowValueAt registry ws rows part (keyed.map Prod.snd) column := by
  have within : ∀ {p i : Nat}, (keyed.map Prod.snd)[p]? = some i → p < keyed.length := by
    intro p i at_
    have below := (List.getElem?_eq_some_iff.mp at_).1
    rwa [List.length_map] at below
  by_cases number : ws.func = .rowNumber
  · rw [windowValues, number] at vals
    rw [WindowValueAt, number]
    intro p i at_
    have below := within at_
    have few : keyed.length < 2 ^ 63 := by
      rw [← List.length_map (f := Prod.snd), perm.length_eq]
      exact fits
    rw [rowNumbers, if_pos few] at vals
    cases vals
    rw [written p i at_, List.getElem?_map, List.getElem?_range below]
    rfl
  · by_cases rank : ws.func = .rank
    · rw [windowValues, rank] at vals
      rw [WindowValueAt, rank]
      cases vals
      have sorted : (keyed.map Prod.fst).Pairwise fun a b => compareKeys ws.order a b ≠ .gt :=
        List.pairwise_map.mpr sorts.sorted
      have preKeys := (preorderOn_rows_iff ws.order keyed).mp (pre.of_subset fun a mem => sorts.perm.mem_iff.mp mem)
      have lengths : (keyed.map Prod.fst).length < 2 ^ 63 := by
        rw [List.length_map, ← List.length_map (f := Prod.snd), perm.length_eq]
        exact fits
      have ranks := (rankValues_iff preKeys sorted lengths).mpr (ties rank)
      intro i mem
      obtain ⟨p, at_⟩ := List.mem_iff_getElem?.mp (perm.mem_iff.mpr mem)
      rw [written p i at_, ranks, keys, places_getElem perm at_]
    · obtain ⟨impl, registered, rfl⟩ := (windowValues_aggregate number rank).mp vals
      refine (windowValueAt_aggregate number rank).mpr ⟨impl, registered, ?_⟩
      intro p i at_
      have below := within at_
      have inputs : keyed.map (fun entry => windowInput ws rows entry.2) =
          (keyed.map Prod.snd).map (windowInput ws rows) := by
        rw [List.map_map]
        rfl
      rw [written p i at_, inputs, AggImpl.running_getElem _ _ _ _ _ (by rw [List.length_map, List.length_map]; exact below),
        AggImpl.of, List.map_take]
      congr 2
      rw [List.length_take, List.length_map, List.length_map]
      omega

theorem PartitionRan.correct (pre : PreorderOn (compareRows ws.order) (keyedRows ws rows part))
    (ties : ws.func = .rank → part.Pairwise fun i j => TiesSame ws.order (orderKey ws rows i) (orderKey ws rows j))
    (fits : part.length < 2 ^ 63) (ran : PartitionRan sortBy registry n ws rows part out) :
    WindowCorrect registry ws rows part fun j => cell out j (.win n) := by
  obtain ⟨keyed, values, sorted, vals, column⟩ := ran
  obtain ⟨keyed', sorted', sorts⟩ := sortBy.sorts pre
  rw [sorted] at sorted'
  cases sorted'
  have perm := keyedRows_perm sorted
  have keys := keyed_keys sorted
  refine ⟨keyed.map Prod.snd, perm, ?_, ?_⟩
  · have follows : (keyed.map Prod.fst).Pairwise fun a b => compareKeys ws.order a b ≠ .gt :=
      List.pairwise_map.mpr sorts.sorted
    rw [keys, List.pairwise_map] at follows
    exact follows
  · refine windowValueAt_of_sorted pre sorts perm keys fits ?_ vals column
    intro func
    rw [keys, pairwise_tiesSame_perm perm]
    exact ties func

/-- Of a preorder, ranks are right only where ties are `==`. -/
theorem PartitionRan.ties (pre : PreorderOn (compareRows ws.order) (keyedRows ws rows part)) (func : ws.func = .rank)
    (fits : part.length < 2 ^ 63) (ran : PartitionRan sortBy registry n ws rows part out)
    (correct : WindowCorrect registry ws rows part fun j => cell out j (.win n)) :
    part.Pairwise fun i j => TiesSame ws.order (orderKey ws rows i) (orderKey ws rows j) := by
  obtain ⟨keyed, values, sorted, vals, column⟩ := ran
  obtain ⟨keyed', sorted', sorts⟩ := sortBy.sorts pre
  rw [sorted] at sorted'
  cases sorted'
  have perm := keyedRows_perm sorted
  have keys := keyed_keys sorted
  have follows : (keyed.map Prod.fst).Pairwise fun a b => compareKeys ws.order a b ≠ .gt :=
    List.pairwise_map.mpr sorts.sorted
  have preKeys := (preorderOn_rows_iff ws.order keyed).mp (pre.of_subset fun a mem => sorts.perm.mem_iff.mp mem)
  have lengths : (keyed.map Prod.fst).length < 2 ^ 63 := by
    rw [List.length_map, ← List.length_map (f := Prod.snd), perm.length_eq]
    exact fits
  obtain ⟨_, _, _, ranked⟩ := correct
  unfold WindowValueAt at ranked
  rw [func] at ranked
  rw [windowValues, func] at vals
  cases vals
  rw [← pairwise_tiesSame_perm perm, ← keys]
  apply (rankValues_iff preKeys follows lengths).mp
  apply List.ext_getElem?
  intro p
  cases at_ : (keyed.map Prod.snd)[p]? with
  | none =>
      have beyond := List.getElem?_eq_none_iff.mp at_
      rw [List.length_map] at beyond
      rw [List.getElem?_eq_none_iff.mpr (by rw [rankValues_length, List.length_map]; exact beyond),
        List.getElem?_eq_none_iff.mpr (by rw [List.length_map, List.length_map]; exact beyond)]
  | some i =>
      have value := ranked i (perm.mem_iff.mp (List.mem_of_getElem? at_))
      rw [← column p i at_, keys, places_getElem perm at_]
      exact value

/-! ## All rows -/

theorem WindowCorrect.perm {part' : List Nat} (perm : part.Perm part') {column : Nat → Option Value}
    (correct : WindowCorrect registry ws rows part column) : WindowCorrect registry ws rows part' column := by
  obtain ⟨order, own, follows, value⟩ := correct
  refine ⟨order, own.trans perm, follows, ?_⟩
  by_cases number : ws.func = .rowNumber
  · rw [WindowValueAt, number] at value ⊢
    exact value
  · by_cases rank : ws.func = .rank
    · rw [WindowValueAt, rank] at value ⊢
      intro i mem
      rw [← perm.countP_eq]
      exact value i (perm.mem_iff.mpr mem)
    · rw [windowValueAt_aggregate number rank] at value ⊢
      exact value

theorem Orderable.perm {part' : List Nat} (perm : part.Perm part') (orderable : Orderable ws rows part) :
    Orderable ws rows part' where
  unbridged i hi j hj k hk :=
    orderable.unbridged i (perm.mem_iff.mpr hi) j (perm.mem_iff.mpr hj) k (perm.mem_iff.mpr hk)
  ties func := by
    apply (perm.pairwise_iff ?_).mp (orderable.ties func)
    intro i j same tie
    exact Value.eq_comm (same (valueCmp_eq_comm tie))

theorem Orderable.tiesSame (orderable : Orderable ws rows part) (func : ws.func = .rank) :
    part.Pairwise fun i j => TiesSame ws.order (orderKey ws rows i) (orderKey ws rows j) := by
  refine (orderable.ties func).imp ?_
  intro i j same tie
  exact same ((compareKeys_eq_iff ws.order _ _).mp tie)

theorem peers_fits (fits : rows.length < 2 ^ 63) (i : Nat) : (peers ws rows i).length < 2 ^ 63 := by
  apply Nat.lt_of_le_of_lt _ fits
  have short := (List.filter_sublist (l := List.range rows.length) (p := fun j => decide (j = i) ||
    sameKey (partitionKey ws rows i) (partitionKey ws rows j))).length_le
  rwa [List.length_range] at short

theorem exists_windowValues (registered : ws.Registered registry) {keyed : List (Value × Nat)} (fits : keyed.length < 2 ^ 63) :
    ∃ values, windowValues registry ws rows keyed = .ok values := by
  unfold windowValues
  split
  · exact ⟨_, if_pos fits⟩
  · exact ⟨_, rfl⟩
  · next notNumber notRank =>
      obtain ⟨impl, own⟩ := (registered.resolve_left fun func => notNumber func).resolve_left fun func => notRank func
      rw [own]
      exact ⟨_, rfl⟩

theorem exists_windowSpecs {findSpecs : List FindSpec} (fits : rows.length < 2 ^ 63)
    (able : ∀ ws, .window ws ∈ findSpecs → ∀ i < rows.length, ws.Registered registry ∧ Orderable ws rows (peers ws rows i)) :
    ∃ out, windowSpecs sortBy iterate registry n findSpecs rows = .ok out := by
  induction findSpecs generalizing n rows with
  | nil => exact ⟨rows, rfl⟩
  | cons spec findSpecs ih =>
      cases spec with
      | var v | aggregate func v => exact ih fits fun ws mem => able ws (List.mem_cons_of_mem _ mem)
      | window ws =>
          have perm := handedOver_perm iterate ws rows
          have each : ∀ part ∈ handedOver iterate ws rows, ∃ keyed values,
              sortBy.sort (compareRows ws.order) (keyedRows ws rows part) = some keyed ∧
                windowValues registry ws rows keyed = .ok values := by
            intro part own
            have below : ∀ i ∈ part, i < rows.length := fun i hi =>
              List.mem_range.mp (perm.mem_iff.mp (List.mem_flatten.mpr ⟨part, own, hi⟩))
            have pre : PreorderOn (compareRows ws.order) (keyedRows ws rows part) := by
              apply (preorderOn_part_iff ws rows part).mpr
              intro i hi
              exact ((able ws List.mem_cons_self i (below i hi)).2.perm (handedOver_peers own hi).symm).unbridged i hi
            obtain ⟨keyed, sorted, _⟩ := sortBy.sorts pre
            have short : keyed.length < 2 ^ 63 := by
              have lengths := (keyedRows_perm sorted).length_eq
              have few := (List.sublist_flatten_of_mem own).length_le
              rw [List.length_map] at lengths
              rw [perm.length_eq, List.length_range] at few
              omega
            obtain ⟨i, hi⟩ := exists_mem_handedOver own
            obtain ⟨values, run⟩ := exists_windowValues (able ws List.mem_cons_self i (below i hi)).1 short
            exact ⟨keyed, values, sorted, run⟩
          obtain ⟨mid, first⟩ := exists_windowPartitions (n := n) (perm.nodup_iff.mpr List.nodup_range)
            (fun i mem => List.mem_range.mp (perm.mem_iff.mp mem)) each
          have ⟨same, _⟩ := windowPartitions_ran first
          have later : ∃ out, windowSpecs sortBy iterate registry (n + 1) findSpecs mid = .ok out := by
            apply ih
            · rw [same.length]
              exact fits
            · intro ws' mem i below
              rw [same.length] at below
              have own := able ws' (List.mem_cons_of_mem _ mem) i below
              refine ⟨own.1, ?_⟩
              rw [same.inputs.peers_eq]
              refine ⟨?_, ?_⟩
              · rw [same.inputs.orderKey_eq]
                exact own.2.unbridged
              · rw [same.inputs.orderKey_eq]
                exact own.2.ties
          obtain ⟨out, run⟩ := later
          refine ⟨out, ?_⟩
          rw [windowSpecs]
          rw [handedOver] at first
          rw [first]
          exact run

theorem WindowCorrect.registered {column : Nat → Option Value} (correct : WindowCorrect registry ws rows part column) :
    ws.Registered registry := by
  obtain ⟨_, _, _, value⟩ := correct
  unfold WindowValueAt at value
  split at value
  · next func => exact .inl func
  · next func => exact .inr (.inl func)
  · obtain ⟨impl, own, _⟩ := value
    exact .inr (.inr ⟨impl, own⟩)

end

section

variable {registry : String → Option AggImpl} {findSpecs : List FindSpec} {bindings : List Row}

/-- On a sort that stops where it may, a right result shows that the values can be ordered. -/
theorem orderable_of_correct (fits : bindings.length < 2 ^ 63) {iterate : Iteration (Option Value × List Nat)} {out : List Row}
    (run : applyWindowFunctions (SortBy.strict _) iterate registry bindings findSpecs = .ok out)
    (right : WindowsCorrect registry findSpecs bindings out) {ws : WindowSpec} (mem : .window ws ∈ findSpecs) {i : Nat}
    (below : i < bindings.length) : Orderable ws bindings (peers ws bindings i) := by
  obtain ⟨n, at_⟩ := List.mem_iff_getElem?.mp mem
  obtain ⟨part, perm, ran⟩ := (windowSpecs_ran run).ran n ws at_ i below
  rw [Nat.zero_add] at ran
  have pre : PreorderOn (compareRows ws.order) (keyedRows ws bindings part) := by
    obtain ⟨keyed, _, sorted, _⟩ := ran
    exact SortBy.strict_preorder sorted
  refine Orderable.perm perm ⟨(preorderOn_part_iff ws bindings part).mp pre, ?_⟩
  intro func
  have short : part.length < 2 ^ 63 := by
    rw [perm.length_eq]
    exact peers_fits fits i
  refine (ran.ties pre func short ((right.windows n ws at_ i below).perm perm.symm)).imp ?_
  intro i j same tie
  exact same ((compareKeys_eq_iff ws.order _ _).mpr tie)

def Iteration.plain (α : Type) : Iteration α := ⟨id, fun entries => List.Perm.refl entries⟩

/-- Window functions are right on every sort that does what is documented, and every order
of a map, if and only if the functions are known and the values of every partition can be
ordered. -/
theorem applyWindowFunctions_correct_iff (fits : bindings.length < 2 ^ 63) :
    (∀ (sortBy : SortBy (Value × Nat)) (iterate : Iteration (Option Value × List Nat)), ∃ out,
        applyWindowFunctions sortBy iterate registry bindings findSpecs = .ok out ∧
          WindowsCorrect registry findSpecs bindings out) ↔
      ∀ ws, .window ws ∈ findSpecs → ∀ i < bindings.length,
        ws.Registered registry ∧ Orderable ws bindings (peers ws bindings i) := by
  constructor
  · intro correct ws mem i below
    obtain ⟨out, run, right⟩ := correct (SortBy.strict _) (Iteration.plain _)
    obtain ⟨n, at_⟩ := List.mem_iff_getElem?.mp mem
    exact ⟨(right.windows n ws at_ i below).registered, orderable_of_correct fits run right mem below⟩
  · intro able sortBy iterate
    obtain ⟨out, run⟩ := @exists_windowSpecs sortBy iterate registry 0 bindings findSpecs fits able
    have ran := windowSpecs_ran run
    refine ⟨out, run, ran.length, fun i key far => ran.kept i key fun m _ => far m, ?_⟩
    intro n ws at_ i below
    obtain ⟨part, perm, own⟩ := ran.ran n ws at_ i below
    rw [Nat.zero_add] at own
    have orderable := (able ws (List.mem_of_getElem? at_) i below).2.perm perm.symm
    have short : part.length < 2 ^ 63 := by
      rw [perm.length_eq]
      exact peers_fits fits i
    exact (own.correct ((preorderOn_part_iff ws bindings part).mpr orderable.unbridged) orderable.tiesSame short).perm perm

/-- `(rank :over (:order-by ?k))` on two rows whose value for `?k` is 1. -/
theorem applyWindowFunctions_correct_one :
    ∃ out,
      applyWindowFunctions (SortBy.strict _) (Iteration.plain _) (fun _ => none)
          [[(.var (.named "k"), .integer 1)], [(.var (.named "k"), .integer 1)]]
          [.window ⟨.rank, none, none, .named "k", .asc⟩] = .ok out ∧
        WindowsCorrect (fun _ => none) [.window ⟨.rank, none, none, .named "k", .asc⟩]
          [[(.var (.named "k"), .integer 1)], [(.var (.named "k"), .integer 1)]] out := by
  refine (applyWindowFunctions_correct_iff (by decide)).mpr ?_ _ _
  intro ws mem i below
  cases List.mem_singleton.mp mem
  have key : ∀ j ∈ peers ⟨.rank, none, none, .named "k", .asc⟩
      [[(.var (.named "k"), .integer 1)], [(.var (.named "k"), .integer 1)]] i,
      orderKey ⟨.rank, none, none, .named "k", .asc⟩
        [[(.var (.named "k"), .integer 1)], [(.var (.named "k"), .integer 1)]] j = .integer 1 := by
    intro j own
    have few : j < 2 := (mem_peers.mp own).1
    match j, few with
    | 0, _ | 1, _ => rfl
  refine ⟨.inr (.inl rfl), ?_, ?_⟩
  · intro a ha b hb c hc bridges
    rw [key a ha, key b hb, key c hc] at bridges
    exact ((bridges_iff _ _ _).mp bridges).2.2 rfl
  · intro _
    apply List.Pairwise.imp_of_mem _ (List.pairwise_of_forall fun _ _ => trivial)
    intro a b ha hb _ _
    rw [key a ha, key b hb]
    rfl

/-- The ranks of 1 and 1.0 are 1 and 2. -/
theorem applyWindowFunctions_not_correct :
    ¬ ∀ (sortBy : SortBy (Value × Nat)) (iterate : Iteration (Option Value × List Nat)), ∃ out,
      applyWindowFunctions sortBy iterate (fun _ => none)
          [[(.var (.named "k"), .integer 1)], [(.var (.named "k"), .float ⟨0x3ff0000000000000⟩)]]
          [.window ⟨.rank, none, none, .named "k", .asc⟩] = .ok out ∧
        WindowsCorrect (fun _ => none) [.window ⟨.rank, none, none, .named "k", .asc⟩]
          [[(.var (.named "k"), .integer 1)], [(.var (.named "k"), .float ⟨0x3ff0000000000000⟩)]] out := by
  intro correct
  obtain ⟨out, run, right⟩ := correct (SortBy.strict _) (Iteration.plain _)
  have orderable := orderable_of_correct (by decide) run right (List.mem_singleton.mpr rfl) (i := 0) (by decide)
  have ties := orderable.ties rfl
  have both : peers ⟨.rank, none, none, .named "k", .asc⟩
      [[(.var (.named "k"), .integer 1)], [(.var (.named "k"), .float ⟨0x3ff0000000000000⟩)]] 0 = [0, 1] := by decide
  rw [both, List.pairwise_pair] at ties
  exact absurd (ties (by decide +kernel)) (by decide)

end

end Minigraf
