import Minigraf.Query.WindowPartitions

/-!
What a run of `apply_window_functions` writes: one column for each window, whose values in
a partition are those of its rows as they were sorted. It reads no column it writes.
-/

namespace Minigraf

/-! ## Cells -/

def cell (rows : List Row) (i : Nat) (key : RowKey) : Option Value := (rowAt rows i).lookup key

/-- The same rows, as far as a window reads them. -/
structure SameInputs (rows rows' : List Row) : Prop where
  length : rows'.length = rows.length
  vars : ∀ i v, cell rows' i (.var v) = cell rows i (.var v)

namespace SameInputs

variable {rows rows' : List Row} (same : SameInputs rows rows') (ws : WindowSpec)

include same

theorem partitionKey_eq : partitionKey ws rows' = partitionKey ws rows := by
  funext i
  have reads : (fun v => (rowAt rows' i).lookup (.var v)) = fun v => (rowAt rows i).lookup (.var v) := by
    funext v
    exact same.vars i v
  rw [partitionKey, partitionKey, reads]

theorem orderKey_eq : orderKey ws rows' = orderKey ws rows := by
  funext i
  exact congrArg (·.getD .null) (same.vars i ws.orderBy)

theorem windowInput_eq : windowInput ws rows' = windowInput ws rows := by
  funext i
  have reads : (fun v => (rowAt rows' i).lookup (.var v)) = fun v => (rowAt rows i).lookup (.var v) := by
    funext v
    exact same.vars i v
  rw [windowInput, windowInput, reads]

theorem peers_eq (i : Nat) : peers ws rows' i = peers ws rows i := by
  rw [peers, peers, same.length, same.partitionKey_eq]

theorem keyedRows_eq (part : List Nat) : keyedRows ws rows' part = keyedRows ws rows part := by
  rw [keyedRows, keyedRows, same.orderKey_eq]

theorem windowValues_eq (registry : String → Option AggImpl) (keyed : List (Value × Nat)) :
    windowValues registry ws rows' keyed = windowValues registry ws rows keyed := by
  rw [windowValues, windowValues, same.windowInput_eq]

end SameInputs

/-- The same rows, but for one column. -/
structure SameBut (n : Nat) (rows rows' : List Row) : Prop where
  length : rows'.length = rows.length
  cells : ∀ i key, key ≠ .win n → cell rows' i key = cell rows i key

namespace SameBut

variable {n : Nat} {rows rows' rows'' : List Row}

theorem refl (n : Nat) (rows : List Row) : SameBut n rows rows := ⟨rfl, fun _ _ _ => rfl⟩

theorem trans (first : SameBut n rows rows') (second : SameBut n rows' rows'') : SameBut n rows rows'' where
  length := second.length.trans first.length
  cells i key other := (second.cells i key other).trans (first.cells i key other)

theorem inputs (same : SameBut n rows rows') : SameInputs rows rows' := ⟨same.length, fun i v => same.cells i (.var v) nofun⟩

end SameBut

theorem cell_modify (rows : List Row) (key : RowKey) (i : Nat) (v : Value) (j : Nat) (k : RowKey) :
    cell (rows.modify i ((key, v) :: ·)) j k =
      if i = j ∧ j < rows.length ∧ k = key then some v else cell rows j k := by
  rw [cell, cell, rowAt, rowAt, List.getElem?_modify]
  by_cases here : i = j
  · subst here
    cases row : rows[i]? with
    | none =>
        have beyond := List.getElem?_eq_none_iff.mp row
        rw [if_neg (by omega)]
        simp
    | some own =>
        have within := (List.getElem?_eq_some_iff.mp row).1
        by_cases at_ : k = key
        · rw [if_pos ⟨rfl, within, at_⟩]
          simp [at_]
        · have differs : (k == key) = false := beq_eq_false_iff_ne.mpr at_
          rw [if_neg (fun both => at_ both.2.2)]
          simp [List.lookup_cons, differs]
  · rw [if_neg (fun both => here both.1)]
    simp [here]

theorem writeBack_same (n : Nat) (pairs : List (Nat × Value)) (rows : List Row) :
    SameBut n rows (writeBack (.win n) pairs rows) := by
  induction pairs generalizing rows with
  | nil => exact SameBut.refl n rows
  | cons pair pairs ih =>
      refine SameBut.trans ⟨List.length_modify _ _ _, ?_⟩ (ih _)
      intro j key other
      rw [cell_modify, if_neg (fun both => other both.2.2)]

theorem cell_writeBack_other {key : RowKey} {pairs : List (Nat × Value)} {j : Nat} (other : j ∉ pairs.map Prod.fst)
    (rows : List Row) (k : RowKey) : cell (writeBack key pairs rows) j k = cell rows j k := by
  induction pairs generalizing rows with
  | nil => rfl
  | cons pair pairs ih =>
      rw [List.map_cons, List.mem_cons, not_or] at other
      refine (ih other.2 _).trans ?_
      rw [cell_modify, if_neg (fun both => other.1 both.1.symm)]

theorem cell_writeBack {key : RowKey} {pairs : List (Nat × Value)} (nodup : (pairs.map Prod.fst).Nodup) {i : Nat} {v : Value}
    (mem : (i, v) ∈ pairs) {rows : List Row} (below : i < rows.length) : cell (writeBack key pairs rows) i key = some v := by
  induction pairs generalizing rows with
  | nil => cases mem
  | cons pair pairs ih =>
      rw [List.map_cons, List.nodup_cons] at nodup
      rcases List.mem_cons.mp mem with rfl | mem
      · refine (cell_writeBack_other nodup.1 _ _).trans ?_
        rw [cell_modify, if_pos ⟨rfl, below, rfl⟩]
      · exact ih nodup.2 mem (by rwa [List.length_modify])

/-! ## Window values -/

theorem rankValues_length (prev : Option Value) (rank rowNum : Nat) (keys : List Value) :
    (rankValues prev rank rowNum keys).length = keys.length := by
  induction keys generalizing prev rank rowNum with
  | nil => rfl
  | cons key keys ih =>
      rw [rankValues]
      split
      · exact congrArg (· + 1) (ih _ _ _)
      · exact congrArg (· + 1) (ih _ _ _)

theorem AggImpl.running_length (impl : AggImpl) (acc : impl.State) (rowCount : Nat) (vs : List Value) :
    (impl.running acc rowCount vs).length = vs.length := by
  induction vs generalizing acc rowCount with
  | nil => rfl
  | cons v vs ih => exact congrArg (· + 1) (ih _ _)

theorem windowValues_length {registry : String → Option AggImpl} {ws : WindowSpec} {rows : List Row}
    {keyed : List (Value × Nat)} {values : List Value} (run : windowValues registry ws rows keyed = .ok values) :
    values.length = keyed.length := by
  rw [windowValues] at run
  split at run
  · rw [rowNumbers] at run
    split at run
    · cases run
      rw [List.length_map, List.length_range]
    · cases run
  · cases run
    rw [rankValues_length, List.length_map]
  · split at run
    · cases run
    · cases run
      rw [AggImpl.running_length, List.length_map]

/-! ## One partition -/

section

variable (sortBy : SortBy (Value × Nat)) (registry : String → Option AggImpl)

/-- The column of a window on a partition: the values the sorted rows got. -/
def PartitionRan (n : Nat) (ws : WindowSpec) (rows : List Row) (part : List Nat) (out : List Row) : Prop :=
  ∃ keyed values, sortBy.sort (compareRows ws.order) (keyedRows ws rows part) = some keyed ∧
    windowValues registry ws rows keyed = .ok values ∧
    ∀ (p i : Nat), (keyed.map Prod.snd)[p]? = some i → cell out i (.win n) = values[p]?

variable {sortBy registry} {n : Nat} {ws : WindowSpec} {rows : List Row}

theorem keyedRows_perm {part : List Nat} {keyed : List (Value × Nat)}
    (sorted : sortBy.sort (compareRows ws.order) (keyedRows ws rows part) = some keyed) :
    (keyed.map Prod.snd).Perm part := by
  have perm := (sortBy.perm sorted).map Prod.snd
  have own : (keyedRows ws rows part).map Prod.snd = part := by
    rw [keyedRows, List.map_map]
    exact List.map_id part
  rwa [own] at perm

theorem windowPartition_ok {part : List Nat} (nodup : part.Nodup) (within : ∀ i ∈ part, i < rows.length) {out : List Row}
    (run : windowPartition sortBy registry n ws rows part = .ok out) :
    SameBut n rows out ∧ PartitionRan sortBy registry n ws rows part out ∧
      ∀ i, i ∉ part → ∀ key, cell out i key = cell rows i key := by
  rw [windowPartition] at run
  split at run
  · cases run
  · next keyed sorted =>
      cases values : windowValues registry ws rows keyed with
      | error e =>
          rw [values] at run
          cases run
      | ok vs =>
          rw [values] at run
          cases run
          have perm := keyedRows_perm sorted
          have lengths : (keyed.map Prod.snd).length ≤ vs.length := by
            rw [List.length_map, windowValues_length values]
          have firsts : ((keyed.map Prod.snd).zip vs).map Prod.fst = keyed.map Prod.snd := List.map_fst_zip lengths
          refine ⟨writeBack_same n _ rows, ⟨keyed, vs, sorted, values, ?_⟩, ?_⟩
          · intro p i at_
            have own := (List.getElem?_eq_some_iff.mp at_).1
            have reached : vs[p]? = some vs[p] := List.getElem?_eq_getElem (by omega)
            have pair : (i, vs[p]) ∈ (keyed.map Prod.snd).zip vs := by
              apply List.mem_iff_getElem?.mpr
              exact ⟨p, List.getElem?_zip_eq_some.mpr ⟨at_, reached⟩⟩
            have below := within i (perm.mem_iff.mp (List.mem_of_getElem? at_))
            rw [reached]
            apply cell_writeBack _ pair below
            rw [firsts]
            exact perm.nodup_iff.mpr nodup
          · intro i other key
            apply cell_writeBack_other
            rw [firsts, perm.mem_iff]
            exact other

theorem exists_windowPartition {part : List Nat} {keyed : List (Value × Nat)} {values : List Value}
    (sorted : sortBy.sort (compareRows ws.order) (keyedRows ws rows part) = some keyed)
    (run : windowValues registry ws rows keyed = .ok values) :
    ∃ out, windowPartition sortBy registry n ws rows part = .ok out := by
  refine ⟨writeBack (.win n) ((keyed.map Prod.snd).zip values) rows, ?_⟩
  rw [windowPartition, sorted]
  simp only [run]
  rfl

/-! ## All partitions -/

theorem windowPartitions_ok {parts : List (List Nat)} (nodup : parts.flatten.Nodup)
    (within : ∀ i ∈ parts.flatten, i < rows.length) {out : List Row}
    (run : windowPartitions sortBy registry n ws parts rows = .ok out) :
    SameBut n rows out ∧ (∀ part ∈ parts, PartitionRan sortBy registry n ws rows part out) ∧
      ∀ i, i ∉ parts.flatten → ∀ key, cell out i key = cell rows i key := by
  induction parts generalizing rows with
  | nil =>
      cases run
      exact ⟨SameBut.refl n _, nofun, fun _ _ _ => rfl⟩
  | cons part parts ih =>
      rw [List.flatten_cons, List.nodup_append] at nodup
      obtain ⟨own, rest, apart⟩ := nodup
      rw [windowPartitions] at run
      cases first : windowPartition sortBy registry n ws rows part with
      | error e =>
          rw [first] at run
          cases run
      | ok mid =>
          rw [first] at run
          have ⟨same, ⟨keyed, values, sorted, vals, column⟩, frame⟩ := windowPartition_ok own
            (fun i mem => within i (List.mem_append_left _ mem)) first
          have ⟨same', ran, frame'⟩ := ih rest
            (fun i mem => by rw [same.length]; exact within i (List.mem_append_right _ mem)) run
          refine ⟨same.trans same', ?_, ?_⟩
          · intro part' mem
            rcases List.mem_cons.mp mem with rfl | mem
            · refine ⟨keyed, values, sorted, vals, ?_⟩
              intro p i at_
              rw [← column p i at_]
              apply frame'
              intro later
              have here := (keyedRows_perm sorted).mem_iff.mp (List.mem_of_getElem? at_)
              exact apart i here i later rfl
            · obtain ⟨keyed', values', sorted', vals', column'⟩ := ran part' mem
              rw [same.inputs.keyedRows_eq] at sorted'
              rw [same.inputs.windowValues_eq] at vals'
              exact ⟨keyed', values', sorted', vals', column'⟩
          · intro i other key
            rw [List.flatten_cons, List.mem_append, not_or] at other
            rw [frame' i other.2, frame i other.1]

theorem exists_windowPartitions {parts : List (List Nat)} (nodup : parts.flatten.Nodup)
    (within : ∀ i ∈ parts.flatten, i < rows.length)
    (each : ∀ part ∈ parts, ∃ keyed values, sortBy.sort (compareRows ws.order) (keyedRows ws rows part) = some keyed ∧
      windowValues registry ws rows keyed = .ok values) :
    ∃ out, windowPartitions sortBy registry n ws parts rows = .ok out := by
  induction parts generalizing rows with
  | nil => exact ⟨rows, rfl⟩
  | cons part parts ih =>
      rw [List.flatten_cons, List.nodup_append] at nodup
      obtain ⟨own, rest, _⟩ := nodup
      obtain ⟨keyed, values, sorted, vals⟩ := each part List.mem_cons_self
      obtain ⟨mid, first⟩ := exists_windowPartition (n := n) sorted vals
      have ⟨same, _, _⟩ := windowPartition_ok own (fun i mem => within i (List.mem_append_left _ mem)) first
      have later : ∃ out, windowPartitions sortBy registry n ws parts mid = .ok out := by
        apply ih rest
        · intro i mem
          rw [same.length]
          exact within i (List.mem_append_right _ mem)
        · intro part' mem
          obtain ⟨keyed', values', sorted', vals'⟩ := each part' (List.mem_cons_of_mem _ mem)
          refine ⟨keyed', values', ?_, ?_⟩
          · rw [same.inputs.keyedRows_eq]
            exact sorted'
          · rw [same.inputs.windowValues_eq]
            exact vals'
      obtain ⟨out, run⟩ := later
      refine ⟨out, ?_⟩
      rw [windowPartitions, first]
      exact run

end

end Minigraf
