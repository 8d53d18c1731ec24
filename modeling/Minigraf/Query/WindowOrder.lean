import Minigraf.Query.WindowColumns
import Minigraf.Query.WindowRanks

/-!
What window functions mean, and when `apply_window_functions` gives them that meaning.

The rows of a partition stand in an order that follows the comparison of their order values:
row numbers count along it, running aggregates take the rows up to each, and a rank counts
the rows strictly before. A sort gives such an order where the comparison is a preorder on
the values of the partition. Ranks take `==` for a tie, so there all ties have to be `==`.
-/

namespace Minigraf

/-! ## The meaning -/

/-- The aggregate of the values of some rows. -/
def AggImpl.of (impl : AggImpl) (vs : List Value) : Value := impl.finalise (vs.foldl impl.step impl.init) vs.length

def WindowValueAt (registry : String → Option AggImpl) (ws : WindowSpec) (rows : List Row) (part order : List Nat)
    (column : Nat → Option Value) : Prop :=
  match ws.func with
  | .rowNumber => ∀ (p i : Nat), order[p]? = some i → column i = some (.integer (.ofNat (p + 1)))
  | .rank => ∀ i ∈ part, column i = some (.integer (.ofNat (1 + part.countP fun j =>
      decide (compareKeys ws.order (orderKey ws rows j) (orderKey ws rows i) = .lt))))
  | _ => ∃ impl, registry ws.funcName = some impl ∧ ∀ (p i : Nat), order[p]? = some i →
      column i = some (impl.of ((order.take (p + 1)).map (windowInput ws rows)))

/-- The column of a window on one partition. -/
def WindowCorrect (registry : String → Option AggImpl) (ws : WindowSpec) (rows : List Row) (part : List Nat)
    (column : Nat → Option Value) : Prop :=
  ∃ order : List Nat, order.Perm part ∧
    (order.Pairwise fun i j => compareKeys ws.order (orderKey ws rows i) (orderKey ws rows j) ≠ .gt) ∧
    WindowValueAt registry ws rows part order column

/-- All rows are there, with what they held and a right value for each window. -/
structure WindowsCorrect (registry : String → Option AggImpl) (findSpecs : List FindSpec) (rows out : List Row) : Prop where
  length : out.length = rows.length
  kept : ∀ i key, (∀ n, key ≠ .win n) → cell out i key = cell rows i key
  windows : ∀ (n : Nat) (ws : WindowSpec), findSpecs[n]? = some (.window ws) → ∀ i < rows.length,
    WindowCorrect registry ws rows (peers ws rows i) fun j => cell out j (.win n)

/-! ## The condition -/

/-- No order value of a partition bridges two others, and for ranks those that compare equal
are `==`. -/
structure Orderable (ws : WindowSpec) (rows : List Row) (part : List Nat) : Prop where
  unbridged : ∀ i ∈ part, ∀ j ∈ part, ∀ k ∈ part, ¬ Bridges (orderKey ws rows i) (orderKey ws rows j) (orderKey ws rows k)
  ties : ws.func = .rank → part.Pairwise fun i j =>
    valueCmp (orderKey ws rows i) (orderKey ws rows j) = .eq → (orderKey ws rows i).eq (orderKey ws rows j) = true

/-- The accumulator a window names is registered. -/
def WindowSpec.Registered (registry : String → Option AggImpl) (ws : WindowSpec) : Prop :=
  ws.func = .rowNumber ∨ ws.func = .rank ∨ ∃ impl, registry ws.funcName = some impl

/-! ## Comparison -/

theorem compareKeys_swap (order : Order) (a b : Value) : compareKeys order a b = (compareKeys order b a).swap := by
  cases order with
  | asc => exact valueCmp_swap a b
  | desc => exact congrArg Ordering.swap (valueCmp_swap a b)

theorem compareKeys_eq_iff (order : Order) (a b : Value) : compareKeys order a b = .eq ↔ valueCmp a b = .eq := by
  cases order with
  | asc => exact Iff.rfl
  | desc =>
      rw [compareKeys]
      cases valueCmp a b <;> simp

theorem compareKeys_desc (a b : Value) : compareKeys .desc a b = valueCmp b a := by
  rw [compareKeys, ← valueCmp_swap]

/-- The comparison is a preorder on values none of which bridges two others. -/
theorem preorderOn_keys_iff (order : Order) (keys : List Value) :
    PreorderOn (compareKeys order) keys ↔ ∀ a ∈ keys, ∀ b ∈ keys, ∀ c ∈ keys, ¬ Bridges a b c := by
  constructor
  · intro pre a ha b hb c hc bridges
    have ⟨left, right, apart⟩ := (bridges_iff a b c).mp bridges
    rw [← compareKeys_eq_iff order] at left right
    exact apart ((compareKeys_eq_iff order a c).mp (pre.trans_eq ha hb hc left right))
  · intro unbridged
    refine ⟨fun a _ b _ => compareKeys_swap order a b, ?_⟩
    intro a ha b hb c hc left right
    cases order with
    | asc => exact Bridges.trans_of_not (unbridged a ha b hb c hc) left right
    | desc =>
        rw [compareKeys_desc] at left right ⊢
        exact Bridges.trans_of_not (unbridged c hc b hb a ha) right left

theorem preorderOn_rows_iff (order : Order) (keyed : List (Value × Nat)) :
    PreorderOn (compareRows order) keyed ↔ PreorderOn (compareKeys order) (keyed.map Prod.fst) := by
  constructor
  · intro pre
    refine ⟨fun a _ b _ => compareKeys_swap order a b, ?_⟩
    intro a ha b hb c hc
    obtain ⟨x, hx, rfl⟩ := List.mem_map.mp ha
    obtain ⟨y, hy, rfl⟩ := List.mem_map.mp hb
    obtain ⟨z, hz, rfl⟩ := List.mem_map.mp hc
    exact pre.trans x hx y hy z hz
  · intro pre
    refine ⟨fun a _ b _ => compareKeys_swap order a.1 b.1, ?_⟩
    intro a ha b hb c hc
    exact pre.trans a.1 (List.mem_map_of_mem ha) b.1 (List.mem_map_of_mem hb) c.1 (List.mem_map_of_mem hc)

theorem keyedRows_keys (ws : WindowSpec) (rows : List Row) (part : List Nat) :
    (keyedRows ws rows part).map Prod.fst = part.map (orderKey ws rows) := by
  rw [keyedRows, List.map_map]
  rfl

theorem preorderOn_part_iff (ws : WindowSpec) (rows : List Row) (part : List Nat) :
    PreorderOn (compareRows ws.order) (keyedRows ws rows part) ↔
      ∀ i ∈ part, ∀ j ∈ part, ∀ k ∈ part, ¬ Bridges (orderKey ws rows i) (orderKey ws rows j) (orderKey ws rows k) := by
  rw [preorderOn_rows_iff, keyedRows_keys, preorderOn_keys_iff]
  simp only [List.forall_mem_map]

/-! ## The run -/

section

variable {sortBy : SortBy (Value × Nat)} {iterate : Iteration (Option Value × List Nat)} {registry : String → Option AggImpl}

/-- The partitions as the map hands them over. -/
def handedOver (iterate : Iteration (Option Value × List Nat)) (ws : WindowSpec) (rows : List Row) : List (List Nat) :=
  (iterate.values (partitions ws rows)).map Prod.snd

theorem handedOver_perm (iterate : Iteration (Option Value × List Nat)) (ws : WindowSpec) (rows : List Row) :
    (handedOver iterate ws rows).flatten.Perm (List.range rows.length) := by
  have shuffled := ((iterate.perm (partitions ws rows)).map Prod.snd).flatten
  have parted := (parted_partitions ws rows).perm
  rw [List.flatMap_def] at parted
  exact shuffled.trans parted

theorem handedOver_peers {ws : WindowSpec} {rows : List Row} {part : List Nat} (own : part ∈ handedOver iterate ws rows)
    {i : Nat} (mem : i ∈ part) : part.Perm (peers ws rows i) :=
  partition_perm_peers (((iterate.perm _).map Prod.snd).mem_iff.mp own) mem

theorem exists_handedOver (iterate : Iteration (Option Value × List Nat)) (ws : WindowSpec) {rows : List Row} {i : Nat}
    (below : i < rows.length) :
    ∃ part ∈ handedOver iterate ws rows, i ∈ part := by
  obtain ⟨part, own, mem⟩ := exists_partition ws below
  exact ⟨part, ((iterate.perm _).map Prod.snd).mem_iff.mpr own, mem⟩

theorem exists_mem_handedOver {ws : WindowSpec} {rows : List Row} {part : List Nat} (own : part ∈ handedOver iterate ws rows) :
    ∃ i, i ∈ part := by
  obtain ⟨entry, mem, rfl⟩ := List.mem_map.mp (((iterate.perm _).map Prod.snd).mem_iff.mp own)
  obtain ⟨i, first, _⟩ := (parted_partitions ws rows).first entry mem
  exact ⟨i, first⟩

/-- Each row stands in a partition that was gone through. -/
def SpecRan (sortBy : SortBy (Value × Nat)) (registry : String → Option AggImpl) (n : Nat) (ws : WindowSpec)
    (rows out : List Row) : Prop :=
  ∀ i < rows.length, ∃ part, part.Perm (peers ws rows i) ∧ PartitionRan sortBy registry n ws rows part out

theorem windowPartitions_ran {n : Nat} {ws : WindowSpec} {rows out : List Row}
    (run : windowPartitions sortBy registry n ws (handedOver iterate ws rows) rows = .ok out) :
    SameBut n rows out ∧ SpecRan sortBy registry n ws rows out := by
  have perm := handedOver_perm iterate ws rows
  have ⟨same, ran, _⟩ := windowPartitions_ok (perm.nodup_iff.mpr List.nodup_range)
    (fun i mem => List.mem_range.mp (perm.mem_iff.mp mem)) run
  refine ⟨same, ?_⟩
  intro i below
  obtain ⟨part, own, mem⟩ := exists_handedOver iterate ws below
  exact ⟨part, handedOver_peers own mem, ran part own⟩

theorem PartitionRan.transport {n : Nat} {ws : WindowSpec} {rows rows' out out' : List Row} {part : List Nat}
    (same : SameInputs rows rows') (kept : ∀ i, cell out' i (.win n) = cell out i (.win n))
    (ran : PartitionRan sortBy registry n ws rows' part out) : PartitionRan sortBy registry n ws rows part out' := by
  obtain ⟨keyed, values, sorted, vals, column⟩ := ran
  rw [same.keyedRows_eq] at sorted
  rw [same.windowValues_eq] at vals
  exact ⟨keyed, values, sorted, vals, fun p i at_ => (kept i).trans (column p i at_)⟩

/-- What a run over a find list leaves and writes. -/
structure SpecsRan (sortBy : SortBy (Value × Nat)) (registry : String → Option AggImpl) (n : Nat) (findSpecs : List FindSpec)
    (rows out : List Row) : Prop where
  length : out.length = rows.length
  kept : ∀ i key, (∀ m, n ≤ m → key ≠ .win m) → cell out i key = cell rows i key
  ran : ∀ (k : Nat) (ws : WindowSpec), findSpecs[k]? = some (.window ws) → SpecRan sortBy registry (n + k) ws rows out

theorem SpecsRan.skip {n : Nat} {spec : FindSpec} {findSpecs : List FindSpec} {rows out : List Row}
    (other : ∀ ws, spec ≠ .window ws) (ran : SpecsRan sortBy registry (n + 1) findSpecs rows out) :
    SpecsRan sortBy registry n (spec :: findSpecs) rows out where
  length := ran.length
  kept i key far := ran.kept i key fun m late => far m (by omega)
  ran := by
    intro k ws at_
    cases k with
    | zero => exact absurd (Option.some.inj at_) (other ws)
    | succ k =>
        have later := ran.ran k ws at_
        rwa [Nat.add_assoc, Nat.add_comm 1] at later

theorem SpecsRan.window {n : Nat} {ws : WindowSpec} {findSpecs : List FindSpec} {rows mid out : List Row}
    (same : SameBut n rows mid) (here : SpecRan sortBy registry n ws rows mid)
    (ran : SpecsRan sortBy registry (n + 1) findSpecs mid out) : SpecsRan sortBy registry n (.window ws :: findSpecs) rows out where
  length := ran.length.trans same.length
  kept := by
    intro i key far
    rw [ran.kept i key fun m late => far m (by omega)]
    exact same.cells i key (far n (Nat.le_refl n))
  ran := by
    have column : ∀ i, cell out i (.win n) = cell mid i (.win n) := by
      intro i
      apply ran.kept i (.win n)
      intro m late equal
      cases equal
      omega
    intro k ws' at_ i below
    cases k with
    | zero =>
        cases Option.some.inj at_
        obtain ⟨part, perm, own⟩ := here i below
        obtain ⟨keyed, values, sorted, vals, written⟩ := own
        exact ⟨part, perm, keyed, values, sorted, vals, fun p j at_ => (column j).trans (written p j at_)⟩
    | succ k =>
        obtain ⟨part, perm, own⟩ := ran.ran k ws' at_ i (by rw [same.length]; exact below)
        rw [same.inputs.peers_eq] at perm
        have place : n + 1 + k = n + (k + 1) := by omega
        rw [place] at own
        exact ⟨part, perm, own.transport same.inputs fun _ => rfl⟩

theorem windowSpecs_ran {findSpecs : List FindSpec} {n : Nat} {rows out : List Row}
    (run : windowSpecs sortBy iterate registry n findSpecs rows = .ok out) :
    SpecsRan sortBy registry n findSpecs rows out := by
  induction findSpecs generalizing n rows with
  | nil =>
      cases run
      exact ⟨rfl, fun _ _ _ => rfl, nofun⟩
  | cons spec findSpecs ih =>
      cases spec with
      | var v => exact (ih run).skip nofun
      | aggregate func v => exact (ih run).skip nofun
      | window ws =>
          rw [windowSpecs] at run
          cases first : windowPartitions sortBy registry n ws (handedOver iterate ws rows) rows with
          | error e =>
              rw [handedOver] at first
              rw [first] at run
              cases run
          | ok mid =>
              have ⟨same, here⟩ := windowPartitions_ran first
              rw [handedOver] at first
              rw [first] at run
              exact SpecsRan.window same here (ih run)

end

end Minigraf
