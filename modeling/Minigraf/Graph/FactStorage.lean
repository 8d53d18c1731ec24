import Minigraf.Error
import Minigraf.Graph.Visible
import Minigraf.Lib.Results
import Minigraf.Lib.Sorted
import Minigraf.Lib.Wp
import Minigraf.Storage.Index

/-!
The in-memory fact store of `src/graph/storage.rs`: pending facts, the set that finds
duplicates among them, the four pending indexes and the transaction counter. The
readers of committed facts are handles to the open file; here only whether they are
installed and the roots they carry.
-/

namespace Minigraf

open EStateM

/-- `PendingKey`. -/
structure PendingKey where
  entity : EntityId
  attr : Attribute
  valueBytes : List UInt8
  validFrom : Int64
  validTo : Int64
  txCount : UInt64
  asserted : Bool
  deriving DecidableEq, Repr

def pendingKey (f : Fact) : PendingKey :=
  ⟨f.entity, f.attr, encodeValue f.value, f.validFrom, f.validTo, f.txCount, f.asserted⟩

theorem eavKey_of_pendingKey {f g : Fact} (same : pendingKey f = pendingKey g) : f.eavKey = g.eavKey := by
  simp only [pendingKey, PendingKey.mk.injEq] at same
  simp only [Fact.eavKey, same]

/-- `Indexes`, with a `BTreeMap` for each index. -/
structure Indexes where
  eavt : OrdMap EavtKey FactRef
  aevt : OrdMap AevtKey FactRef
  avet : OrdMap AvetKey FactRef
  vaet : OrdMap VaetKey FactRef

def Indexes.new : Indexes := ⟨.empty, .empty, .empty, .empty⟩

def Indexes.insert (idx : Indexes) (f : Fact) (r : FactRef) : Indexes where
  eavt := idx.eavt.insert f.eavtKey r
  aevt := idx.aevt.insert f.aevtKey r
  avet := idx.avet.insert f.avetKey r
  vaet :=
    match f.vaetKey with
    | some key => idx.vaet.insert key r
    | none => idx.vaet

/-- The roots an `OnDiskIndexReader` scans from. -/
structure Roots where
  eavt : Nat
  aevt : Nat
  avet : Nat
  vaet : Nat
  deriving DecidableEq, Repr

/-- `FactStorage`, with the `FactData` behind its lock. -/
structure FactStorage where
  facts : List Fact
  pendingKeys : List PendingKey
  pendingIndexes : Indexes
  committed : Bool
  committedIndexReader : Option Roots
  txCounter : UInt64

namespace FactStorage

def new : FactStorage where
  facts := []
  pendingKeys := []
  pendingIndexes := .new
  committed := false
  committedIndexReader := none
  txCounter := 0

end FactStorage

abbrev FactM := EStateM ErrorCode FactStorage

/-! ## Appending facts -/

def pendingRefs (base count : Nat) : Except ErrorCode (List FactRef) :=
  (List.range count).mapM fun i => if base + i < 2 ^ 32 then .ok ⟨0, base + i⟩ else .error .int045

def FactStorage.insertPending (s : FactStorage) (f : Fact) (r : FactRef) : FactStorage :=
  { s with
    facts := s.facts ++ [f]
    pendingKeys := pendingKey f :: s.pendingKeys
    pendingIndexes := s.pendingIndexes.insert f r }

def appendFacts (facts : List Fact) : FactM Unit := do
  let s ← get
  let refs ← ofResult (pendingRefs s.facts.length facts.length)
  set ((facts.zip refs).foldl (fun s p => s.insertPending p.1 p.2) s)

/-- The facts that are not among the known keys, each once. -/
def freshFacts (known : List PendingKey) : List Fact → List Fact
  | [] => []
  | f :: facts =>
      if pendingKey f ∈ known then freshFacts known facts
      else f :: freshFacts (pendingKey f :: known) facts

def loadFact (f : Fact) : FactM Bool := do
  let s ← get
  if pendingKey f ∈ s.pendingKeys then pure false
  else do
    appendFacts [f]
    pure true

def loadFacts (facts : List Fact) : FactM Nat := do
  let s ← get
  let new := freshFacts s.pendingKeys facts
  appendFacts new
  pure new.length

/-! ## The counter -/

/-- `saturating_add(1)`. -/
def nextTxCount (count : UInt64) : UInt64 :=
  if count.toNat + 1 < 2 ^ 64 then count + 1 else count

/-- `fetch_add(1)`, which wraps, and then `saturating_add(1)` on what it returns. -/
def allocateTxCount : FactM UInt64 := do
  let s ← get
  set { s with txCounter := s.txCounter + 1 }
  pure (nextTxCount s.txCounter)

def maxTxCount (facts : List Fact) : UInt64 := facts.foldl (fun m f => max m f.txCount) 0

def restoreTxCounter : FactM Unit :=
  modify fun s => { s with txCounter := max s.txCounter (maxTxCount s.facts) }

def restoreTxCounterFrom (count : UInt64) : FactM Unit :=
  modify fun s => { s with txCounter := count }

/-! ## Transactions -/

structure TransactOptions where
  validFrom : Option Int64
  validTo : Option Int64

/-- `i64::try_from(tx_id).unwrap_or(i64::MAX)`. -/
def txTime (txId : TxId) : Int64 :=
  if txId.toNat < 2 ^ 63 then txId.toInt64 else Int64.maxValue

/-- `transact` at the time `txId`. -/
def transact (tuples : List (EntityId × Attribute × Value)) (opts : Option TransactOptions)
    (txId : TxId) : FactM TxId := do
  let txCount ← allocateTxCount
  let opts := opts.getD ⟨none, none⟩
  appendFacts (tuples.map fun (entity, attr, value) =>
    { entity, attr, value, txId, txCount
      validFrom := opts.validFrom.getD (txTime txId)
      validTo := opts.validTo.getD VALID_TIME_FOREVER
      asserted := true })
  pure txId

/-- `retract` at the time `txId`. -/
def retract (tuples : List (EntityId × Attribute × Value)) (txId : TxId) :
    FactM (TxId × UInt64) := do
  let txCount ← allocateTxCount
  appendFacts (tuples.map fun (entity, attr, value) =>
    { entity, attr, value, txId, txCount
      validFrom := txTime txId
      validTo := VALID_TIME_FOREVER
      asserted := false })
  pure (txId, txCount)

/-! ## Readers -/

def clear : FactM Unit := set FactStorage.new

def setCommittedReader : FactM Unit := modify fun s => { s with committed := true }

def setCommittedIndexReader (roots : Roots) : FactM Unit :=
  modify fun s => { s with committedIndexReader := some roots }

def publish (roots : Roots) : FactM Unit :=
  modify fun s => { s with
    committed := true
    committedIndexReader := some roots
    facts := []
    pendingKeys := []
    pendingIndexes := .new }

/-! ## The pending data agrees with the facts -/

/-- The references of pending facts. -/
def pendingPlaced (facts : List Fact) : List (Fact × FactRef) :=
  facts.zipIdx.map fun p => (p.1, ⟨0, p.2⟩)

/-- The keys and the indexes are those of the facts. -/
structure FactStorage.Ok (s : FactStorage) : Prop where
  keys : ∀ k, k ∈ s.pendingKeys ↔ ∃ f ∈ s.facts, pendingKey f = k
  indexes : s.pendingIndexes =
    (pendingPlaced s.facts).foldl (fun idx p => idx.insert p.1 p.2) .new

theorem FactStorage.Ok.insertPending {s : FactStorage} (h : s.Ok) (f : Fact) :
    (s.insertPending f ⟨0, s.facts.length⟩).Ok := by
  refine ⟨fun k => ?_, ?_⟩
  · simp only [FactStorage.insertPending, List.mem_cons, List.mem_append, List.not_mem_nil, or_false,
      h.keys k]
    constructor
    · rintro (rfl | ⟨g, hg, rfl⟩)
      · exact ⟨f, .inr rfl, rfl⟩
      · exact ⟨g, .inl hg, rfl⟩
    · rintro ⟨g, hg | rfl, rfl⟩
      · exact .inr ⟨g, hg, rfl⟩
      · exact .inl rfl
  · simp only [FactStorage.insertPending, pendingPlaced, List.zipIdx_append, List.map_append,
      List.foldl_append, h.indexes]
    simp

theorem pendingRefs_fits {base count : Nat} (fits : base + count ≤ 2 ^ 32) :
    pendingRefs base count = .ok ((List.range count).map fun i => ⟨0, base + i⟩) := by
  refine List.mapM_ok fun i hi => ?_
  have := List.mem_range.mp hi
  rw [if_pos (by omega)]

theorem pendingRefs_error {base count : Nat} {e : ErrorCode} (h : pendingRefs base count = .error e) :
    2 ^ 32 < base + count := by
  by_contra fits
  rw [pendingRefs_fits (by omega)] at h
  cases h

theorem pendingRefs_ok {base count : Nat} {refs : List FactRef} (h : pendingRefs base count = .ok refs) :
    refs = (List.range count).map fun i => ⟨0, base + i⟩ := by
  have each := List.forall₂_of_mapM_ok h
  apply List.ext_getElem
  · rw [← each.length_eq, List.length_map]
  · intro i h₁ h₂
    have := each.get (by rw [each.length_eq]; exact h₁) h₁
    simp only [List.get_eq_getElem, List.getElem_range] at this
    split at this
    · rw [List.getElem_map, List.getElem_range]
      exact (Except.ok.inj this).symm
    · cases this

/-- Facts appended to the pending ones, and nothing else changed. -/
structure Appended (s : FactStorage) (new : List Fact) (t : FactStorage) : Prop where
  facts : t.facts = s.facts ++ new
  committed : t.committed = s.committed
  reader : t.committedIndexReader = s.committedIndexReader
  counter : t.txCounter = s.txCounter
  ok : s.Ok → t.Ok

theorem Appended.foldl (facts : List Fact) (s : FactStorage) :
    Appended s facts ((facts.zip ((List.range facts.length).map fun i =>
      FactRef.mk 0 (s.facts.length + i))).foldl (fun s p => s.insertPending p.1 p.2) s) := by
  induction facts generalizing s with
  | nil => exact ⟨by simp, rfl, rfl, rfl, id⟩
  | cons f facts ih =>
      have step := ih (s.insertPending f ⟨0, s.facts.length⟩)
      have next : ((List.range facts.length).map fun i =>
            FactRef.mk 0 ((s.insertPending f ⟨0, s.facts.length⟩).facts.length + i)) =
          ((List.range facts.length).map Nat.succ).map fun i => FactRef.mk 0 (s.facts.length + i) := by
        rw [List.map_map]
        refine List.map_congr_left fun i _ => ?_
        simp only [FactStorage.insertPending, List.length_append, List.length_singleton,
          Function.comp_apply]
        congr 1
        omega
      rw [next] at step
      rw [List.length_cons, List.range_succ_eq_map, List.map_cons, List.zip_cons_cons,
        List.foldl_cons, Nat.add_zero]
      refine ⟨?_, step.committed, step.reader, step.counter, fun h => step.ok (h.insertPending f)⟩
      rw [step.facts, FactStorage.insertPending, List.append_assoc]
      rfl

theorem Appended.refl (s : FactStorage) : Appended s [] s := ⟨(List.append_nil _).symm, rfl, rfl, rfl, id⟩

theorem Appended.trans {s t u : FactStorage} {new more : List Fact} (h : Appended s new t)
    (h' : Appended t more u) : Appended s (new ++ more) u :=
  ⟨by rw [h'.facts, h.facts, List.append_assoc], h'.committed.trans h.committed,
    h'.reader.trans h.reader, h'.counter.trans h.counter, fun ok => h'.ok (h.ok ok)⟩

theorem wp_appendFacts (s : FactStorage) (facts : List Fact) :
    Wp (appendFacts facts) s (fun _ t => Appended s facts t)
      (fun _ t => t = s ∧ 2 ^ 32 < s.facts.length + facts.length) := by
  rw [appendFacts, wp_bind, wp_get, wp_bind]
  apply wp_ofResult
  · intro refs hrefs
    rw [wp_set, pendingRefs_ok hrefs]
    exact .foldl facts s
  · intro e he
    exact ⟨rfl, pendingRefs_error he⟩

/-- Whatever a transaction does, it moves the counter and appends facts, or none. -/
theorem wp_stamped {α : Type} (s : FactStorage) (facts : UInt64 → List Fact) (result : UInt64 → α) :
    Wp (do
        let txCount ← allocateTxCount
        appendFacts (facts txCount)
        pure (result txCount)) s
      (fun _ t => ∃ new, Appended { s with txCounter := s.txCounter + 1 } new t)
      (fun _ t => Appended { s with txCounter := s.txCounter + 1 } [] t) := by
  simp only [allocateTxCount, wp_bind, wp_get, wp_set, wp_pure]
  refine (wp_appendFacts _ _).mono ?_ ?_
  · intro _ t appended
    exact ⟨_, appended⟩
  · rintro _ t ⟨rfl, _⟩
    exact .refl _

theorem wp_transact (s : FactStorage) (tuples : List (EntityId × Attribute × Value))
    (opts : Option TransactOptions) (txId : TxId) :
    Wp (transact tuples opts txId) s
      (fun _ t => ∃ new, Appended { s with txCounter := s.txCounter + 1 } new t)
      (fun _ t => Appended { s with txCounter := s.txCounter + 1 } [] t) := by
  exact wp_stamped s _ _

theorem wp_retract (s : FactStorage) (tuples : List (EntityId × Attribute × Value)) (txId : TxId) :
    Wp (retract tuples txId) s
      (fun _ t => ∃ new, Appended { s with txCounter := s.txCounter + 1 } new t)
      (fun _ t => Appended { s with txCounter := s.txCounter + 1 } [] t) := by
  exact wp_stamped s _ _

/-! ## Facts loaded once -/

theorem freshFacts_congr {known known' : List PendingKey} {facts : List Fact}
    (same : ∀ f ∈ facts, pendingKey f ∈ known ↔ pendingKey f ∈ known') :
    freshFacts known facts = freshFacts known' facts := by
  induction facts generalizing known known' with
  | nil => rfl
  | cons f facts ih =>
      have rest := fun g hg => same g (List.mem_cons_of_mem f hg)
      rw [freshFacts, freshFacts]
      by_cases here : pendingKey f ∈ known
      · rw [if_pos here, if_pos ((same f List.mem_cons_self).mp here)]
        exact ih rest
      · rw [if_neg here, if_neg fun there => here ((same f List.mem_cons_self).mpr there)]
        congr 1
        refine ih fun g hg => ?_
        simp only [List.mem_cons, rest g hg]

theorem mem_freshFacts {known : List PendingKey} {facts : List Fact} {f : Fact}
    (h : f ∈ freshFacts known facts) : f ∈ facts ∧ pendingKey f ∉ known := by
  induction facts generalizing known with
  | nil => cases h
  | cons g facts ih =>
      rw [freshFacts] at h
      split at h
      · exact ⟨List.mem_cons_of_mem g (ih h).1, (ih h).2⟩
      · rename_i new
        obtain rfl | h := List.mem_cons.mp h
        · exact ⟨List.mem_cons_self, new⟩
        · exact ⟨List.mem_cons_of_mem g (ih h).1,
            fun old => (ih h).2 (List.mem_cons_of_mem _ old)⟩

theorem freshFacts_nodup (known : List PendingKey) (facts : List Fact) :
    ((freshFacts known facts).map pendingKey).Nodup := by
  induction facts generalizing known with
  | nil => exact .nil
  | cons f facts ih =>
      rw [freshFacts]
      split
      · exact ih known
      · rw [List.map_cons, List.nodup_cons]
        refine ⟨fun again => ?_, ih _⟩
        obtain ⟨g, hg, same⟩ := List.mem_map.mp again
        exact (mem_freshFacts hg).2 (by rw [same]; exact List.mem_cons_self)

/-- Every fact is kept, or a fact with its key is. -/
theorem exists_freshFacts {known : List PendingKey} {facts : List Fact} {f : Fact} (h : f ∈ facts)
    (new : pendingKey f ∉ known) : ∃ g ∈ freshFacts known facts, pendingKey g = pendingKey f := by
  induction facts generalizing known with
  | nil => cases h
  | cons g facts ih =>
      rw [freshFacts]
      obtain rfl | h := List.mem_cons.mp h
      · rw [if_neg new]
        exact ⟨f, List.mem_cons_self, rfl⟩
      · split
        · exact ih h new
        · by_cases same : pendingKey f = pendingKey g
          · exact ⟨g, List.mem_cons_self, same.symm⟩
          · obtain ⟨k, hk, hkey⟩ := ih h (by
              rw [List.mem_cons, not_or]
              exact ⟨same, new⟩)
            exact ⟨k, List.mem_cons_of_mem g hk, hkey⟩

theorem freshFacts_sublist (known : List PendingKey) (facts : List Fact) :
    (freshFacts known facts).Sublist facts := by
  induction facts generalizing known with
  | nil => exact .slnil
  | cons f facts ih =>
      rw [freshFacts]
      split
      · exact (ih known).cons f
      · exact (ih _).cons_cons f

theorem wp_loadFacts (s : FactStorage) (facts : List Fact) :
    Wp (loadFacts facts) s (fun _ t => Appended s (freshFacts s.pendingKeys facts) t)
      (fun _ t => t = s ∧ 2 ^ 32 < s.facts.length + facts.length) := by
  have few := (freshFacts_sublist s.pendingKeys facts).length_le
  rw [loadFacts, wp_bind, wp_get, wp_bind]
  refine (wp_appendFacts s _).mono (fun _ t appended => ?_) ?_
  · rw [wp_pure]
    exact appended
  · rintro _ t ⟨rfl, many⟩
    exact ⟨rfl, by omega⟩

theorem wp_loadFact (s : FactStorage) (f : Fact) :
    Wp (loadFact f) s (fun _ t => Appended s (freshFacts s.pendingKeys [f]) t)
      (fun _ t => t = s ∧ 2 ^ 32 ≤ s.facts.length) := by
  rw [loadFact, wp_bind, wp_get]
  refine wp_ite (fun known => ?_) fun new => ?_
  · rw [freshFacts, if_pos known]
    exact .refl s
  · rw [freshFacts, if_neg new, wp_bind]
    refine (wp_appendFacts s [f]).mono (fun _ t appended => appended) ?_
    rintro _ t ⟨same, many⟩
    rw [List.length_singleton] at many
    exact ⟨same, by omega⟩

/-! ## The largest transaction count -/

theorem foldl_max_ge (facts : List Fact) (m : UInt64) :
    m ≤ facts.foldl (fun m f => max m f.txCount) m ∧
      ∀ f ∈ facts, f.txCount ≤ facts.foldl (fun m f => max m f.txCount) m := by
  induction facts generalizing m with
  | nil => exact ⟨le_rfl, by simp⟩
  | cons g facts ih =>
      obtain ⟨start, rest⟩ := ih (max m g.txCount)
      refine ⟨(le_max_left m g.txCount).trans start, fun f hf => ?_⟩
      obtain rfl | hf := List.mem_cons.mp hf
      · exact (le_max_right m f.txCount).trans start
      · exact rest f hf

theorem le_maxTxCount {facts : List Fact} {f : Fact} (h : f ∈ facts) :
    f.txCount ≤ maxTxCount facts := (foldl_max_ge facts 0).2 f h

theorem maxTxCount_le {facts : List Fact} {m : UInt64} (h : ∀ f ∈ facts, f.txCount ≤ m) :
    maxTxCount facts ≤ m := by
  have step : ∀ start, start ≤ m → facts.foldl (fun m f => max m f.txCount) start ≤ m := by
    induction facts with
    | nil => exact fun _ hstart => hstart
    | cons g facts ih =>
        intro start hstart
        exact ih (fun f hf => h f (List.mem_cons_of_mem g hf)) _
          (max_le hstart (h g List.mem_cons_self))
  exact step 0 UInt64.zero_le

end Minigraf
