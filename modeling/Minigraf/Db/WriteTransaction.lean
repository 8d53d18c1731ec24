import Minigraf.Db.Handle
import Minigraf.Graph.Visible

/-!
The explicit write transaction of `src/db.rs`: what it stages, what its own queries read,
and its commit. A staged command carries a transaction count and a time of its own until
the commit gives all of them one count and one time; only counts are compared, so all facts
before and after the commit show the same triples while none is asserted and retracted at
once.
-/

namespace Minigraf

open EStateM

/-- A write command with its values converted; a fact of a `transact` carries its own
valid times, and the command the ones it falls back to. -/
inductive WriteCommand where
  | transact (facts : List ((EntityId × Attribute × Value) × TransactOptions)) (opts : TransactOptions)
  | retract (facts : List (EntityId × Attribute × Value))

/-- `materialize_transaction` and `materialize_retraction`. -/
def WriteCommand.materialize : WriteCommand → List Fact
  | .transact facts opts => facts.map fun ((entity, attr, value), own) =>
      { entity, attr, value
        txId := 0
        txCount := 0
        validFrom := (own.validFrom.or opts.validFrom).getD VALID_FROM_USE_TX_TIME
        validTo := (own.validTo.or opts.validTo).getD VALID_TIME_FOREVER
        asserted := true }
  | .retract facts => facts.map fun (entity, attr, value) =>
      { entity, attr, value
        txId := 0
        txCount := 0
        validFrom := txTime 0
        validTo := VALID_TIME_FOREVER
        asserted := false }

structure WriteTransaction where
  pendingFacts : List Fact
  nextPendingTxCount : UInt64
  nextPendingTxId : TxId

/-- `begin_write` at the time `clock`. -/
def beginWrite (s : FactStorage) (clock : TxId) : WriteTransaction :=
  ⟨[], nextTxCount s.txCounter, clock⟩

/-- A fact under the count and the time it is staged with. -/
def stageFact (txId : TxId) (txCount : UInt64) (f : Fact) : Fact := { f with txId, txCount }

/-- `stage_pending_facts` at the time `clock`. -/
def WriteTransaction.stagePendingFacts (tx : WriteTransaction) (facts : List Fact) (clock : TxId) :
    WriteTransaction :=
  let stagedTxId := max clock tx.nextPendingTxId
  { pendingFacts := tx.pendingFacts ++ facts.map (stageFact stagedTxId tx.nextPendingTxCount)
    nextPendingTxCount := nextTxCount tx.nextPendingTxCount
    nextPendingTxId := nextTxCount stagedTxId }

/-- The commands of a transaction, each executed at its time. -/
def WriteTransaction.stageAll (tx : WriteTransaction) (commands : List (WriteCommand × TxId)) :
    WriteTransaction :=
  commands.foldl (fun tx c => tx.stagePendingFacts c.1.materialize c.2) tx

/-- The marker becomes the staged time. -/
def resolveValidFrom (f : Fact) : Fact :=
  { f with validFrom :=
      if f.asserted = true ∧ f.validFrom = VALID_FROM_USE_TX_TIME then f.txId.toInt64 else f.validFrom }

/-- `merged_query_facts` over the facts `get_all_facts` returns. -/
def WriteTransaction.mergedQueryFacts (tx : WriteTransaction) (committed : List Fact) : List Fact :=
  committed ++ tx.pendingFacts.map resolveValidFrom

/-- `pending_read_now_floor`. -/
def WriteTransaction.pendingReadNowFloor (tx : WriteTransaction) : Option Int64 :=
  (tx.pendingFacts.map fun f => f.txId.toInt64).max?

/-- `read_now` at the time `clock`. -/
def readNow (clock : Int64) (floor : Option Int64) : Int64 := floor.elim clock (max clock)

/-- The time a query of the transaction reads at is past the staged times. -/
theorem WriteTransaction.le_readNow (tx : WriteTransaction) (clock : Int64) :
    ∀ f ∈ tx.pendingFacts, f.txId.toInt64 ≤ readNow clock tx.pendingReadNowFloor := by
  intro f hf
  rw [pendingReadNowFloor]
  cases floor : (tx.pendingFacts.map fun f => f.txId.toInt64).max? with
  | none =>
      rw [List.max?_eq_none_iff, List.map_eq_nil_iff] at floor
      rw [floor] at hf
      cases hf
  | some newest =>
      have below := (List.max?_eq_some_iff.mp floor).2 _ (List.mem_map_of_mem hf)
      exact below.trans (le_max_right clock newest)

/-- `commit_inner` on the fact store at the time `txId`. -/
def WriteTransaction.commitInner (tx : WriteTransaction) (txId : TxId) : FactM Unit :=
  if tx.pendingFacts = [] then pure ()
  else do
    let txCount ← allocateTxCount
    let _ ← loadFacts (tx.pendingFacts.map (stamp txId txCount))
    pure ()

/-! ## What facts show -/

/-- Filtered for a query at this time the facts have the window. -/
def ShowsWindow (facts : List Fact) (now : Int64) (w : WindowKey) : Prop :=
  ∃ visible, filterFactsForQuery facts none none now = some visible ∧ ∃ f ∈ visible, f.windowKey = w

/-- Filtered for a query at this time the facts have the triple. -/
def ShowsTriple (facts : List Fact) (now : Int64) (k : EavKey) : Prop :=
  ∃ visible, filterFactsForQuery facts none none now = some visible ∧ ∃ f ∈ visible, f.eavKey = k

/-- Some assertion of the window is newer than every retraction of its triple. -/
def Stands (facts : List Fact) (w : WindowKey) : Prop :=
  ∃ f ∈ facts, f.asserted = true ∧ f.windowKey = w ∧ Unretracted facts f

/-- The time lies in the window. -/
def WindowKey.Covers (w : WindowKey) (now : Int64) : Prop := w.2.2.2.1 ≤ now ∧ now < w.2.2.2.2

theorem showsWindow_iff {facts : List Fact} {now : Int64} {w : WindowKey} :
    ShowsWindow facts now w ↔ Stands facts w ∧ w.Covers now := by
  simp only [ShowsWindow, filterFactsForQuery, Option.some.injEq, exists_eq_left', List.mem_filter,
    decide_eq_true_eq, Stands, ← exists_netAsserted_window]
  constructor
  · rintro ⟨f, ⟨hf, covers⟩, rfl⟩
    exact ⟨⟨f, hf, rfl⟩, covers⟩
  · rintro ⟨⟨f, hf, rfl⟩, covers⟩
    exact ⟨f, ⟨hf, covers⟩, rfl⟩

theorem showsTriple_iff {facts : List Fact} {now : Int64} {k : EavKey} :
    ShowsTriple facts now k ↔ ∃ start stop, ShowsWindow facts now (k.1, k.2.1, k.2.2, start, stop) := by
  constructor
  · rintro ⟨visible, run, f, hf, rfl⟩
    exact ⟨f.validFrom, f.validTo, visible, run, f, hf, rfl⟩
  · rintro ⟨start, stop, visible, run, f, hf, key⟩
    refine ⟨visible, run, f, hf, ?_⟩
    simp only [Fact.windowKey, Prod.mk.injEq] at key
    simp only [Fact.eavKey, key.1, key.2.1, key.2.2.1]

/-- Whether a window stands depends on the facts of its triple only, and on these only through
their keys. -/
theorem stands_congr {facts facts' : List Fact} {w : WindowKey}
    (same : ∀ f ∈ facts, f.eavKey = (w.1, w.2.1, w.2.2.1) → ∃ g ∈ facts', pendingKey g = pendingKey f)
    (same' : ∀ f ∈ facts', f.eavKey = (w.1, w.2.1, w.2.2.1) → ∃ g ∈ facts, pendingKey g = pendingKey f)
    (h : Stands facts w) : Stands facts' w := by
  obtain ⟨f, hf, asserted, rfl, pos, newer⟩ := h
  obtain ⟨g, hg, key⟩ := same f hf rfl
  have triple := eavKey_of_pendingKey key
  simp only [pendingKey, PendingKey.mk.injEq] at key
  obtain ⟨entity, attr, value, start, stop, count, sign⟩ := key
  refine ⟨g, hg, sign.trans asserted, ?_, count ▸ pos, fun r hr retraction own => ?_⟩
  · simp only [Fact.windowKey, entity, attr, value, start, stop]
  · obtain ⟨r', hr', key'⟩ := same' r hr (own.trans triple)
    have triple' := eavKey_of_pendingKey key'
    simp only [pendingKey, PendingKey.mk.injEq] at key'
    obtain ⟨-, -, -, -, -, count', sign'⟩ := key'
    rw [← count', count]
    exact newer r' hr' (sign'.trans retraction) (triple'.trans (own.trans triple))

/-! ## Facts laid over the committed ones -/

section Overlay

/-- A way to stamp staged facts that leaves their triples alone and makes them newer than
what is committed, as far as a count of `n` is. -/
structure Restamps (committed staged : List Fact) (n : UInt64) (restamp : Fact → Fact) : Prop where
  pos : 0 < n
  newest : ∀ f ∈ committed, f.txCount ≤ n
  asserted : ∀ f, (restamp f).asserted = f.asserted
  triple : ∀ f, (restamp f).eavKey = f.eavKey
  above : ∀ f ∈ staged, n ≤ (restamp f).txCount
  alike : ∀ f ∈ staged, ∀ g ∈ committed, g.txCount < (restamp f).txCount → g.txCount < n

variable {committed staged : List Fact} {n : UInt64} {restamp : Fact → Fact}

/-- No triple is both asserted and retracted. -/
def Apart (staged : List Fact) : Prop :=
  ∀ f ∈ staged, ∀ r ∈ staged, f.asserted = true → r.asserted = false → f.eavKey ≠ r.eavKey

/-- No committed retraction of the triple is as new as the count. -/
def Clear (committed : List Fact) (n : UInt64) (k : EavKey) : Prop :=
  ∀ r ∈ committed, r.asserted = false → r.eavKey = k → r.txCount < n

/-- What stands of an overlay: committed windows that nothing staged retracts, and the
windows of staged assertions. -/
theorem Restamps.stands_iff (h : Restamps committed staged n restamp) (apart : Apart staged)
    {w : WindowKey} :
    Stands (committed ++ staged.map restamp) w ↔
      (∃ f ∈ committed, f.asserted = true ∧ f.windowKey = w ∧ Unretracted committed f ∧
        ∀ r ∈ staged, r.asserted = false → r.eavKey ≠ f.eavKey) ∨
      ∃ f ∈ staged, f.asserted = true ∧ (restamp f).windowKey = w ∧ Clear committed n f.eavKey := by
  constructor
  · rintro ⟨f, hf, asserted, rfl, pos, newer⟩
    obtain hf | hf := List.mem_append.mp hf
    · refine .inl ⟨f, hf, asserted, rfl, ⟨pos, fun r hr => newer r (List.mem_append_left _ hr)⟩, ?_⟩
      intro r hr retraction same
      have less := newer (restamp r) (List.mem_append_right _ (List.mem_map_of_mem hr))
        ((h.asserted r).trans retraction) ((h.triple r).trans same)
      exact absurd ((h.newest f hf).trans (h.above r hr)) (not_le.mpr less)
    · obtain ⟨g, hg, rfl⟩ := List.mem_map.mp hf
      refine .inr ⟨g, hg, (h.asserted g).symm.trans asserted, rfl, fun r hr retraction same => ?_⟩
      exact h.alike g hg r hr (newer r (List.mem_append_left _ hr) retraction
        (same.trans (h.triple g).symm))
  · rintro (⟨f, hf, asserted, rfl, ⟨pos, newer⟩, kept⟩ | ⟨f, hf, asserted, rfl, clear⟩)
    · refine ⟨f, List.mem_append_left _ hf, asserted, rfl, pos, fun r hr retraction same => ?_⟩
      obtain hr | hr := List.mem_append.mp hr
      · exact newer r hr retraction same
      · obtain ⟨g, hg, rfl⟩ := List.mem_map.mp hr
        exact absurd ((h.triple g).symm.trans same) (kept g hg ((h.asserted g).symm.trans retraction))
    · refine ⟨restamp f, List.mem_append_right _ (List.mem_map_of_mem hf),
        (h.asserted f).trans asserted, rfl, h.pos.trans_le (h.above f hf), fun r hr retraction same => ?_⟩
      rw [h.triple f] at same
      obtain hr | hr := List.mem_append.mp hr
      · exact (clear r hr retraction same).trans_le (h.above f hf)
      · obtain ⟨g, hg, rfl⟩ := List.mem_map.mp hr
        rw [h.triple g] at same
        rw [h.asserted g] at retraction
        exact absurd same.symm (apart f hf g hg asserted retraction)

end Overlay

/-! ## Staged counts -/

theorem le_nextTxCount (c : UInt64) : c ≤ nextTxCount c := by
  rw [nextTxCount]
  split
  · rename_i room
    rw [UInt64.le_iff_toNat_le, UInt64.toNat_add]
    simp only [UInt64.toNat_one]
    omega
  · exact le_rfl

theorem nextTxCount_pos (c : UInt64) : 0 < nextTxCount c := by
  rw [nextTxCount, UInt64.lt_iff_toNat_lt]
  split
  · rename_i room
    rw [UInt64.toNat_add]
    simp only [UInt64.toNat_one, UInt64.toNat_zero]
    omega
  · simp only [UInt64.toNat_zero]
    omega

/-- Past the next count only a full counter has anything, and it has no more than itself. -/
theorem lt_nextTxCount {c m g : UInt64} (known : g ≤ c) (less : g < m) : g < nextTxCount c := by
  rw [UInt64.lt_iff_toNat_lt] at less ⊢
  rw [UInt64.le_iff_toNat_le] at known
  rw [nextTxCount]
  split
  · rename_i room
    rw [UInt64.toNat_add]
    simp only [UInt64.toNat_one]
    omega
  · have := m.toNat_lt
    omega

theorem stageAll_above {tx : WriteTransaction} {n : UInt64} (commands : List (WriteCommand × TxId))
    (next : n ≤ tx.nextPendingTxCount) (above : ∀ f ∈ tx.pendingFacts, n ≤ f.txCount) :
    ∀ f ∈ (tx.stageAll commands).pendingFacts, n ≤ f.txCount := by
  induction commands generalizing tx with
  | nil => exact above
  | cons c commands ih =>
      refine ih (next.trans (le_nextTxCount _)) fun f hf => ?_
      obtain hf | hf := List.mem_append.mp hf
      · exact above f hf
      · obtain ⟨g, _, rfl⟩ := List.mem_map.mp hf
        exact next

/-! ## Reading before and after the commit -/

/-- The facts of an open database, whatever keeps them: none is newer than the counter. -/
structure Snapshot where
  /-- The facts the committed reader returns. -/
  committed : List Fact
  storage : FactStorage
  ok : storage.Ok
  counted : ∀ f ∈ committed ++ storage.facts, f.txCount ≤ storage.txCounter

/-- `get_all_facts`. -/
def Snapshot.allFacts (s : Snapshot) : List Fact := s.committed ++ s.storage.facts

/-- The window was given in the transaction, or none of its markers stands for it. -/
def WriteTransaction.Given (tx : WriteTransaction) (txId : TxId) (w : WindowKey) : Prop :=
  (∃ f ∈ tx.pendingFacts, f.asserted = true ∧ f.validFrom ≠ VALID_FROM_USE_TX_TIME ∧ f.windowKey = w) ∨
    ∀ f ∈ tx.pendingFacts, f.asserted = true → f.validFrom = VALID_FROM_USE_TX_TIME →
      (resolveValidFrom f).windowKey ≠ w ∧ ∀ c, (stamp txId c f).windowKey ≠ w

theorem eavKey_resolveValidFrom (f : Fact) : (resolveValidFrom f).eavKey = f.eavKey := rfl

theorem eavKey_stamp (txId : TxId) (c : UInt64) (f : Fact) : (stamp txId c f).eavKey = f.eavKey := rfl

theorem windowKey_resolveValidFrom {f : Fact} (given : f.validFrom ≠ VALID_FROM_USE_TX_TIME) :
    (resolveValidFrom f).windowKey = f.windowKey := by
  simp only [resolveValidFrom, Fact.windowKey, given, and_false, if_false]

theorem windowKey_stamp {f : Fact} (given : f.validFrom ≠ VALID_FROM_USE_TX_TIME) (txId : TxId) (c : UInt64) :
    (stamp txId c f).windowKey = f.windowKey := by
  simp only [stamp, Fact.windowKey, given, and_false, if_false]

section Commit

variable {s : Snapshot} {begun txId : TxId} {commands : List (WriteCommand × TxId)}

/-- The staged counts, and the one the commit takes, are past all committed ones. -/
theorem Snapshot.restamps (s : Snapshot) (begun : TxId) (commands : List (WriteCommand × TxId))
    {restamp : Fact → Fact} (asserted : ∀ f, (restamp f).asserted = f.asserted)
    (triple : ∀ f, (restamp f).eavKey = f.eavKey)
    (above : ∀ f ∈ ((beginWrite s.storage begun).stageAll commands).pendingFacts,
      nextTxCount s.storage.txCounter ≤ (restamp f).txCount) :
    Restamps s.allFacts ((beginWrite s.storage begun).stageAll commands).pendingFacts
      (nextTxCount s.storage.txCounter) restamp where
  pos := nextTxCount_pos _
  newest := fun f hf => (s.counted f hf).trans (le_nextTxCount _)
  asserted := asserted
  triple := triple
  above := above
  alike := fun _ _ g hg less => lt_nextTxCount (s.counted g hg) less

theorem Snapshot.restamps_resolve (s : Snapshot) (begun : TxId) (commands : List (WriteCommand × TxId)) :
    Restamps s.allFacts ((beginWrite s.storage begun).stageAll commands).pendingFacts
      (nextTxCount s.storage.txCounter) resolveValidFrom :=
  s.restamps begun commands (fun _ => rfl) (fun _ => rfl)
    (stageAll_above commands le_rfl fun _ no => nomatch no)

theorem Snapshot.restamps_stamp (s : Snapshot) (begun : TxId) (commands : List (WriteCommand × TxId))
    (txId : TxId) :
    Restamps s.allFacts ((beginWrite s.storage begun).stageAll commands).pendingFacts
      (nextTxCount s.storage.txCounter) (stamp txId (nextTxCount s.storage.txCounter)) :=
  s.restamps begun commands (fun _ => rfl) (fun _ => rfl) fun _ _ => le_rfl

/-- What a commit adds to the pending facts. -/
structure Committed (s : FactStorage) (new : List Fact) (t : FactStorage) : Prop where
  facts : t.facts = s.facts ++ freshFacts s.pendingKeys new
  committed : t.committed = s.committed
  reader : t.committedIndexReader = s.committedIndexReader
  ok : s.Ok → t.Ok

theorem WriteTransaction.commitInner_ok {tx : WriteTransaction} {s t : FactStorage}
    (done : tx.commitInner txId s = .ok () t) :
    Committed s (tx.pendingFacts.map (stamp txId (nextTxCount s.txCounter))) t := by
  rw [commitInner] at done
  split at done
  · rename_i empty
    cases done
    rw [empty]
    exact ⟨(List.append_nil _).symm, rfl, rfl, id⟩
  · have loaded : Wp (do
          let txCount ← allocateTxCount
          let _ ← loadFacts (tx.pendingFacts.map (stamp txId txCount))
          pure ()) s
        (fun _ t => Committed s (tx.pendingFacts.map (stamp txId (nextTxCount s.txCounter))) t)
        (fun _ _ => True) := by
      simp only [allocateTxCount, wp_bind, wp_get, wp_set, wp_pure]
      refine (wp_loadFacts _ _).mono (fun _ t appended => ?_) fun _ _ _ => trivial
      exact ⟨appended.facts, appended.committed, appended.reader, fun ok => appended.ok ⟨ok.keys, ok.indexes⟩⟩
    exact loaded.of_ok done

/-- What a commit leaves, up to facts that were there already. -/
theorem Snapshot.commit_keys {tx : WriteTransaction} {t : FactStorage}
    (done : tx.commitInner txId s.storage = .ok () t) (k : PendingKey) :
    (∃ f ∈ s.committed ++ t.facts, pendingKey f = k) ↔
      ∃ f ∈ s.allFacts ++ tx.pendingFacts.map (stamp txId (nextTxCount s.storage.txCounter)),
        pendingKey f = k := by
  rw [(WriteTransaction.commitInner_ok done).facts, Snapshot.allFacts]
  generalize tx.pendingFacts.map (stamp txId (nextTxCount s.storage.txCounter)) = new
  simp only [List.mem_append]
  constructor
  · rintro ⟨f, hf | hf | hf, rfl⟩
    · exact ⟨f, .inl (.inl hf), rfl⟩
    · exact ⟨f, .inl (.inr hf), rfl⟩
    · exact ⟨f, .inr (mem_freshFacts hf).1, rfl⟩
  · rintro ⟨f, (hf | hf) | hf, rfl⟩
    · exact ⟨f, .inl hf, rfl⟩
    · exact ⟨f, .inr (.inl hf), rfl⟩
    · by_cases old : pendingKey f ∈ s.storage.pendingKeys
      · obtain ⟨g, hg, same⟩ := (s.ok.keys _).mp old
        exact ⟨g, .inr (.inl hg), same⟩
      · obtain ⟨g, hg, same⟩ := exists_freshFacts hf old
        exact ⟨g, .inr (.inr hg), same⟩

theorem Snapshot.stands_commit {tx : WriteTransaction} {t : FactStorage}
    (done : tx.commitInner txId s.storage = .ok () t) (w : WindowKey) :
    Stands (s.committed ++ t.facts) w ↔
      Stands (s.allFacts ++ tx.pendingFacts.map (stamp txId (nextTxCount s.storage.txCounter))) w :=
  ⟨stands_congr (fun f hf _ => (s.commit_keys done _).mp ⟨f, hf, rfl⟩)
      fun f hf _ => (s.commit_keys done _).mpr ⟨f, hf, rfl⟩,
    stands_congr (fun f hf _ => (s.commit_keys done _).mpr ⟨f, hf, rfl⟩)
      fun f hf _ => (s.commit_keys done _).mp ⟨f, hf, rfl⟩⟩

/-- With both times past, the marker's two readings cover the same later times. -/
theorem covers_iff {f : Fact} {now : Int64} (asserted : f.asserted = true) (staged : f.txId.toInt64 ≤ now)
    (late : txId.toInt64 ≤ now) (c : UInt64) :
    (resolveValidFrom f).windowKey.Covers now ↔ (stamp txId c f).windowKey.Covers now := by
  by_cases given : f.validFrom = VALID_FROM_USE_TX_TIME
  · simp only [WindowKey.Covers, Fact.windowKey, resolveValidFrom, stamp, given, asserted, and_self, if_true,
      staged, late, true_and]
  · rw [windowKey_resolveValidFrom given, windowKey_stamp given]

theorem eavKey_eq_iff {f : Fact} {k : EavKey} :
    f.eavKey = k ↔ ∃ start stop, f.windowKey = (k.1, k.2.1, k.2.2, start, stop) := by
  constructor
  · rintro rfl
    exact ⟨f.validFrom, f.validTo, rfl⟩
  · rintro ⟨start, stop, key⟩
    simp only [Fact.windowKey, Prod.mk.injEq] at key
    simp only [Fact.eavKey, key.1, key.2.1, key.2.2.1]

/-- An overlay shows a triple. -/
theorem Restamps.showsTriple_iff {committed staged : List Fact} {n : UInt64} {restamp : Fact → Fact}
    (h : Restamps committed staged n restamp) (apart : Apart staged) {now : Int64} {k : EavKey} :
    ShowsTriple (committed ++ staged.map restamp) now k ↔
      (∃ f ∈ committed, f.asserted = true ∧ f.eavKey = k ∧ f.windowKey.Covers now ∧
        Unretracted committed f ∧ ∀ r ∈ staged, r.asserted = false → r.eavKey ≠ f.eavKey) ∨
      ∃ f ∈ staged, f.asserted = true ∧ f.eavKey = k ∧ (restamp f).windowKey.Covers now ∧
        Clear committed n f.eavKey := by
  rw [Minigraf.showsTriple_iff]
  simp only [showsWindow_iff, h.stands_iff apart]
  constructor
  · rintro ⟨start, stop, ⟨f, hf, asserted, key, unretracted, kept⟩ | ⟨f, hf, asserted, key, clear⟩, covers⟩
    · exact .inl ⟨f, hf, asserted, eavKey_eq_iff.mpr ⟨_, _, key⟩, key ▸ covers, unretracted, kept⟩
    · exact .inr ⟨f, hf, asserted, (h.triple f).symm.trans (eavKey_eq_iff.mpr ⟨_, _, key⟩), key ▸ covers,
        clear⟩
  · rintro (⟨f, hf, asserted, key, covers, unretracted, kept⟩ | ⟨f, hf, asserted, key, covers, clear⟩)
    · obtain ⟨start, stop, window⟩ := eavKey_eq_iff.mp key
      exact ⟨start, stop, .inl ⟨f, hf, asserted, window, unretracted, kept⟩, window ▸ covers⟩
    · obtain ⟨start, stop, window⟩ := eavKey_eq_iff.mp ((h.triple f).trans key)
      exact ⟨start, stop, .inr ⟨f, hf, asserted, window, clear⟩, window ▸ covers⟩

/-- A staged window that was given is there under any stamping that only reads markers. -/
theorem WriteTransaction.Given.staged {tx : WriteTransaction} {w : WindowKey} (given : tx.Given txId w)
    {committed : List Fact} {n : UInt64} {restamp restamp' : Fact → Fact}
    (triple : ∀ f, (restamp f).eavKey = f.eavKey)
    (fixed : ∀ f, f.validFrom ≠ VALID_FROM_USE_TX_TIME → (restamp f).windowKey = f.windowKey)
    (fixed' : ∀ f, f.validFrom ≠ VALID_FROM_USE_TX_TIME → (restamp' f).windowKey = f.windowKey)
    (reads : ∀ f, (restamp f).windowKey = (resolveValidFrom f).windowKey ∨
      ∃ c, (restamp f).windowKey = (stamp txId c f).windowKey)
    (h : ∃ f ∈ tx.pendingFacts, f.asserted = true ∧ (restamp f).windowKey = w ∧
      Clear committed n f.eavKey) :
    ∃ f ∈ tx.pendingFacts, f.asserted = true ∧ (restamp' f).windowKey = w ∧
      Clear committed n f.eavKey := by
  obtain ⟨f, hf, asserted, rfl, clear⟩ := h
  obtain ⟨g, hg, asserted', explicit, window⟩ | unmarked := given
  · have key : g.eavKey = f.eavKey := (Fact.eavKey_of_windowKey window).trans (triple f)
    exact ⟨g, hg, asserted', (fixed' g explicit).trans window, key ▸ clear⟩
  · by_cases marker : f.validFrom = VALID_FROM_USE_TX_TIME
    · obtain ⟨resolved, stamped⟩ := unmarked f hf asserted marker
      obtain same | ⟨c, same⟩ := reads f
      · exact absurd same.symm resolved
      · exact absurd same.symm (stamped c)
    · exact ⟨f, hf, asserted, (fixed' f marker).trans (fixed f marker).symm, clear⟩

/-- All facts with the staged ones behind them and all facts after the commit, at one time
that is past the staged times and the commit, show the same triples, and the same windows
where these were given. -/
theorem WriteTransaction.shows_commit (s : Snapshot) (begun txId : TxId)
    (commands : List (WriteCommand × TxId)) {t : FactStorage} {now : Int64}
    (apart : Apart ((beginWrite s.storage begun).stageAll commands).pendingFacts)
    (staged : ∀ f ∈ ((beginWrite s.storage begun).stageAll commands).pendingFacts, f.txId.toInt64 ≤ now)
    (late : txId.toInt64 ≤ now)
    (done : ((beginWrite s.storage begun).stageAll commands).commitInner txId s.storage = .ok () t) :
    (∀ k, ShowsTriple (((beginWrite s.storage begun).stageAll commands).mergedQueryFacts s.allFacts) now k ↔
      ShowsTriple (s.committed ++ t.facts) now k) ∧
    ∀ w, ((beginWrite s.storage begun).stageAll commands).Given txId w →
      (ShowsWindow (((beginWrite s.storage begun).stageAll commands).mergedQueryFacts s.allFacts) now w ↔
        ShowsWindow (s.committed ++ t.facts) now w) := by
  have inside := s.restamps_resolve begun commands
  have after := s.restamps_stamp begun commands txId
  have stands := s.stands_commit done
  generalize (beginWrite s.storage begun).stageAll commands = tx at *
  refine ⟨fun k => ?_, fun w given => ?_⟩
  · have same : ShowsTriple (s.committed ++ t.facts) now k ↔ ShowsTriple (s.allFacts ++
        tx.pendingFacts.map (stamp txId (nextTxCount s.storage.txCounter))) now k := by
      simp only [showsTriple_iff, showsWindow_iff, stands]
    rw [same, mergedQueryFacts, inside.showsTriple_iff apart, after.showsTriple_iff apart]
    refine or_congr_right ⟨?_, ?_⟩
    · rintro ⟨f, hf, asserted, key, covers, clear⟩
      exact ⟨f, hf, asserted, key, (covers_iff asserted (staged f hf) late _).mp covers, clear⟩
    · rintro ⟨f, hf, asserted, key, covers, clear⟩
      exact ⟨f, hf, asserted, key, (covers_iff asserted (staged f hf) late _).mpr covers, clear⟩
  · simp only [showsWindow_iff, stands, mergedQueryFacts, inside.stands_iff apart, after.stands_iff apart]
    refine and_congr_left fun _ => or_congr_right ⟨?_, ?_⟩
    · exact given.staged eavKey_resolveValidFrom (fun _ => windowKey_resolveValidFrom)
        (fun _ explicit => windowKey_stamp explicit txId _) (fun _ => .inl rfl)
    · exact given.staged (eavKey_stamp txId _) (fun _ explicit => windowKey_stamp explicit txId _)
        (fun _ => windowKey_resolveValidFrom) (fun _ => .inr ⟨_, rfl⟩)

end Commit
end Minigraf
