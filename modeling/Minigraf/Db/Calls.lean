import Minigraf.Db.Handle
import Minigraf.Storage.Load

/-!
What the calls on a database handle do, one specification for each: to the log, to the
facts in memory, and to the store behind them.
-/

namespace Minigraf

open EStateM Wal

section Calls

variable {H C : Type} (crc : Crc H C) (walCrc : List UInt8 → UInt32) (postcard : Postcard)

/-- The log of a handle holds the entries. -/
def Db.Logs (db : Db H C) (entries : List WalEntry) : Prop :=
  Holds postcard.fact walCrc entries db.walFile db.wal

/-- Only the log may differ. -/
structure Db.SameStore (db t : Db H C) : Prop where
  store : t.store = db.store
  count : t.walEntryCount = db.walEntryCount
  options : t.options = db.options

variable {walCrc postcard} {db : Db H C} {entries : List WalEntry}

theorem Db.SameStore.refl : db.SameStore db := ⟨rfl, rfl, rfl⟩

/-! ## The WAL file -/

theorem wp_openWal (h : db.Logs walCrc postcard entries) (fault : OpenFault) :
    Wp (openWal walCrc postcard fault) db
      (fun _ t => t.Logs walCrc postcard entries ∧ t.wal.isSome ∧ db.SameStore t)
      (fun _ t => t.Logs walCrc postcard entries ∧ db.SameStore t ∧ fault ≠ .none) := by
  rw [openWal, wp_bind, wp_get]
  cases hwal : db.wal with
  | some writer =>
      refine ⟨h, ?_, .refl⟩
      rw [hwal]
      rfl
  | none =>
      have opened := Holds.openOrCreate postcard.fact walCrc h db.options.synchronous fault
      simp only [wp_bind, wp_set]
      refine wp_ofResult (fun writer ok => ?_) fun e failed => ?_
      · rw [ok] at opened
        exact ⟨opened, rfl, rfl, rfl, rfl⟩
      · rw [failed] at opened
        refine ⟨?_, ⟨rfl, rfl, rfl⟩, ?_⟩
        · rw [Db.Logs]
          exact opened
        · rintro rfl
          obtain ⟨w, ok⟩ := Holds.openOrCreate_ok postcard.fact walCrc h db.options.synchronous
          rw [ok] at failed
          cases failed

/-- Without a fault a refused entry leaves no trace. -/
theorem appendEntry_refused {file file' : List UInt8} {w w' : WalWriter} {txCount : UInt64}
    {facts : List Fact} {e : ErrorCode}
    (h : appendEntry postcard.fact walCrc file w txCount facts .none = (file', w', .error e)) :
    file' = file ∧ w' = w := by
  simp only [appendEntry, writeEntry] at h
  split at h
  · cases h
    exact ⟨rfl, rfl⟩
  · split at h
    · cases h
      exact ⟨rfl, rfl⟩
    · cases h

theorem wp_appendWal (h : db.Logs walCrc postcard entries) (open_ : db.wal.isSome) (txCount : UInt64)
    (facts : Vec Fact) (fault : AppendFault) :
    Wp (appendWal walCrc postcard txCount facts.val fault) db
      (fun _ t => t.Logs walCrc postcard (entries ++ [⟨txCount, facts.val⟩]) ∧ db.SameStore t)
      (fun _ t => db.SameStore t ∧ ∃ kept, (kept = [] ∨ kept = [⟨txCount, facts.val⟩]) ∧
        (fault = .none → kept = []) ∧ t.Logs walCrc postcard (entries ++ kept)) := by
  obtain ⟨writer, hwal⟩ := Option.isSome_iff_exists.mp open_
  rw [Db.Logs, hwal] at h
  obtain ⟨file, hfile⟩ : ∃ file, db.walFile = some file := by
    cases hfile : db.walFile with
    | some file => exact ⟨file, rfl⟩
    | none =>
        rw [hfile] at h
        cases h
  rw [hfile] at h
  rw [appendWal, wp_bind, wp_get, hwal, hfile]
  simp only [Option.getD_some, wp_bind, wp_set]
  rcases happend : appendEntry postcard.fact walCrc file writer txCount facts.val fault with
    ⟨file', writer', result⟩
  obtain ⟨kept, each, acked, holds⟩ := Holds.appendEntry postcard.fact walCrc h txCount facts fault happend
  refine wp_ofResult (fun _ ok => ?_) fun e failed => ?_
  · simp only at ok
    rw [acked (by rw [ok]; rfl)] at holds
    exact ⟨holds, rfl, rfl, rfl⟩
  · simp only at failed
    subst failed
    refine ⟨⟨rfl, rfl, rfl⟩, ?_⟩
    by_cases quiet : fault = .none
    · subst quiet
      obtain ⟨rfl, rfl⟩ := appendEntry_refused happend
      refine ⟨[], .inl rfl, fun _ => rfl, ?_⟩
      rwa [List.append_nil]
    · exact ⟨kept, each, fun no => absurd no quiet, holds⟩

/-- The log after its file was deleted, or was not. -/
theorem wp_deleteWal (h : db.Logs walCrc postcard entries) (fault : DeleteFault) :
    Wp (deleteWal fault) db
      (fun _ t => t.Logs walCrc postcard [] ∧ db.SameStore t)
      (fun _ t => (t.Logs walCrc postcard [] ∨ t.Logs walCrc postcard entries) ∧ db.SameStore t ∧
        fault ≠ .none) := by
  have closed := Holds.crash postcard.fact walCrc h
  simp only [deleteWal, wp_bind, wp_modify, wp_get]
  refine wp_ite (fun _ => ?_) fun none_ => ?_
  · cases fault with
    | none => exact ⟨.absent rfl, rfl, rfl, rfl⟩
    | kept => exact ⟨.inr closed, ⟨rfl, rfl, rfl⟩, by simp⟩
    | unsynced => exact ⟨.inl (.absent rfl), ⟨rfl, rfl, rfl⟩, by simp⟩
  · rw [Option.not_isSome_iff_eq_none] at none_
    refine ⟨?_, rfl, rfl, rfl⟩
    rw [Db.Logs]
    simp only [none_]
    exact .absent rfl

/-! ## Writing -/

/-- The entry a write logs. -/
def Db.entry (db : Db H C) (facts : List Fact) (txId : TxId) : WalEntry :=
  ⟨nextTxCount db.store.storage.txCounter,
    facts.map (stamp txId (nextTxCount db.store.storage.txCounter))⟩

/-- The facts in memory once a transaction was counted. -/
def Db.counted (db : Db H C) : FactStorage :=
  { db.store.storage with txCounter := db.store.storage.txCounter + 1 }

/-- The handle after a write that was logged and taken into memory. -/
structure Written (walCrc : List UInt8 → UInt32) (postcard : Postcard) (db : Db H C)
    (entries : List WalEntry) (entry : WalEntry) (due : Bool) (t : Db H C) : Prop where
  appended : Appended db.counted (freshFacts db.store.storage.pendingKeys entry.facts) t.store.storage
  store : t.store = { db.store with storage := t.store.storage, dirty := true }
  logs : t.Logs walCrc postcard (entries ++ [entry])
  count : t.walEntryCount = min (db.walEntryCount + 1) (2 ^ 64 - 1)
  options : t.options = db.options
  due : due = decide (t.walEntryCount ≥ db.options.walCheckpointThreshold)

/-- The handle after a write that failed: counted, logged perhaps, but not in memory. -/
structure WriteFailed (walCrc : List UInt8 → UInt32) (postcard : Postcard) (db : Db H C)
    (entries : List WalEntry) (entry : WalEntry) (calm : Prop) (t : Db H C) : Prop where
  store : ∃ dirty, t.store = { db.store with storage := db.counted, dirty := dirty }
  logs : ∃ kept, (kept = [] ∨ kept = [entry]) ∧ (calm → kept = []) ∧
    t.Logs walCrc postcard (entries ++ kept)
  count : t.walEntryCount = 0 → db.walEntryCount = 0
  options : t.options = db.options

theorem wp_writeFacts (h : db.Logs walCrc postcard entries) (facts : Vec Fact) (txId : TxId)
    (faults : Faults) :
    Wp (writeFacts walCrc postcard facts.val txId faults) db
      (fun due t => Written walCrc postcard db entries (db.entry facts.val txId) due t)
      (fun _ t => WriteFailed walCrc postcard db entries (db.entry facts.val txId)
        (faults.walAppend = .none ∧ db.store.storage.facts.length + facts.val.length ≤ 2 ^ 32) t) := by
  have vec : (db.entry facts.val txId).facts.length < 2 ^ 64 := by
    rw [Db.entry, List.length_map]
    exact facts.property
  simp only [writeFacts, walWriteStampedBatch, onFactStorage, onStore, onFacts, allocateTxCount,
    wp_bind, wp_zoom, wp_get, wp_set, wp_pure]
  have counted : Db.Logs walCrc postcard { db with store := { db.store with storage := db.counted } }
    entries := h
  refine (wp_openWal counted faults.walOpen).mono ?_ ?_
  · rintro _ t₁ ⟨logs₁, open₁, same₁⟩
    refine (wp_appendWal logs₁ open₁ _ ⟨_, vec⟩ faults.walAppend).mono ?_ ?_
    · rintro _ t₂ ⟨logs₂, same₂⟩
      simp only [markDirty, wp_modify]
      rw [same₂.store, same₁.store]
      refine (wp_loadFacts _ _).mono ?_ ?_
      · intro _ storage appended
        refine ⟨appended, rfl, logs₂, ?_, same₂.options.trans same₁.options, ?_⟩
        · simp only [same₂.count, same₁.count]
        · simp only [same₂.options, same₁.options]
      · rintro _ storage ⟨rfl, many⟩
        refine ⟨⟨true, rfl⟩, ⟨_, .inr rfl, fun calm => ?_, logs₂⟩, ?_, same₂.options.trans same₁.options⟩
        · simp only [Db.counted, List.length_map] at many
          omega
        · simp only [same₂.count, same₁.count]
          omega
    · rintro _ t₂ ⟨same₂, kept, each, calm, logs₂⟩
      exact ⟨⟨db.store.dirty, by rw [same₂.store, same₁.store]⟩,
        ⟨kept, each, fun quiet => calm quiet.1, logs₂⟩,
        by rw [same₂.count, same₁.count]; exact id, same₂.options.trans same₁.options⟩
  · rintro _ t₁ ⟨logs₁, same₁, _⟩
    refine ⟨⟨db.store.dirty, same₁.store⟩, ⟨[], .inl rfl, fun _ => rfl, ?_⟩,
      by rw [same₁.count]; exact id, same₁.options⟩
    rwa [List.append_nil]

/-- A write that meets no fault on a handle without a log succeeds when its facts fit. -/
theorem writeFacts_fresh (file : db.walFile = none)
    (wal : db.wal = none) {facts : List Fact} {txId : TxId}
    (fits : ∀ f ∈ (db.entry facts txId).facts, f.Fits postcard.fact)
    (room : db.store.storage.facts.length + facts.length ≤ 2 ^ 32) :
    ∃ due t, writeFacts walCrc postcard facts txId .never db = .ok due t := by
  obtain ⟨records, hrecords⟩ := exists_records postcard.fact fits
  have logged : Wp (writeFacts walCrc postcard facts txId .never) db (fun _ _ => True)
      (fun _ _ => False) := by
    simp only [writeFacts, walWriteStampedBatch, onFactStorage, onStore, onFacts, allocateTxCount,
      wp_bind, wp_zoom, wp_get, wp_set, wp_pure, openWal, wal, file, openOrCreate, createWal, Faults.never]
    simp only [Db.entry] at hrecords
    simp only [ofResult, wp_modify, appendWal, appendEntry, serializeEntry, hrecords, bind, Except.bind,
      pure, Except.pure, writeEntry, markDirty]
    refine (wp_loadFacts _ _).mono (fun _ _ _ => trivial) ?_
    rintro _ _ ⟨_, many⟩
    rw [List.length_map] at many
    exact absurd many (Nat.not_lt.mpr room)
  obtain ⟨due, t, run, _⟩ := logged.exists_ok
  exact ⟨due, t, run⟩

/-! ## Checkpoints -/

section Checkpoints

variable [DecidableEq C]

/-- How a checkpoint ends: there was nothing to flush, the store was saved, or the save
failed. The log is what it was, or gone. -/
inductive Checkpointed (crc : Crc H C) (walCrc : List UInt8 → UInt32) (postcard : Postcard)
    (db : Db H C) (placed : List (Fact × FactRef)) (entries : List WalEntry) (t : Db H C) : Prop
  | skipped (idle : db.walEntryCount = 0) (clean : db.store.dirty = false) (store : t.store = db.store)
      (count : t.walEntryCount = 0)
      (logs : t.Logs walCrc postcard [] ∨ t.Logs walCrc postcard entries)
  | saved (saved : Saved crc postcard { db.store with dirty := true } placed t.store)
      (logs : t.Logs walCrc postcard [] ∨ t.Logs walCrc postcard entries)
  | failed (failed : SaveFailed crc postcard { db.store with dirty := true } placed t.store)
      (logs : t.Logs walCrc postcard entries) (count : t.walEntryCount = db.walEntryCount)

variable {crc} {placed : List (Fact × FactRef)}

theorem wp_doCheckpoint (clean : db.store.Clean crc postcard placed)
    (fits : IndexFits postcard (db.store.pendingAt postcard)) (h : db.Logs walCrc postcard entries)
    (faults : Faults) :
    Wp (doCheckpoint crc postcard faults) db
      (fun _ t => Checkpointed crc walCrc postcard db placed entries t ∧ t.options = db.options ∧
        t.store.dirty = false)
      (fun _ t => Checkpointed crc walCrc postcard db placed entries t ∧ t.options = db.options ∧
        (faults.walDelete ≠ .none ∨ db.store.dev.faults ≠ none ∨
          SaveLimits postcard db.store placed)) := by
  rw [doCheckpoint, wp_bind, wp_get]
  refine wp_ite (fun idle => ?_) fun _ => ?_
  · rw [skipCheckpoint, wp_bind, wp_get]
    refine wp_ite (fun _ => ?_) fun _ => ?_
    · refine (wp_deleteWal h faults.walDelete).mono ?_ ?_
      · rintro _ t ⟨logs, same⟩
        exact ⟨.skipped idle.1 idle.2 same.store (same.count.trans idle.1) (.inl logs), same.options,
          (congrArg Store.dirty same.store).trans idle.2⟩
      · rintro _ t ⟨logs, same, fault⟩
        exact ⟨.skipped idle.1 idle.2 same.store (same.count.trans idle.1) logs, same.options,
          .inl fault⟩
    · exact ⟨.skipped idle.1 idle.2 rfl idle.1 (.inr h), rfl, idle.2⟩
  · simp only [onStore, markDirty, wp_bind, wp_zoom, wp_modify]
    have marked : Store.Clean crc postcard { db.store with dirty := true } placed :=
      clean.withStorage rfl rfl clean.pending true
    refine (marked.wp_save rfl fits).mono ?_ ?_
    · intro _ store saved
      have logged : Db.Logs walCrc postcard { db with store := store } entries := h
      refine (wp_deleteWal logged faults.walDelete).mono ?_ ?_
      · rintro _ t ⟨logs, same⟩
        refine ⟨.saved ?_ (.inl logs), same.options, ?_⟩
        · rw [same.store]
          exact saved
        · rw [same.store]
          exact saved.dirty
      · rintro _ t ⟨logs, same, fault⟩
        refine ⟨.saved ?_ logs, same.options, .inl fault⟩
        rw [same.store]
        exact saved
    · intro _ store failed
      exact ⟨.failed failed h rfl, trivial, .inr failed.why⟩

end Checkpoints

/-! ## Replay -/

/-- Every fact of an entry carries its count. -/
def Stamped (entry : WalEntry) : Prop := ∀ f ∈ entry.facts, f.txCount = entry.txCount

/-- The facts an entry adds to a store that has none of its count. -/
def newFacts (entry : WalEntry) : List Fact := freshFacts [] entry.facts

theorem freshFacts_stamped {known : List PendingKey} {entry : WalEntry} (stamped : Stamped entry)
    (apart : ∀ k ∈ known, entry.facts ≠ [] → k.txCount ≠ entry.txCount) :
    freshFacts known entry.facts = newFacts entry := by
  refine freshFacts_congr fun f hf => ⟨fun old => ?_, nofun⟩
  exact absurd (stamped f hf) (apart _ old (List.ne_nil_of_mem hf))

theorem mem_newFacts {entry : WalEntry} (stamped : Stamped entry) {f : Fact} (hf : f ∈ newFacts entry) :
    f.txCount = entry.txCount := stamped f (mem_freshFacts hf).1

theorem FactStorage.Ok.apart {s : FactStorage} (ok : s.Ok) {entry : WalEntry}
    (below : ∀ f ∈ s.facts, entry.facts ≠ [] → f.txCount < entry.txCount) :
    ∀ k ∈ s.pendingKeys, entry.facts ≠ [] → k.txCount ≠ entry.txCount := by
  intro k hk some_
  obtain ⟨f, hf, rfl⟩ := (ok.keys k).mp hk
  exact (below f hf some_).ne

/-- Transactions with facts come in the order of their counts. -/
def Ordered (entries : List WalEntry) : Prop :=
  entries.Pairwise fun a b => a.facts ≠ [] → b.facts ≠ [] → a.txCount < b.txCount

/-- The entries a replay above `last` takes. -/
def replayedEntries (last : UInt64) (entries : List WalEntry) : List WalEntry :=
  entries.filter fun entry => last < entry.txCount

theorem wp_replayEntries {s : FactStorage} (ok : s.Ok) {last : UInt64}
    (stamped : ∀ e ∈ entries, Stamped e) (ordered : Ordered entries)
    (below : ∀ f ∈ s.facts, ∀ e ∈ entries, last < e.txCount → e.facts ≠ [] → f.txCount < e.txCount) :
    Wp (replayEntries last entries) s
      (fun n t => Appended s ((replayedEntries last entries).flatMap newFacts) t ∧
        (n = 0 → replayedEntries last entries = []))
      (fun _ _ => 2 ^ 32 < s.facts.length + (entries.flatMap WalEntry.facts).length) := by
  induction entries generalizing s with
  | nil => exact ⟨.refl s, fun _ => rfl⟩
  | cons e entries ih =>
      obtain ⟨first, rest⟩ := List.pairwise_cons.mp ordered
      have stampedRest := fun e' he' => stamped e' (List.mem_cons_of_mem e he')
      simp only [replayEntries, replayedEntries, List.flatMap_cons, List.length_append]
      refine wp_ite (fun old => ?_) fun new => ?_
      · rw [List.filter_cons_of_neg (by simpa using old)]
        refine (ih ok stampedRest rest
          fun f hf e' he' => below f hf e' (List.mem_cons_of_mem e he')).mono (fun _ _ h => h) ?_
        intro _ _ many
        omega
      · have new := not_le.mp new
        rw [List.filter_cons_of_pos (by simpa using new), List.flatMap_cons, wp_bind]
        have fresh := freshFacts_stamped (stamped e List.mem_cons_self)
          (ok.apart fun f hf => below f hf e List.mem_cons_self new)
        refine (wp_loadFacts s e.facts).mono ?_ ?_
        · rw [fresh]
          intro _ t appended
          have few : t.facts.length ≤ s.facts.length + e.facts.length := by
            rw [appended.facts, List.length_append]
            exact Nat.add_le_add_left (freshFacts_sublist [] e.facts).length_le _
          rw [wp_bind]
          refine (ih (appended.ok ok) stampedRest rest ?_).mono ?_ ?_
          · intro f hf e' he' above some_
            rw [appended.facts, List.mem_append] at hf
            obtain hf | hf := hf
            · exact below f hf e' (List.mem_cons_of_mem e he') above some_
            · rw [mem_newFacts (stamped e List.mem_cons_self) hf]
              exact first e' he' (List.ne_nil_of_mem (mem_freshFacts hf).1) some_
          · rintro n u ⟨appended', _⟩
            exact ⟨appended.trans appended', nofun⟩
          · intro _ _ many
            omega
        · rintro _ _ ⟨_, many⟩
          omega

/-- The facts in memory after a replay. -/
structure Replayed (last : UInt64) (entries : List WalEntry) (s t : FactStorage) : Prop where
  facts : t.facts = (replayedEntries last entries).flatMap newFacts
  committed : t.committed = s.committed
  reader : t.committedIndexReader = s.committedIndexReader
  counter : t.txCounter = max s.txCounter (maxTxCount t.facts)
  ok : t.Ok

theorem wp_replayWal (h : db.Logs walCrc postcard entries) (ok : db.store.storage.Ok)
    (empty : db.store.storage.facts = []) (stamped : ∀ e ∈ entries, Stamped e)
    (ordered : Ordered entries) :
    Wp (replayWal walCrc postcard) db
      (fun n t => t = { db with store := { db.store with storage := t.store.storage } } ∧
        Replayed db.store.lastCheckpointedTxCount entries db.store.storage t.store.storage ∧
        (n = 0 → replayedEntries db.store.lastCheckpointedTxCount entries = []))
      (fun _ t => t = { db with store := { db.store with storage := t.store.storage } } ∧
        2 ^ 32 < (entries.flatMap WalEntry.facts).length) := by
  obtain ⟨store, walFile, wal, count, options⟩ := db
  simp only at empty ok
  rw [replayWal, wp_bind, wp_get]
  cases walFile with
  | none =>
      have none_ : entries = [] := by
        cases h
        assumption
      subst none_
      refine ⟨rfl, ⟨empty, rfl, rfl, ?_, ok⟩, fun _ => rfl⟩
      rw [empty]
      exact (max_eq_left UInt64.zero_le).symm
  | some file =>
      simp only [Holds.readEntries postcard.fact walCrc h, ofResult, wp_bind, wp_pure, onFactStorage, onStore, onFacts, wp_zoom, restoreTxCounter, wp_modify]
      refine (wp_replayEntries ok stamped ordered (by simp [empty])).mono ?_ ?_
      · rintro n storage ⟨appended, none_⟩
        refine ⟨trivial, ⟨?_, appended.committed, appended.reader, ?_, ?_⟩, none_⟩
        · simp only [appended.facts, empty, List.nil_append]
        · simp only [appended.counter]
        · exact ⟨(appended.ok ok).keys, (appended.ok ok).indexes⟩
      · intro _ storage many
        rw [empty, List.length_nil, Nat.zero_add] at many
        exact ⟨trivial, many⟩

/-! ## Opening -/

section Opening

variable [DecidableEq C] {crc} {placed : List (Fact × FactRef)} {disk : Option (Disk C)}
  {walFile : Option (List UInt8)}

/-- The disk a file that may not be there yet is opened on. -/
def diskOf (crc : Crc H C) (disk : Option (Disk C)) : Disk C := disk.getD (Dev.create crc 0 none).disk

/-- The store before it is loaded. -/
def unopened (crc : Crc H C) (disk : Option (Disk C)) (options : OpenOptions) (faults : Faults) :
    Store H C :=
  .init (openDev crc disk options.pageCacheSize faults.pages)

theorem wp_openFile (sound : (diskOf crc disk).Sound crc postcard placed)
    (trusted : (diskOf crc disk).Trusted crc postcard placed) (options : OpenOptions) (faults : Faults) :
    Wp (openFile crc postcard) (unopened crc disk options faults)
      (fun _ t => Loaded crc postcard (unopened crc disk options faults) placed t)
      (fun _ t => LoadFailed crc postcard (unopened crc disk options faults) placed t) := by
  cases disk with
  | none =>
      have empty : placed = [] := (Except.ok.inj sound.facts).symm
      subst empty
      exact (wp_openFile_new options.pageCacheSize faults.pages).mono (fun _ _ h => h)
        fun _ _ no => no.elim
  | some disk => exact sound.wp_openFile trusted options.pageCacheSize faults.pages

/-- The handle an open gives: the store as it was loaded, with the log replayed on it. -/
structure Opened (crc : Crc H C) (walCrc : List UInt8 → UInt32) (postcard : Postcard) (s : Store H C)
    (placed : List (Fact × FactRef)) (entries : List WalEntry) (t : Db H C) : Prop where
  loaded : ∃ u, Loaded crc postcard s placed u ∧ t.store = { u with storage := t.store.storage } ∧
    Replayed u.lastCheckpointedTxCount entries u.storage t.store.storage
  logs : t.Logs walCrc postcard entries
  count : t.walEntryCount = 0 → replayedEntries t.store.lastCheckpointedTxCount entries = []

/-- The files an open leaves that failed. -/
structure OpenFailed (crc : Crc H C) (walCrc : List UInt8 → UInt32) (postcard : Postcard) (s : Store H C)
    (placed : List (Fact × FactRef)) (entries : List WalEntry) (faults : Faults) (t : Db H C) : Prop where
  disk : LoadFailed crc postcard s placed t.store ∨
    ∃ u, Loaded crc postcard s placed u ∧ t.store.dev = u.dev
  logs : t.Logs walCrc postcard entries
  why : s.dev.faults ≠ none ∨ PAGE_LIMIT < 5 + s.dev.disk.header.factPages + 12 * placed.length ∨
    2 ^ 32 < (entries.flatMap WalEntry.facts).length ∨ faults.walOpen ≠ .none

theorem wp_openWithOptions (sound : (diskOf crc disk).Sound crc postcard placed)
    (trusted : (diskOf crc disk).Trusted crc postcard placed)
    (h : Holds postcard.fact walCrc entries walFile none) (stamped : ∀ e ∈ entries, Stamped e)
    (ordered : Ordered entries) (options : OpenOptions) (faults : Faults) :
    Wp (openWithOptions crc walCrc postcard faults) (Db.init crc disk walFile options faults)
      (fun _ t => Opened crc walCrc postcard (unopened crc disk options faults) placed entries t)
      (fun _ t => OpenFailed crc walCrc postcard (unopened crc disk options faults) placed entries
        faults t) := by
  simp only [openWithOptions, onStore, wp_bind, wp_zoom, wp_modify]
  refine (wp_openFile sound trusted options faults).mono ?_ ?_
  · intro _ u loaded
    have logs : Db.Logs walCrc postcard
      { (Db.init crc disk walFile options faults : Db H C) with store := u } entries := h
    refine (wp_replayWal logs loaded.clean.pending loaded.facts stamped ordered).mono ?_ ?_
    · rintro n t ⟨same, replayed, none_⟩
      have logged : Db.Logs walCrc postcard { t with walEntryCount := n } entries := by
        rw [same]
        exact h
      have store : t.store = { u with storage := t.store.storage } := congrArg Db.store same
      have last : t.store.lastCheckpointedTxCount = u.lastCheckpointedTxCount := by rw [store]
      rw [openWalIfExists, wp_bind, wp_get]
      refine wp_ite (fun _ => ?_) fun _ => ?_
      · refine (wp_openWal logged faults.walOpen).mono ?_ ?_
        · rintro _ v ⟨logs, _, same'⟩
          refine ⟨⟨u, loaded, ?_, ?_⟩, logs, ?_⟩
          · rw [same'.store]
            exact store
          · rw [same'.store]
            exact replayed
          · rw [same'.store, same'.count, last]
            exact none_
        · rintro _ v ⟨logs, same', fault⟩
          refine ⟨.inr ⟨u, loaded, ?_⟩, logs, .inr (.inr (.inr fault))⟩
          rw [same'.store, store]
      · refine ⟨⟨u, loaded, store, replayed⟩, logged, ?_⟩
        rw [last]
        exact none_
    · rintro _ t ⟨same, many⟩
      refine ⟨.inr ⟨u, loaded, congrArg (fun db => db.store.dev) same⟩, ?_, .inr (.inr (.inl many))⟩
      rw [same]
      exact h
  · intro _ t failed
    exact ⟨.inl failed, h, failed.why.imp_right .inl⟩

end Opening

end Calls
end Minigraf
