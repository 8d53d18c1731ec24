import Minigraf.Db.Ledgers

/-!
The invariant of a database across writes, checkpoints, crashes and reopenings. A handle
is healthy until a save on it fails; after that its pages behind the facts may be torn,
but the facts it shows and the files it leaves are still those of the ledger.
-/

namespace Minigraf

open EStateM Wal Ledger

section Invariant

variable {H C : Type} (crc : Crc H C) (walCrc : List UInt8 → UInt32) (postcard : Postcard)
  [DecidableEq C]

/-- A file whose pages hold the facts of `paged`, beside a log that holds `stored`. -/
structure DiskKeeps (d : Disk C) (attempts paged stored : List Attempt)
    (placed : List (Fact × FactRef)) : Prop where
  sound : d.Sound crc postcard placed
  facts : placed.map Prod.fst = attemptFacts paged
  marked : (FileHeader.new crc).Grown crc d.header ∨
    maxTxCount (attemptFacts paged) ≤ d.header.lastCheckpointedTxCount
  kept : Kept attemptTx Attempt.acked (maxTxCount (attemptFacts paged))
    (max (maxTxCount (attemptFacts paged)) d.header.lastCheckpointedTxCount) attempts paged stored

/-- A handle with `paged` on its pages and `mem` in memory. -/
structure Healthy (exact : Prop) (db : Db H C) (attempts paged mem stored : List Attempt)
    (placed : List (Fact × FactRef)) (entries : List WalEntry) : Prop where
  clean : db.store.Clean crc postcard placed
  facts : placed.map Prod.fst = attemptFacts paged
  pending : db.store.storage.facts = attemptFacts mem
  live : Live attemptTx Attempt.acked (maxTxCount (attemptFacts paged))
    db.store.lastCheckpointedTxCount db.store.storage.txCounter attempts paged mem stored
  logs : db.Logs walCrc postcard entries
  book : Logbook exact attempts paged stored entries
  idle : db.walEntryCount = 0 → mem = []

/-- A handle that shows `paged` and `mem`, over a file that keeps `saved`. -/
structure Degraded (exact : Prop) (db : Db H C) (attempts paged mem saved stored : List Attempt)
    (placed placed' : List (Fact × FactRef)) (entries : List WalEntry) : Prop where
  readable : db.store.Readable postcard placed
  facts : placed.map Prod.fst = attemptFacts paged
  pending : db.store.storage.facts = attemptFacts mem
  okay : db.store.storage.Ok
  below : ∀ f ∈ db.store.storage.facts, f.txCount ≤ db.store.storage.txCounter
  seen : Seen Attempt.acked attempts (paged ++ mem)
  disk : DiskKeeps crc postcard db.store.dev.disk attempts saved stored placed'
  inside : ∀ a ∈ saved, a ∈ paged ++ mem
  ceiling : max (maxTxCount (attemptFacts saved)) db.store.dev.disk.header.lastCheckpointedTxCount ≤
    db.store.storage.txCounter
  bounded : ∀ a ∈ stored, attemptTx a ≤ db.store.storage.txCounter
  logs : db.Logs walCrc postcard entries
  book : Logbook exact attempts (paged ++ mem) stored entries

/-- The files of a process that is down. -/
structure Resting (exact : Prop) (disk : Option (Disk C)) (walFile : Option (List UInt8))
    (attempts saved stored : List Attempt) (placed : List (Fact × FactRef)) (entries : List WalEntry) :
    Prop where
  disk : DiskKeeps crc postcard (diskOf crc disk) attempts saved stored placed
  logs : Holds postcard.fact walCrc entries walFile none
  book : Logbook exact attempts saved stored entries

variable {crc walCrc postcard} {exact : Prop} {db t : Db H C}
  {attempts paged mem saved stored : List Attempt} {placed placed' : List (Fact × FactRef)}
  {entries : List WalEntry}

/-! ## Healthy handles -/

theorem Healthy.below (h : Healthy crc walCrc postcard exact db attempts paged mem stored placed entries) :
    ∀ f ∈ db.store.storage.facts, f.txCount ≤ db.store.storage.txCounter := by
  intro f hf
  rw [h.pending] at hf
  have recorded : ∀ a ∈ mem, Recorded a := fun a ha =>
    h.book.attempted a (h.live.seen.sound.subset (List.mem_append_right _ ha))
  obtain ⟨a, ha, same⟩ := mem_attemptFacts recorded hf
  rw [same]
  exact (h.live.inside ha).2

theorem Healthy.header (h : Healthy crc walCrc postcard exact db attempts paged mem stored placed entries) :
    db.store.dev.disk.header.lastCheckpointedTxCount = db.store.lastCheckpointedTxCount := by
  rw [h.clean.synced, h.clean.last]

theorem Healthy.disk (h : Healthy crc walCrc postcard exact db attempts paged mem stored placed entries) :
    DiskKeeps crc postcard db.store.dev.disk attempts paged stored placed := by
  have marks := h.live.kept.marks
  rw [← h.header] at marks
  refine ⟨h.clean.sound, h.facts, .inr marks, ?_⟩
  rw [max_eq_right marks, h.header]
  exact h.live.kept

theorem Healthy.degraded
    (h : Healthy crc walCrc postcard exact db attempts paged mem stored placed entries) :
    Degraded crc walCrc postcard exact db attempts paged mem paged stored placed placed entries := by
  refine ⟨h.clean.readable, h.facts, h.pending, h.clean.pending, h.below, h.live.seen, h.disk,
    fun a ha => List.mem_append_left _ ha, ?_, h.live.bounded, h.logs, ⟨h.book.logged, h.book.attempted,
    h.book.recorded, fun calm a ha => ?_⟩⟩
  · rw [h.header, max_eq_right h.live.kept.marks]
    exact h.live.counted
  · obtain ha | ha := List.mem_append.mp ha
    · obtain ha | ha := List.mem_append.mp ha
      · exact h.book.acked calm a (List.mem_append_left _ ha)
      · exact h.book.acked calm a
          (List.mem_append_right _ ((above_sublist _ _).subset (h.live.logged.subset ha)))
    · exact h.book.acked calm a (List.mem_append_right _ ha)

theorem Degraded.crash (h : Degraded crc walCrc postcard exact db attempts paged mem saved stored placed
    placed' entries) :
    Resting crc walCrc postcard exact (some db.store.dev.disk) db.walFile attempts saved stored placed'
      entries := by
  refine ⟨h.disk, Holds.crash postcard.fact walCrc h.logs, h.book.logged, h.book.attempted,
    h.book.recorded, fun calm a ha => h.book.acked calm a ?_⟩
  obtain ha | ha := List.mem_append.mp ha
  · exact List.mem_append_left _ (h.inside a ha)
  · exact List.mem_append_right _ ha

theorem Healthy.withFaults
    (h : Healthy crc walCrc postcard exact db attempts paged mem stored placed entries) (faults : Faults) :
    Healthy crc walCrc postcard exact (db.withFaults faults) attempts paged mem stored placed entries :=
  ⟨h.clean.withDev (h.clean.okay.withFaults faults.pages) rfl rfl, h.facts, h.pending, h.live, h.logs,
    h.book, h.idle⟩

theorem Degraded.withFaults (h : Degraded crc walCrc postcard exact db attempts paged mem saved stored
    placed placed' entries) (faults : Faults) :
    Degraded crc walCrc postcard exact (db.withFaults faults) attempts paged mem saved stored placed
      placed' entries :=
  ⟨⟨h.readable.inside, h.readable.counted, h.readable.limit, h.readable.facts, h.readable.unread⟩,
    h.facts, h.pending, h.okay, h.below, h.seen, h.disk, h.inside, h.ceiling, h.bounded, h.logs, h.book⟩

/-! ## Writing -/

omit [DecidableEq C]

theorem Db.Countable.next (room : db.Countable) (facts : List Fact) (txId : TxId) :
    (db.entry facts txId).txCount = db.store.storage.txCounter + 1 ∧
      db.store.storage.txCounter < (db.entry facts txId).txCount := by
  have next : nextTxCount db.store.storage.txCounter = db.store.storage.txCounter + 1 := if_pos room
  refine ⟨next, ?_⟩
  have small : db.store.storage.txCounter.toNat + 1 < 2 ^ 64 := room
  simp only [Db.entry, next, UInt64.lt_iff_toNat_lt, UInt64.toNat_add, UInt64.toNat_one]
  omega

theorem Db.entry_stamped (db : Db H C) (facts : List Fact) (txId : TxId) :
    Stamped (db.entry facts txId) := by
  intro f hf
  obtain ⟨g, _, rfl⟩ := List.mem_map.mp hf
  rfl

theorem attemptFacts_attemptOf (entry : WalEntry) (b : Bool) :
    attemptFacts (attemptOf entry b) = newFacts entry := by
  rw [attemptOf]
  split
  · rename_i none_
    rw [newFacts, none_]
    rfl
  · exact List.flatMap_singleton _ _

theorem Db.counted_ok (okay : db.store.storage.Ok) : db.counted.Ok := ⟨okay.keys, okay.indexes⟩

/-- What a write adds to the facts in memory. -/
theorem Written.facts {facts : List Fact} {txId : TxId} {due : Bool}
    (h : Written walCrc postcard db entries (db.entry facts txId) due t) (room : db.Countable)
    (okay : db.store.storage.Ok)
    (below : ∀ f ∈ db.store.storage.facts, f.txCount ≤ db.store.storage.txCounter)
    (pending : db.store.storage.facts = attemptFacts mem) :
    t.store.storage.facts = attemptFacts (mem ++ attemptOf (db.entry facts txId) true) := by
  have fresh := freshFacts_stamped (db.entry_stamped facts txId)
    (okay.apart fun f hf _ => (below f hf).trans_lt (room.next facts txId).2)
  rw [h.appended.facts, fresh, attemptFacts_append, attemptFacts_attemptOf, ← pending]
  rfl

theorem Written.counter {facts : List Fact} {txId : TxId} {due : Bool}
    (h : Written walCrc postcard db entries (db.entry facts txId) due t) (room : db.Countable) :
    t.store.storage.txCounter = (db.entry facts txId).txCount := by
  rw [h.appended.counter, (room.next facts txId).1]
  rfl

variable [DecidableEq C]

theorem Healthy.written {facts : List Fact} {txId : TxId} {due : Bool}
    (h : Healthy crc walCrc postcard exact db attempts paged mem stored placed entries)
    (room : db.Countable) (written : Written walCrc postcard db entries (db.entry facts txId) due t) :
    Healthy crc walCrc postcard exact t (attempts ++ attemptOf (db.entry facts txId) true) paged
      (mem ++ attemptOf (db.entry facts txId) true) (stored ++ attemptOf (db.entry facts txId) true)
      placed (entries ++ [db.entry facts txId]) := by
  have last : t.store.lastCheckpointedTxCount = db.store.lastCheckpointedTxCount := by
    rw [written.store]
  refine ⟨?_, h.facts, written.facts room h.clean.pending h.below h.pending, ?_, written.logs,
    h.book.write (db.entry_stamped facts txId) fun _ => rfl, fun none_ => ?_⟩
  · rw [written.store]
    exact h.clean.withStorage written.appended.committed written.appended.reader
      (written.appended.ok (db.counted_ok h.clean.pending)) true
  · rw [last, written.counter room]
    exact live_record h.live (room.next facts txId).2 true
  · rw [written.count] at none_
    omega

theorem Healthy.writeFailed {facts : List Fact} {txId : TxId} {calm : Prop}
    (h : Healthy crc walCrc postcard exact db attempts paged mem stored placed entries)
    (room : db.Countable)
    (failed : WriteFailed walCrc postcard db entries (db.entry facts txId) calm t)
    (careful : exact → calm) :
    ∃ stored' entries', Healthy crc walCrc postcard exact t
      (attempts ++ attemptOf (db.entry facts txId) false) paged mem stored' placed entries' := by
  obtain ⟨dirty, store⟩ := failed.store
  obtain ⟨kept, each, quiet, logs⟩ := failed.logs
  have next := room.next facts txId
  have clean : t.store.Clean crc postcard placed := by
    rw [store]
    have committed : db.counted.committed = db.store.storage.committed := rfl
    exact h.clean.withStorage committed rfl (db.counted_ok h.clean.pending) dirty
  have last : t.store.lastCheckpointedTxCount = db.store.lastCheckpointedTxCount := by rw [store]
  have counter : t.store.storage.txCounter = (db.entry facts txId).txCount := by
    rw [store, next.1]
    rfl
  have pending : t.store.storage.facts = attemptFacts mem := by
    rw [store]
    exact h.pending
  have idle : t.walEntryCount = 0 → mem = [] := fun none_ => h.idle (failed.count none_)
  obtain rfl | rfl := each
  · rw [List.append_nil] at logs
    refine ⟨stored, entries, clean, h.facts, pending, ?_, logs,
      h.book.skip (db.entry_stamped facts txId) false, idle⟩
    rw [last, counter]
    exact live_miss h.live next.2
  · refine ⟨_, _, clean, h.facts, pending, ?_, logs,
      h.book.write (db.entry_stamped facts txId) fun careful' => ?_, idle⟩
    · rw [last, counter]
      exact live_recordFailed h.live next.2
    · exact absurd (quiet (careful careful')) (by simp)

theorem DiskKeeps.record {d : Disk C} (h : DiskKeeps crc postcard d attempts saved stored placed)
    {counter : UInt64}
    (ceiling : max (maxTxCount (attemptFacts saved)) d.header.lastCheckpointedTxCount ≤ counter)
    (bounded : ∀ a ∈ stored, attemptTx a ≤ counter) {entry : WalEntry}
    (next : counter < entry.txCount) (b : Bool) :
    DiskKeeps crc postcard d (attempts ++ attemptOf entry b) saved (stored ++ attemptOf entry b) placed :=
  ⟨h.sound, h.facts, h.marked, kept_record h.kept ceiling bounded next b⟩

theorem DiskKeeps.miss {d : Disk C} (h : DiskKeeps crc postcard d attempts saved stored placed)
    (entry : WalEntry) :
    DiskKeeps crc postcard d (attempts ++ attemptOf entry false) saved stored placed :=
  ⟨h.sound, h.facts, h.marked, kept_miss h.kept entry⟩

omit [DecidableEq C] in
theorem bounded_attemptOf {counter : UInt64} (bounded : ∀ a ∈ stored, attemptTx a ≤ counter)
    {entry : WalEntry} (stamped : Stamped entry) (next : counter < entry.txCount) (b : Bool) :
    ∀ a ∈ stored ++ attemptOf entry b, attemptTx a ≤ entry.txCount := by
  intro a ha
  obtain ha | ha := List.mem_append.mp ha
  · exact (bounded a ha).trans next.le
  · rw [(Recorded.of_mem stamped ha).2]
    exact le_rfl

theorem Degraded.written {facts : List Fact} {txId : TxId} {due : Bool}
    (h : Degraded crc walCrc postcard exact db attempts paged mem saved stored placed placed' entries)
    (room : db.Countable) (written : Written walCrc postcard db entries (db.entry facts txId) due t) :
    Degraded crc walCrc postcard exact t (attempts ++ attemptOf (db.entry facts txId) true) paged
      (mem ++ attemptOf (db.entry facts txId) true) saved
      (stored ++ attemptOf (db.entry facts txId) true) placed placed'
      (entries ++ [db.entry facts txId]) := by
  have stamped := db.entry_stamped facts txId
  have next := room.next facts txId
  have all := written.facts room h.okay h.below h.pending
  have counter := written.counter room
  have dev : t.store.dev = db.store.dev := by rw [written.store]
  have book : Logbook exact (attempts ++ attemptOf (db.entry facts txId) true)
      (paged ++ (mem ++ attemptOf (db.entry facts txId) true))
      (stored ++ attemptOf (db.entry facts txId) true) (entries ++ [db.entry facts txId]) := by
    have wrote := h.book.write stamped (b := true) fun _ => rfl
    refine ⟨wrote.logged, wrote.attempted, wrote.recorded, fun calm a ha => wrote.acked calm a ?_⟩
    simp only [List.mem_append] at ha ⊢
    tauto
  refine ⟨?_, h.facts, all, written.appended.ok (db.counted_ok h.okay), ?_, ?_, ?_, ?_, ?_, ?_,
    written.logs, book⟩
  · rw [written.store]
    exact ⟨h.readable.inside, h.readable.counted, h.readable.limit, h.readable.facts,
      fun none_ => h.readable.unread (written.appended.committed.symm.trans none_)⟩
  · intro f hf
    rw [all, attemptFacts_append, ← h.pending, attemptFacts_attemptOf] at hf
    rw [counter]
    obtain hf | hf := List.mem_append.mp hf
    · exact (h.below f hf).trans next.2.le
    · exact (mem_newFacts stamped hf).le
  · rw [← List.append_assoc]
    exact seen_record h.seen _ true
  · rw [dev]
    exact h.disk.record h.ceiling h.bounded next.2 true
  · intro a ha
    have := h.inside a ha
    simp only [List.mem_append] at this ⊢
    tauto
  · rw [dev, counter]
    exact h.ceiling.trans next.2.le
  · rw [counter]
    exact bounded_attemptOf h.bounded stamped next.2 true

theorem Degraded.writeFailed {facts : List Fact} {txId : TxId} {calm : Prop}
    (h : Degraded crc walCrc postcard exact db attempts paged mem saved stored placed placed' entries)
    (room : db.Countable)
    (failed : WriteFailed walCrc postcard db entries (db.entry facts txId) calm t)
    (careful : exact → calm) :
    ∃ stored' entries', Degraded crc walCrc postcard exact t
      (attempts ++ attemptOf (db.entry facts txId) false) paged mem saved stored' placed placed'
      entries' := by
  obtain ⟨dirty, store⟩ := failed.store
  obtain ⟨kept, each, quiet, logs⟩ := failed.logs
  have stamped := db.entry_stamped facts txId
  have next := room.next facts txId
  have dev : t.store.dev = db.store.dev := by rw [store]
  have counter : t.store.storage.txCounter = (db.entry facts txId).txCount := by
    rw [store, next.1]
    rfl
  have all : t.store.storage.facts = db.store.storage.facts := by
    rw [store]
    rfl
  have readable : t.store.Readable postcard placed := by
    rw [store]
    exact ⟨h.readable.inside, h.readable.counted, h.readable.limit, h.readable.facts, h.readable.unread⟩
  have okay : t.store.storage.Ok := by
    rw [store]
    exact db.counted_ok h.okay
  have below : ∀ f ∈ t.store.storage.facts, f.txCount ≤ t.store.storage.txCounter := by
    rw [all, counter]
    exact fun f hf => (h.below f hf).trans next.2.le
  have ceiling : max (maxTxCount (attemptFacts saved))
      t.store.dev.disk.header.lastCheckpointedTxCount ≤ t.store.storage.txCounter := by
    rw [dev, counter]
    exact h.ceiling.trans next.2.le
  obtain rfl | rfl := each
  · rw [List.append_nil] at logs
    refine ⟨stored, entries, readable, h.facts, all.trans h.pending, okay, below, seen_miss h.seen _,
      ?_, h.inside, ceiling, ?_, logs, h.book.skip stamped false⟩
    · rw [dev]
      exact h.disk.miss _
    · rw [counter]
      exact fun a ha => (h.bounded a ha).trans next.2.le
  · refine ⟨_, _, readable, h.facts, all.trans h.pending, okay, below, seen_miss h.seen _,
      ?_, h.inside, ceiling, ?_, logs, h.book.write stamped fun careful' => ?_⟩
    · rw [dev]
      exact h.disk.record h.ceiling h.bounded next.2 false
    · rw [counter]
      exact bounded_attemptOf h.bounded stamped next.2 false
    · exact absurd (quiet (careful careful')) (by simp)

/-! ## Checkpoints -/

/-- With nothing in memory the log may go. -/
theorem Healthy.deleted (h : Healthy crc walCrc postcard exact db attempts paged [] stored placed entries)
    (store : t.store = db.store) (logs : t.Logs walCrc postcard []) :
    Healthy crc walCrc postcard exact t attempts paged [] [] placed [] := by
  refine ⟨?_, h.facts, ?_, ?_, logs, h.book.delete, fun _ => rfl⟩
  · rw [store]
    exact h.clean
  · rw [store]
    exact h.pending
  · rw [store]
    exact h.live.delete

theorem Healthy.recorded
    (h : Healthy crc walCrc postcard exact db attempts paged mem stored placed entries) :
    ∀ a ∈ paged ++ mem, Recorded a :=
  fun a ha => h.book.attempted a (h.live.seen.sound.subset ha)

theorem Healthy.counted
    (h : Healthy crc walCrc postcard exact db attempts paged mem stored placed entries) :
    ∀ a ∈ paged ++ mem, attemptTx a ≤ db.store.storage.txCounter := by
  intro a ha
  obtain ha | ha := List.mem_append.mp ha
  · exact ((h.live.kept.below a ha).trans h.live.kept.marks).trans h.live.counted
  · exact (h.live.inside ha).2

/-- What is in memory moved to the pages. -/
theorem Healthy.flushed
    (h : Healthy crc walCrc postcard exact db attempts paged mem stored placed entries) :
    Live attemptTx Attempt.acked (maxTxCount (attemptFacts (paged ++ mem))) db.store.storage.txCounter
      db.store.storage.txCounter attempts (paged ++ mem) [] stored := by
  refine h.live.save ?_ (fun a ha => maxTxCount_attempts h.recorded ha)
    (maxTxCount_attempts_le h.recorded h.counted)
  refine maxTxCount_le fun f hf => le_maxTxCount ?_
  rw [attemptFacts_append]
  exact List.mem_append_left _ hf

theorem Healthy.pendingAt
    (h : Healthy crc walCrc postcard exact db attempts paged mem stored placed entries) :
    (placed ++ db.store.pendingAt postcard).map Prod.fst = attemptFacts (paged ++ mem) := by
  rw [List.map_append, Store.map_pendingAt, h.facts, h.pending, attemptFacts_append]

theorem Healthy.afterSave (h : Healthy crc walCrc postcard exact db attempts paged mem stored placed entries)
    (saved : Saved crc postcard { db.store with dirty := true } placed t.store)
    (logs : t.Logs walCrc postcard entries) :
    Healthy crc walCrc postcard exact t attempts (paged ++ mem) [] stored
      (placed ++ db.store.pendingAt postcard) entries := by
  have counter : t.store.storage.txCounter = db.store.storage.txCounter := saved.counter
  have last : t.store.lastCheckpointedTxCount = db.store.storage.txCounter :=
    saved.clean.last.trans saved.last
  refine ⟨saved.clean, h.pendingAt, saved.facts, ?_, logs, h.degraded.book, fun _ => rfl⟩
  rw [counter, last]
  exact h.flushed

omit [DecidableEq C] in
theorem maxTxCount_lt {facts : List Fact} {m : UInt64} (h : ∀ f ∈ facts, f.txCount < m) (pos : 0 < m) :
    maxTxCount facts < m := by
  have step : ∀ start, start < m → facts.foldl (fun m f => max m f.txCount) start < m := by
    induction facts with
    | nil => exact fun _ hstart => hstart
    | cons g facts ih =>
        intro start hstart
        exact ih (fun f hf => h f (List.mem_cons_of_mem g hf)) _
          (max_lt hstart (h g List.mem_cons_self))
  exact step 0 pos

/-- A first checkpoint that stops between two pages leaves whole transactions. -/
theorem Healthy.split (h : Healthy crc walCrc postcard exact db attempts paged mem stored placed entries)
    (fresh : db.store.Fresh crc)
    (unsplit : Unsplit (packGroups postcard.fact db.store.storage.facts)) (m : Nat) :
    ∃ front, (∀ a ∈ front, a ∈ paged ++ mem) ∧
      attemptFacts front = ((packGroups postcard.fact db.store.storage.facts).take m).flatten ∧
      Kept attemptTx Attempt.acked (maxTxCount (attemptFacts front)) (maxTxCount (attemptFacts front))
        attempts front stored := by
  have none_ : paged = [] := by
    have empty := h.facts
    rw [h.clean.placed_nil fresh.pages, List.map_nil] at empty
    rw [List.eq_nil_iff_forall_not_mem]
    intro a ha
    obtain ⟨f, hf, _⟩ := (h.recorded a (List.mem_append_left _ ha)).exists_fact ha
    rw [← empty] at hf
    cases hf
  subst none_
  have recorded : ∀ a ∈ mem, Recorded a := fun a ha => h.recorded a ha
  have whole : attemptFacts mem = ((packGroups postcard.fact db.store.storage.facts).take m).flatten ++
      ((packGroups postcard.fact db.store.storage.facts).drop m).flatten := by
    rw [← List.flatten_append, List.take_append_drop, packGroups_flatten, h.pending]
  obtain ⟨front, back, rfl, hfront⟩ := attemptFacts_split recorded whole fun f hf f' hf' => by
    obtain ⟨g, hg, hf⟩ := List.mem_flatten.mp hf
    obtain ⟨g', hg', hf'⟩ := List.mem_flatten.mp hf'
    rw [Unsplit, ← List.take_append_drop m (packGroups postcard.fact db.store.storage.facts),
      List.pairwise_append] at unsplit
    exact unsplit.2.2 g hg g' hg' f hf f' hf'
  have inFront : ∀ a ∈ front, Recorded a := fun a ha => recorded a (List.mem_append_left _ ha)
  have ordered : (front ++ back).Pairwise fun a b => attemptTx a < attemptTx b :=
    h.live.kept.ordered.sublist (h.live.logged.trans (above_sublist _ _))
  refine ⟨front, fun a ha => List.mem_append_right _ (List.mem_append_left _ ha), hfront,
    h.live.tear ?_ ?_ ?_⟩
  · exact UInt64.zero_le
  · exact fun a ha => maxTxCount_attempts inFront ha
  · intro a ha
    refine maxTxCount_lt (fun f hf => ?_) ?_
    · obtain ⟨b, hb, same⟩ := mem_attemptFacts inFront hf
      rw [same]
      exact (List.pairwise_append.mp ordered).2.2 b hb a ha
    · exact UInt64.zero_le.trans_lt (h.live.inside (List.mem_append_right _ ha)).1

/-- The fact pages are as they were after a save that failed. -/
theorem SaveFailed.readable {s u : Store H C} (clean : s.Clean crc postcard placed)
    (failed : SaveFailed crc postcard s placed u) : u.Readable postcard placed := by
  have inside : u.dev.header.pageCount ≤ u.dev.disk.len :=
    failed.mirrors.elim (fun mirrors => mirrors.inside) fun okay => okay.inside
  have before := clean.readable
  obtain ⟨counted, kept⟩ : 1 + s.committedFactPages ≤ u.dev.header.pageCount ∧
      ∀ i, i ≤ s.committedFactPages → u.dev.disk.page i = s.dev.disk.page i := by
    cases failed.torn with
    | untouched header disk =>
        rw [header, disk]
        exact ⟨before.counted, fun _ _ => rfl⟩
    | overwritten pages refs packed writes =>
        refine ⟨before.counted.trans writes.pageCount_le, fun i low => ?_⟩
        obtain same | ⟨at_, _⟩ | ⟨at_, _⟩ := writes.page i
        · exact same
        · omega
        · omega
    | unsynced v saved header disk =>
        rw [header, disk]
        refine ⟨?_, saved.kept⟩
        have := saved.clean.inside
        rw [saved.pages] at this
        omega
  refine ⟨inside, by rw [failed.pages]; exact counted, by rw [failed.pages]; exact before.limit, ?_, ?_⟩
  · rw [failed.pages, ← before.facts, pagesFrom_congr fun i _ high => kept i (by omega)]
  · rw [failed.storage]
    exact before.unread

/-- The file of a save that failed keeps what it kept, in a new file the front of it, or
all there is. -/
theorem Healthy.torn (h : Healthy crc walCrc postcard exact db attempts paged mem stored placed entries)
    (ready : db.Ready postcard) {d : Dev C}
    (torn : Torn crc postcard { db.store with dirty := true } placed d) :
    ∃ kept placed', DiskKeeps crc postcard d.disk attempts kept stored placed' ∧
      (∀ a ∈ kept, a ∈ paged ++ mem) ∧
      max (maxTxCount (attemptFacts kept)) d.disk.header.lastCheckpointedTxCount ≤
        db.store.storage.txCounter := by
  have marked : Store.Clean crc postcard { db.store with dirty := true } placed :=
    h.clean.withStorage rfl rfl h.clean.pending true
  obtain ⟨sound, grown⟩ | ⟨fresh, bare, m, sound⟩ | ⟨sound, last⟩ := torn.sound marked ready.fits
  · have last := grown.fields.2.2.2.2.1
    have same : d.disk.header.lastCheckpointedTxCount =
        db.store.dev.disk.header.lastCheckpointedTxCount := by
      rw [last, h.clean.synced]
    have marks := h.live.kept.marks
    rw [← h.header] at marks
    refine ⟨paged, placed, ⟨sound, h.facts, .inr (by rw [same]; exact marks), ?_⟩,
      fun a ha => List.mem_append_left _ ha, ?_⟩
    · rw [same]
      exact h.disk.kept
    · rw [same]
      exact h.degraded.ceiling
  · obtain ⟨front, inside, facts, kept⟩ := h.split ⟨fresh.header, fresh.pages, fresh.reader⟩
      (ready.unsplit fresh.pages) m
    have last := bare.factPages.2.2.2.2
    have ceiling : max (maxTxCount (attemptFacts front)) d.disk.header.lastCheckpointedTxCount =
        maxTxCount (attemptFacts front) := by
      rw [last]
      exact max_eq_left UInt64.zero_le
    refine ⟨front, _, ⟨sound, ?_, .inl bare, ?_⟩, inside, ?_⟩
    · rw [Store.map_pendingUpTo, facts]
    · rw [ceiling]
      exact kept
    · rw [ceiling]
      exact maxTxCount_attempts_le (fun a ha => h.recorded a (inside a ha))
        fun a ha => h.counted a (inside a ha)
  · have flushed := h.flushed.kept
    have ceiling : max (maxTxCount (attemptFacts (paged ++ mem)))
        d.disk.header.lastCheckpointedTxCount = db.store.storage.txCounter := by
      rw [last]
      exact max_eq_right flushed.marks
    refine ⟨paged ++ mem, _, ⟨sound, h.pendingAt, .inr (by rw [last]; exact flushed.marks), ?_⟩,
      fun _ ha => ha, ceiling.le⟩
    rw [ceiling]
    exact flushed

theorem Healthy.saveFailed
    (h : Healthy crc walCrc postcard exact db attempts paged mem stored placed entries)
    (ready : db.Ready postcard)
    (failed : SaveFailed crc postcard { db.store with dirty := true } placed t.store)
    (logs : t.Logs walCrc postcard entries) :
    ∃ kept placed', Degraded crc walCrc postcard exact t attempts paged mem kept stored placed placed'
      entries := by
  have marked : Store.Clean crc postcard { db.store with dirty := true } placed :=
    h.clean.withStorage rfl rfl h.clean.pending true
  have storage : t.store.storage = db.store.storage := failed.storage
  obtain ⟨kept, placed', disk, inside, ceiling⟩ := h.torn ready failed.torn
  refine ⟨kept, placed', failed.readable marked, h.facts, ?_, ?_, ?_, h.live.seen, disk, inside, ?_, ?_,
    logs, h.degraded.book⟩
  · rw [storage]
    exact h.pending
  · rw [storage]
    exact h.clean.pending
  · rw [storage]
    exact h.below
  · rw [storage]
    exact ceiling
  · rw [storage]
    exact h.live.bounded

end Invariant
end Minigraf
