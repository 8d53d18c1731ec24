import Mathlib.Data.List.Flatten
import Minigraf.Db.Invariant
import Minigraf.Storage.SmallFacts
import Minigraf.Storage.Transparency

/-!
What a database shows after any run of writes, checkpoints, crashes and reopenings: the
facts of every acknowledged transaction, whole and once, and of the others each whole or
not at all.
-/

namespace Minigraf

open Bytes EStateM Wal Ledger

section Recovery

variable {H C : Type} {crc : Crc H C} {walCrc : List UInt8 → UInt32} {postcard : Postcard}
  [DecidableEq C] {exact : Prop} {db t : Db H C} {attempts paged mem saved stored : List Attempt}
  {placed : List (Fact × FactRef)} {entries : List WalEntry}

/-! ## Opening -/

omit [DecidableEq C] in
theorem unopened_disk (disk : Option (Disk C)) (options : OpenOptions) (faults : Faults) :
    (unopened crc disk options faults : Store H C).dev.disk = diskOf crc disk := by
  cases disk with
  | none => rfl
  | some disk => rfl

/-- The mark `load` takes. -/
def Disk.mark (crc : Crc H C) (d : Disk C) (placed : List (Fact × FactRef)) : UInt64 :=
  if d.rebuilds crc then maxTxCount (placed.map Prod.fst) else d.header.lastCheckpointedTxCount

theorem DiskKeeps.mark {d : Disk C} (h : DiskKeeps crc postcard d attempts saved stored placed) :
    maxTxCount (attemptFacts saved) ≤ d.mark crc placed ∧
      d.mark crc placed ≤ max (maxTxCount (attemptFacts saved)) d.header.lastCheckpointedTxCount := by
  rw [Disk.mark, h.facts]
  cases trusted : d.rebuilds crc with
  | true => exact ⟨le_rfl, le_max_left _ _⟩
  | false =>
      refine ⟨?_, le_max_right _ _⟩
      obtain bare | marks := h.marked
      · have empty := (h.sound.new_of_trusted trusted bare.factPages.1).2
        rw [← h.facts, empty]
        exact UInt64.zero_le
      · exact marks

/-- A file that was rewritten under a header with the mark it is opened at. -/
theorem DiskKeeps.remark {d d' : Disk C} (h : DiskKeeps crc postcard d attempts saved stored placed)
    {mark : UInt64} (low : maxTxCount (attemptFacts saved) ≤ mark)
    (high : mark ≤ max (maxTxCount (attemptFacts saved)) d.header.lastCheckpointedTxCount)
    (sound : d'.Sound crc postcard placed) (same : d'.header.lastCheckpointedTxCount = mark) :
    DiskKeeps crc postcard d' attempts saved stored placed := by
  refine ⟨sound, h.facts, .inr (by rw [same]; exact low), ?_⟩
  rw [same, max_eq_right low]
  exact h.kept.lower low high

/-- A file whose header was only written again for a new page count. -/
theorem DiskKeeps.grown {d d' : Disk C} (h : DiskKeeps crc postcard d attempts saved stored placed)
    (sound : d'.Sound crc postcard placed) (grown : d.header.Grown crc d'.header) :
    DiskKeeps crc postcard d' attempts saved stored placed := by
  have last := grown.fields.2.2.2.2.1
  refine ⟨sound, h.facts, h.marked.imp (fun bare => bare.trans grown) fun marks => ?_, ?_⟩
  · rw [last]
    exact marks
  · rw [last]
    exact h.kept

section Opens

variable {disk : Option (Disk C)} {walFile : Option (List UInt8)} {options : OpenOptions}
  {faults : Faults}

theorem Resting.opened
    (h : Resting crc walCrc postcard exact disk walFile attempts saved stored placed entries)
    (opened : Opened crc walCrc postcard (unopened crc disk options faults) placed entries t) :
    ∃ mem, Healthy crc walCrc postcard exact t attempts saved mem stored placed entries := by
  obtain ⟨u, loaded, store, replayed⟩ := opened.loaded
  have last : u.lastCheckpointedTxCount = (diskOf crc disk).mark crc placed := by
    rw [loaded.last, unopened_disk, Disk.mark]
  have same : t.store.lastCheckpointedTxCount = u.lastCheckpointedTxCount := by rw [store]
  obtain ⟨low, high⟩ := h.disk.mark
  rw [← last] at low high
  have facts : t.store.storage.facts =
      attemptFacts (above attemptTx u.lastCheckpointedTxCount stored) :=
    replayed.facts.trans (h.book.replayed _)
  refine ⟨above attemptTx u.lastCheckpointedTxCount stored, ?_, h.disk.facts, facts, ?_, opened.logs,
    h.book, fun none_ => ?_⟩
  · rw [store]
    exact loaded.clean.withStorage replayed.committed replayed.reader replayed.ok u.dirty
  · rw [same]
    refine h.disk.kept.live low high ?_ fun a ha => ?_
    · rw [replayed.counter, loaded.counter]
      exact le_max_left _ _
    · rw [replayed.counter, facts]
      refine (maxTxCount_attempts (fun b hb => ?_) ha).trans (le_max_right _ _)
      exact h.book.recorded b ((above_sublist _ _).subset hb)
  · have nothing := h.book.above u.lastCheckpointedTxCount
    rw [← same, opened.count none_, List.filter_nil] at nothing
    rw [← same]
    exact List.map_eq_nil_iff.mp nothing.symm

theorem Resting.openFailed
    (h : Resting crc walCrc postcard exact disk walFile attempts saved stored placed entries)
    (failed : OpenFailed crc walCrc postcard (unopened crc disk options faults) placed entries faults t) :
    Resting crc walCrc postcard exact (some t.store.dev.disk) t.walFile attempts saved stored placed
      entries := by
  refine ⟨?_, Holds.crash postcard.fact walCrc failed.logs, h.book⟩
  obtain failed | ⟨u, loaded, dev⟩ := failed.disk
  · obtain grown | last := failed.header
    · rw [unopened_disk] at grown
      exact h.disk.grown failed.sound grown
    · refine h.disk.remark le_rfl (le_max_left _ _) failed.sound ?_
      rw [← h.disk.facts]
      exact last
  · have last : u.dev.disk.header.lastCheckpointedTxCount = (diskOf crc disk).mark crc placed := by
      rw [loaded.clean.synced, ← loaded.clean.last, loaded.last, unopened_disk, Disk.mark]
    obtain ⟨low, high⟩ := h.disk.mark
    rw [dev]
    exact h.disk.remark low high loaded.clean.sound last

end Opens

/-! ## Runs -/

/-- The invariant: what is kept across crashes, and of a handle that it is healthy unless a
save on it failed. -/
def World.Keeps (crc : Crc H C) (walCrc : List UInt8 → UInt32) (postcard : Postcard) (exact : Prop)
    (w : World H C) : Prop :=
  match w.process with
  | .down disk walFile => ∃ saved stored placed entries,
      Resting crc walCrc postcard exact disk walFile w.attempts saved stored placed entries
  | .up db =>
      (∃ paged mem stored placed entries,
        Healthy crc walCrc postcard exact db w.attempts paged mem stored placed entries) ∨
      (w.halted = true ∧ ∃ paged mem saved stored placed placed' entries,
        Degraded crc walCrc postcard exact db w.attempts paged mem saved stored placed placed' entries)

theorem World.Keeps.start : (World.start : World H C).Keeps crc walCrc postcard exact := by
  refine ⟨[], [], [], [], ⟨?_, rfl, .inl (.inl rfl), ?_⟩, .absent rfl, rfl, nofun, nofun, nofun⟩
  · exact (Store.Clean.create 0 none : (Store.init (Dev.create crc 0 none) : Store H C).Clean crc
      postcard []).sound
  · exact ⟨.nil, nofun, le_max_left _ _, .refl _, rfl⟩

variable {w : World H C}

/-- An open handle always has the weaker invariant. -/
theorem World.Keeps.degraded (h : w.Keeps crc walCrc postcard exact) (up : w.process = .up db) :
    ∃ paged mem saved stored placed placed' entries,
      Degraded crc walCrc postcard exact db w.attempts paged mem saved stored placed placed' entries := by
  rw [World.Keeps, up] at h
  obtain ⟨paged, mem, stored, placed, entries, healthy⟩ | ⟨_, degraded⟩ := h
  · exact ⟨_, _, _, _, _, _, _, healthy.degraded⟩
  · exact degraded

theorem World.Keeps.healthy (h : w.Keeps crc walCrc postcard exact) (up : w.process = .up db)
    (running : w.halted = false) : ∃ paged mem stored placed entries,
      Healthy crc walCrc postcard exact db w.attempts paged mem stored placed entries := by
  rw [World.Keeps, up] at h
  obtain healthy | ⟨halted, _⟩ := h
  · exact healthy
  · rw [running] at halted
    cases halted

theorem World.Keeps.withFaults (h : w.Keeps crc walCrc postcard exact) (up : w.process = .up db)
    (faults : Faults) :
    World.Keeps crc walCrc postcard exact { w with process := .up (db.withFaults faults) } := by
  rw [World.Keeps, up] at h
  obtain ⟨_, _, _, _, _, healthy⟩ | ⟨halted, _, _, _, _, _, _, _, degraded⟩ := h
  · exact .inl ⟨_, _, _, _, _, healthy.withFaults faults⟩
  · exact .inr ⟨halted, _, _, _, _, _, _, _, degraded.withFaults faults⟩

/-- A checkpoint leaves a healthy handle that shows the same transactions, or its save
failed. -/
theorem Healthy.checkpointed
    (h : Healthy crc walCrc postcard exact db attempts paged mem stored placed entries)
    (ready : db.Ready postcard) (outcome : Checkpointed crc walCrc postcard db placed entries t) :
    (∃ paged' mem' stored' placed' entries',
      Healthy crc walCrc postcard exact t attempts paged' mem' stored' placed' entries' ∧
        paged' ++ mem' = paged ++ mem) ∨
    (t.store.dirty = true ∧ ∃ paged mem saved stored placed placed' entries,
      Degraded crc walCrc postcard exact t attempts paged mem saved stored placed placed' entries) := by
  cases outcome with
  | skipped idle _ store count logs =>
      obtain rfl := h.idle idle
      obtain gone | logs := logs
      · exact .inl ⟨_, _, _, _, _, h.deleted store gone, rfl⟩
      · refine .inl ⟨paged, [], stored, placed, entries,
          ⟨?_, h.facts, ?_, ?_, logs, h.book, fun _ => rfl⟩, rfl⟩
        · rw [store]
          exact h.clean
        · rw [store]
          exact h.pending
        · rw [store]
          exact h.live
  | saved saved logs =>
      obtain gone | logs := logs
      · -- The log only goes after the pages were saved.
        have after : Healthy crc walCrc postcard exact { db with store := t.store } attempts
            (paged ++ mem) [] stored (placed ++ db.store.pendingAt postcard) entries :=
          h.afterSave saved h.logs
        exact .inl ⟨_, _, _, _, _, after.deleted rfl gone, List.append_nil _⟩
      · exact .inl ⟨_, _, _, _, _, h.afterSave saved logs, List.append_nil _⟩
  | failed failed logs _ =>
      obtain ⟨kept, placed', degraded⟩ := h.saveFailed ready failed logs
      exact .inr ⟨failed.dirty, _, _, _, _, _, _, _, degraded⟩

theorem Healthy.step_checkpoint
    (h : Healthy crc walCrc postcard exact db w.attempts paged mem stored placed entries)
    (ready : db.Ready postcard) (running : w.halted = false) (faults : Faults) :
    (w.checkpoint crc postcard db faults).Keeps crc walCrc postcard exact := by
  have spec := wp_doCheckpoint h.clean ready.fits h.logs faults
  rw [World.checkpoint]
  split
  · rename_i t run
    obtain ⟨outcome, _, flushed⟩ := spec.of_ok run
    obtain ⟨_, _, _, _, _, healthy, _⟩ | ⟨dirty, _⟩ := h.checkpointed ready outcome
    · exact .inl ⟨_, _, _, _, _, healthy⟩
    · rw [flushed] at dirty
      cases dirty
  · rename_i t run
    obtain ⟨outcome, _⟩ := spec.of_error run
    obtain ⟨_, _, _, _, _, healthy, _⟩ | ⟨dirty, degraded⟩ := h.checkpointed ready outcome
    · exact .inl ⟨_, _, _, _, _, healthy⟩
    · refine .inr ⟨?_, degraded⟩
      rw [running, dirty]
      rfl

theorem World.Keeps.write (h : w.Keeps crc walCrc postcard exact) {facts : Vec Fact} {txId : TxId}
    {faults : Faults} (up : w.process = .up db)
    (allowed : w.Writes walCrc postcard (db.withFaults faults) facts.val txId faults)
    (careful : exact →
      faults.walAppend = .none ∧ db.store.storage.facts.length + facts.val.length ≤ 2 ^ 32) :
    (w.write crc walCrc postcard (db.withFaults faults) facts.val txId faults).Keeps crc walCrc postcard
      exact := by
  have room := allowed.count
  rw [World.Keeps, up] at h
  rw [World.write]
  obtain ⟨paged, mem, stored, placed, entries, healthy⟩ |
    ⟨halted, paged, mem, saved, stored, placed, placed', entries, degraded⟩ := h
  · have healthy := healthy.withFaults faults
    have spec := wp_writeFacts healthy.logs facts txId faults
    split
    · rename_i due t run
      have written := healthy.written room (spec.of_ok run)
      split
      · rename_i due
        subst due
        obtain ⟨running, ready⟩ := allowed.ready t run
        exact Healthy.step_checkpoint (w := { w with process := .up t, attempts := _ }) written ready
          running faults
      · exact .inl ⟨_, _, _, _, _, written⟩
    · rename_i t run
      obtain ⟨stored', entries', failed⟩ := healthy.writeFailed room (spec.of_error run) careful
      exact .inl ⟨_, _, _, _, _, failed⟩
  · have degraded := degraded.withFaults faults
    have spec := wp_writeFacts degraded.logs facts txId faults
    split
    · rename_i due t run
      have written := degraded.written room (spec.of_ok run)
      split
      · rename_i due
        subst due
        have running := (allowed.ready t run).1
        rw [halted] at running
        cases running
      · exact .inr ⟨halted, _, _, _, _, _, _, _, written⟩
    · rename_i t run
      obtain ⟨stored', entries', failed⟩ := degraded.writeFailed room (spec.of_error run) careful
      exact .inr ⟨halted, _, _, _, _, _, _, _, failed⟩

theorem World.Keeps.open (h : w.Keeps crc walCrc postcard exact) {disk : Option (Disk C)}
    {walFile : Option (List UInt8)} (down : w.process = .down disk walFile)
    (vouched : Vouched crc postcard (diskOf crc disk)) (options : OpenOptions) (faults : Faults) :
    (w.open crc walCrc postcard disk walFile options faults).Keeps crc walCrc postcard exact := by
  rw [World.Keeps, down] at h
  obtain ⟨saved, stored, placed, entries, resting⟩ := h
  have spec := wp_openWithOptions resting.disk.sound (vouched placed resting.disk.sound) resting.logs
    resting.book.stamped (resting.book.ordered resting.disk.kept.ordered) options faults
  rw [World.open]
  split
  · rename_i t run
    obtain ⟨mem, healthy⟩ := resting.opened (spec.of_ok run)
    exact .inl ⟨_, _, _, _, _, healthy⟩
  · rename_i t run
    exact ⟨_, _, _, _, resting.openFailed (spec.of_error run)⟩

theorem World.Keeps.step (h : w.Keeps crc walCrc postcard exact) (op : DbOp)
    (allowed : w.Allows crc walCrc postcard op) (careful : exact → w.Intact op) :
    (w.step crc walCrc postcard op).Keeps crc walCrc postcard exact := by
  obtain ⟨process, attempts, halted⟩ := w
  cases process with
  | down disk walFile =>
      cases op with
      | openWithOptions options faults => exact h.open rfl allowed options faults
      | execute | commit | checkpoint | crash => exact h
  | up db =>
      cases op with
      | openWithOptions => exact h
      | execute facts txId faults => exact h.write rfl allowed careful
      | commit facts txId faults =>
          simp only [World.step]
          split
          · exact h.withFaults rfl faults
          · exact h.write rfl allowed careful
      | checkpoint faults =>
          obtain ⟨running, ready⟩ := allowed
          obtain ⟨paged, mem, stored, placed, entries, healthy⟩ := h.healthy rfl running
          exact (healthy.withFaults faults).step_checkpoint ⟨ready.fits, ready.unsplit⟩ running faults
      | crash =>
          obtain ⟨paged, mem, saved, stored, placed, placed', entries, degraded⟩ := h.degraded rfl
          exact ⟨_, _, _, _, degraded.crash⟩

/-! ## Reopening -/

/-- The facts in a log. -/
def walFacts (walCrc : List UInt8 → UInt32) (postcard : Postcard) (walFile : Option (List UInt8)) :
    List Fact :=
  match walFile with
  | none => []
  | some file => (Wal.scanEntries postcard.fact walCrc file).1.flatMap WalEntry.facts

/-- The files can be opened again: the checksum vouches for the pages, a rebuild of the
indexes stays within the file's offsets, and a replay within the slots of memory. -/
structure World.Reopenable (crc : Crc H C) (walCrc : List UInt8 → UInt32) (postcard : Postcard)
    (w : World H C) : Prop where
  vouched : Vouched crc postcard (diskOf crc w.process.files.1)
  pages : 5 + (diskOf crc w.process.files.1).header.pageCount +
    12 * (attemptFacts w.attempts).length ≤ PAGE_LIMIT
  log : (walFacts walCrc postcard w.process.files.2).length ≤ 2 ^ 32

theorem World.Keeps.resting (h : w.Keeps crc walCrc postcard exact) :
    ∃ saved stored placed entries, Resting crc walCrc postcard exact w.process.files.1
      w.process.files.2 w.attempts saved stored placed entries := by
  obtain ⟨process, attempts, halted⟩ := w
  cases process with
  | down disk walFile => exact h
  | up db =>
      obtain ⟨paged, mem, saved, stored, placed, placed', entries, degraded⟩ := h.degraded rfl
      exact ⟨_, _, _, _, degraded.crash⟩

omit [DecidableEq C] in
theorem walFacts_eq {walFile : Option (List UInt8)} (h : Holds postcard.fact walCrc entries walFile none) :
    walFacts walCrc postcard walFile = entries.flatMap WalEntry.facts := by
  cases walFile with
  | none =>
      cases h with
      | absent empty => rw [walFacts, empty, List.flatMap_nil]
  | some file => rw [walFacts, Holds.scan postcard.fact walCrc h]

/-- A process that dies at any time and is started again shows whole transactions: every
acknowledged one, and of the others some. -/
theorem World.Keeps.reopens (h : w.Keeps crc walCrc postcard exact)
    (room : w.Reopenable crc walCrc postcard) (options : OpenOptions) :
    ∃ t u seen, openWithOptions crc walCrc postcard .never
        (Db.init crc w.process.files.1 w.process.files.2 options .never) = .ok () t ∧
      allFacts crc postcard t.store = .ok (attemptFacts seen) u ∧
      Seen Attempt.acked w.attempts seen ∧ (exact → ∀ a ∈ seen, a.acked = true) := by
  obtain ⟨saved, stored, placed, entries, resting⟩ := h.resting
  have spec := wp_openWithOptions resting.disk.sound (room.vouched placed resting.disk.sound)
    resting.logs resting.book.stamped (resting.book.ordered resting.disk.kept.ordered) options .never
  have opens : Wp (openWithOptions crc walCrc postcard .never)
      (Db.init crc w.process.files.1 w.process.files.2 options .never)
      (fun _ t => Opened crc walCrc postcard (unopened crc w.process.files.1 options .never) placed
        entries t) (fun _ _ => False) := by
    refine spec.mono (fun _ _ opened => opened) fun _ t failed => ?_
    obtain fault | far | many | fault := failed.why
    · refine fault ?_
      rw [unopened]
      cases w.process.files.1 <;> rfl
    · rw [unopened_disk] at far
      have near := room.pages
      have within := resting.disk.sound.within
      have few : placed.length ≤ (attemptFacts w.attempts).length := by
        have onPages : placed.length = (attemptFacts saved).length := by
          rw [← resting.disk.facts, List.length_map]
        rw [onPages]
        refine List.Sublist.length_le ?_
        exact ((List.sublist_append_left saved _).trans resting.disk.kept.sound).flatMap _
      omega
    · have := room.log
      rw [walFacts_eq resting.logs] at this
      omega
    · exact fault rfl
  obtain ⟨_, t, run, opened⟩ := opens.exists_ok
  obtain ⟨mem, healthy⟩ := resting.opened opened
  obtain ⟨facts, u, shown, same, _⟩ := (healthy.clean.wp_allFacts crc).exists_ok
  refine ⟨t, u, saved ++ mem, run, ?_, healthy.live.seen, fun calm a ha => ?_⟩
  · rw [attemptFacts_append, ← healthy.facts, ← healthy.pending, ← same]
    exact shown
  · exact healthy.degraded.book.acked calm a (List.mem_append_left _ ha)

/-- After any run in which no append to the log was torn, a process that dies, in the
middle of a checkpoint or anywhere else, and is started again shows exactly the facts of
the committed transactions. -/
theorem World.reopen_exact
    (run : Run crc walCrc postcard
      (fun w op => w.Allows crc walCrc postcard op ∧ w.Intact op) World.start w)
    (room : w.Reopenable crc walCrc postcard) (options : OpenOptions) :
    ∃ t u, openWithOptions crc walCrc postcard .never
        (Db.init crc w.process.files.1 w.process.files.2 options .never) = .ok () t ∧
      allFacts crc postcard t.store = .ok (attemptFacts (w.attempts.filter Attempt.acked)) u := by
  have keeps : w.Keeps crc walCrc postcard True :=
    run.invariant .start fun u op h allowed => h.step op allowed.1 fun _ => allowed.2
  obtain ⟨t, u, seen, opened, shown, ledger, only⟩ := keeps.reopens room options
  refine ⟨t, u, opened, ?_⟩
  rw [← ledger.exact (only trivial)]
  exact shown

end Recovery

/-! ## One write -/

section OneWrite

theorem Db.fresh_logs (threshold : Nat) : (Db.fresh threshold).Logs crc32 Postcard.standard [] := .absent rfl

theorem Db.fresh_countable (threshold : Nat) : (Db.fresh threshold).Countable := by
  rw [Db.Countable]
  exact (by decide : 0 + 1 < 2 ^ 64)

/-- A write of small facts to new files succeeds. -/
theorem Db.fresh_writes (threshold : Nat) (facts : Vec Fact) (txId : TxId)
    (small : ∀ f ∈ facts.val, Postcard.factBytes f ≤ 3900) (few : facts.val.length ≤ 2 ^ 32) :
    ∃ db, writeFacts crc32 Postcard.standard facts.val txId .never (Db.fresh threshold) =
        .ok (decide (1 ≥ threshold)) db ∧
      Written crc32 Postcard.standard (Db.fresh threshold) [] ((Db.fresh threshold).entry facts.val txId)
        (decide (1 ≥ threshold)) db := by
  have fits : ∀ f ∈ ((Db.fresh threshold).entry facts.val txId).facts, f.Fits Postcard.standard.fact := by
    intro f hf
    obtain ⟨g, hg, rfl⟩ := List.mem_map.mp hf
    exact Postcard.fits (small g hg)
  obtain ⟨due, db, run⟩ := writeFacts_fresh rfl rfl fits ((Nat.zero_add _).trans_le few)
  have written := (wp_writeFacts (Db.fresh_logs threshold) facts txId .never).of_ok run
  have flag : due = decide (1 ≥ threshold) := by
    rw [written.due, written.count]
    rfl
  rw [flag] at run written
  exact ⟨db, run, written⟩

theorem oneFact_small : Postcard.factBytes oneFact ≤ 3900 := by decide

/-- Facts of different keys, none of which is known, are all new. -/
theorem freshFacts_of_nodup {known : List PendingKey} {facts : List Fact}
    (apart : (facts.map pendingKey).Nodup) (new : ∀ f ∈ facts, pendingKey f ∉ known) :
    freshFacts known facts = facts := by
  induction facts generalizing known with
  | nil => rfl
  | cons f facts ih =>
      obtain ⟨first, rest⟩ := List.nodup_cons.mp apart
      rw [freshFacts, if_neg (new f List.mem_cons_self), ih rest]
      intro g hg
      rw [List.mem_cons, not_or]
      exact ⟨fun same => first (same ▸ List.mem_map_of_mem hg), new g (List.mem_cons_of_mem _ hg)⟩

theorem newFacts_numbered {count : Nat} (few : count ≤ 2 ^ 128) (txId : TxId) (txCount : UInt64) :
    newFacts ⟨txCount, (numberedFacts count).map (stamp txId txCount)⟩ =
      (numberedFacts count).map (stamp txId txCount) := by
  refine freshFacts_of_nodup ?_ fun _ _ => List.not_mem_nil
  rw [List.map_map]
  exact numberedFacts_nodup few fun _ _ same => congrArg PendingKey.entity same

/-- A thousand facts that were written, lost with the process and replayed from the log. -/
theorem World.reopen_exact_thousand : ∃ db t u,
    writeFacts crc32 Postcard.standard (numberedFacts 1000) 5 .never (Db.fresh 1000) = .ok false db ∧
    openWithOptions Crc.lossless crc32 Postcard.standard .never
      (Db.init Crc.lossless (some db.store.dev.disk) db.walFile ⟨1000, 64, .full⟩ .never) = .ok () t ∧
    allFacts Crc.lossless Postcard.standard t.store = .ok ((numberedFacts 1000).map (stamp 5 1)) u := by
  have length := length_numberedFacts 1000
  have bound : (numberedFacts 1000).length < 2 ^ 64 := by
    rw [length]
    decide
  obtain ⟨db, wrote, written⟩ := Db.fresh_writes 1000 ⟨numberedFacts 1000, bound⟩ 5
    (fun f hf => numberedFacts_small hf) (by rw [length]; decide)
  have vouched := Crc.lossless_collisionless.vouched Postcard.standard
  have later : ∀ t, writeFacts crc32 Postcard.standard (numberedFacts 1000) 5 .never (Db.fresh 1000) ≠ .ok true t := by
    intro t due
    rw [wrote] at due
    cases due
  have opened : Run Crc.lossless crc32 Postcard.standard
      (fun w op => w.Allows Crc.lossless crc32 Postcard.standard op ∧ w.Intact op) World.start
      (World.fresh 1000) := World.fresh_run 1000 ⟨vouched _, trivial⟩
  have run := opened.step (.execute ⟨numberedFacts 1000, bound⟩ 5 .never)
    ⟨⟨Db.fresh_countable 1000, fun t due => absurd due (later t)⟩, rfl, by
      show 0 + (numberedFacts 1000).length ≤ 2 ^ 32
      rw [length]
      decide⟩
  rw [World.step_execute rfl rfl wrote] at run
  have crashed := run.step .crash ⟨trivial, trivial⟩
  have recorded : attemptFacts (attemptOf ((Db.fresh 1000).entry (numberedFacts 1000) 5) true) =
      (numberedFacts 1000).map (stamp 5 1) :=
    (attemptFacts_attemptOf _ true).trans (newFacts_numbered (by decide) 5 1)
  have acked : (attemptOf ((Db.fresh 1000).entry (numberedFacts 1000) 5) true).filter Attempt.acked =
      attemptOf ((Db.fresh 1000).entry (numberedFacts 1000) 5) true := by
    unfold attemptOf
    split <;> rfl
  have room : World.Reopenable Crc.lossless crc32 Postcard.standard ⟨.down (some db.store.dev.disk) db.walFile,
      attemptOf ((Db.fresh 1000).entry (numberedFacts 1000) 5) true, false⟩ := by
    refine ⟨vouched _, ?_, ?_⟩
    · have disk : db.store.dev.disk = (Dev.create Crc.lossless 64 none).disk := by
        rw [written.store]
        rfl
      simp only [Process.files, diskOf, Option.getD_some, disk, recorded, List.length_map, length]
      decide
    · have logs := Holds.crash _ _ written.logs
      simp only [Process.files, walFacts_eq logs, List.nil_append, List.flatMap_singleton, Db.entry,
        List.length_map, length]
      decide
  obtain ⟨t, u, reopened, shown⟩ := World.reopen_exact crashed room ⟨1000, 64, .full⟩
  refine ⟨db, t, u, wrote, reopened, ?_⟩
  rw [← recorded, ← acked]
  exact shown

end OneWrite

/-! ## A transaction over two pages -/

section Torn

variable {H C : Type} (crc : Crc H C) (postcard : Postcard)

/-- The device of a new file after one page was written and the next was not. -/
def Dev.cutShort (capacity : Nat) (page : Page) : Dev C :=
  let header := (FileHeader.new crc).grown crc 2
  { disk := ⟨header, 2, Function.update (fun _ => Block.zeros PAGE_SIZE) 1 page⟩
    header := header
    isNew := true
    cache := .new capacity
    faults := none }

theorem save_cut_short {s : Store H C} {capacity : Nat} (dirty : s.dirty = true)
    (dev : s.dev = Dev.create crc capacity (some 3)) (none_ : s.committedFactPages = 0)
    {page page' : Page} {pages : List Page} {refs : List FactRef}
    (packed : packFacts postcard.fact s.storage.facts 1 = .ok (page :: page' :: pages, refs)) :
    save crc postcard s = .error .io { s with dev := Dev.cutShort crc capacity page } := by
  obtain ⟨dev', storage, dirty', last, committed, cached⟩ := s
  subst dev dirty none_
  have header : currentHeader crc (Dev.create crc capacity (some 3)) =
      .ok (FileHeader.new crc) (Dev.create crc capacity (some 3)) := rfl
  have leaves : collectOldLeaves crc (FileHeader.new crc) (Dev.create crc capacity (some 3)) =
      .ok ⟨[], [], [], []⟩ (Dev.create crc capacity (some 3)) := rfl
  have cache : { (Dev.create crc capacity (some 3) : Dev C) with
      cache := (PageCache.new capacity).invalidateFrom 1 } = Dev.create crc capacity (some 3) := rfl
  simp only [save, bind, EStateM.bind, get, getThe, MonadStateOf.get, EStateM.get_at, Bool.not_true,
    Bool.false_eq_true, if_false, onDev, zoom, header, leaves, modify, modifyGet,
    MonadStateOf.modifyGet, EStateM.modifyGet_at, Nat.add_zero, packed, ofResult, pure, EStateM.pure]
  rfl

end Torn

section Split

/-- A text of more than half a page. -/
@[irreducible] def longText : String := String.ofList (List.replicate 2500 'a')

theorem textBytes_replicate (n : Nat) :
    Postcard.textBytes (String.ofList (List.replicate n 'a')) = n := by
  have one : 'a'.utf8Size = 1 := rfl
  simp [Postcard.textBytes, String.toUTF8, List.utf8Encode, one]

theorem textBytes_longText : Postcard.textBytes longText = 2500 := by
  have size := textBytes_replicate 2500
  unfold longText
  exact size

def bulkyFact (entity : EntityId) : Fact :=
  ⟨entity, longText, .null, 0, 0, VALID_FROM_USE_TX_TIME, VALID_TIME_FOREVER, true⟩

/-- The facts of one transaction, as they are written. -/
def splitFacts : List Fact := [stamp 5 1 (bulkyFact 0), stamp 5 1 (bulkyFact 1)]

theorem splitFacts_attr : ∀ f ∈ splitFacts, Postcard.textBytes f.attr = 2500 ∧ f.value = .null := by
  intro f hf
  simp only [splitFacts, List.mem_cons, List.not_mem_nil, or_false] at hf
  rcases hf with rfl | rfl <;> exact ⟨textBytes_longText, rfl⟩

theorem splitFacts_small : ∀ f ∈ splitFacts, Postcard.factBytes f ≤ 3900 := by
  intro f hf
  obtain ⟨attr, value⟩ := splitFacts_attr f hf
  rw [Postcard.factBytes, attr, value]
  decide

theorem splitFacts_large : ∀ f ∈ splitFacts, 2500 < (Postcard.standard.fact.encode f).length := by
  intro f hf
  obtain ⟨attr, _⟩ := splitFacts_attr f hf
  have size := Serial.length_bytes f.attr.toUTF8.data.toList
  have text : (Serial.text.put f.attr).length = (Serial.bytes.put f.attr.toUTF8.data.toList).length := rfl
  have id := Postcard.length_uuid f.entity
  rw [Postcard.textBytes] at attr
  simp only [Postcard.standard, Serial.codec, Postcard.factFields, Serial.via, Serial.pair,
    List.length_append]
  omega

theorem packedFull_half {a b : Nat} (ha : 2500 < a) (hb : 2500 < b) :
    packedFull (PageFill.one a) b = true := by
  have large : b > PAGE_SIZE - a - (PACKED_HEADER_SIZE + 4 * 1 + 4) := by
    simp only [PAGE_SIZE, PACKED_HEADER_SIZE]
    omega
  simp only [packedFull, PageFill.one, large, decide_true, Bool.true_or]

theorem packGroups_split : packGroups Postcard.standard.fact splitFacts =
    [[stamp 5 1 (bulkyFact 0)], [stamp 5 1 (bulkyFact 1)]] := by
  have full := packedFull_half (splitFacts_large (stamp 5 1 (bulkyFact 0)) List.mem_cons_self)
    (splitFacts_large (stamp 5 1 (bulkyFact 1)) (List.mem_cons_of_mem _ List.mem_cons_self))
  simp only [packGroups, splitFacts, Greedy.groups, Greedy.fill, full, if_true, List.map_cons,
    List.map_nil, Greedy.members]

theorem newFacts_split : newFacts ⟨1, splitFacts⟩ = splitFacts := by
  have apart : pendingKey (stamp 5 1 (bulkyFact 1)) ≠ pendingKey (stamp 5 1 (bulkyFact 0)) := by
    intro same
    have entities := congrArg PendingKey.entity same
    exact absurd entities (by decide)
  simp [newFacts, splitFacts, freshFacts, apart]

def splitCommand : Vec Fact := ⟨[bulkyFact 0, bulkyFact 1], by decide⟩

/-- The handle after the transaction of two bulky facts. -/
structure SplitWritten (db : Db (List UInt8) (List UInt8)) : Prop where
  run : writeFacts crc32 Postcard.standard splitCommand.val 5 .never (Db.fresh 1000) = .ok false db
  dev : db.store.dev = Dev.create Crc.lossless 64 none
  pages : db.store.committedFactPages = 0
  dirty : db.store.dirty = true
  facts : db.store.storage.facts = splitFacts
  logs : db.Logs crc32 Postcard.standard [⟨1, splitFacts⟩]
  clean : db.store.Clean Crc.lossless Postcard.standard []

theorem splitCommand_small : ∀ f ∈ splitCommand.val, Postcard.factBytes f ≤ 3900 := by
  intro f hf
  have size : Postcard.textBytes f.attr = 2500 ∧ f.value = .null := by
    simp only [splitCommand, List.mem_cons, List.not_mem_nil, or_false] at hf
    rcases hf with rfl | rfl <;> exact ⟨textBytes_longText, rfl⟩
  rw [Postcard.factBytes, size.1, size.2]
  decide

theorem splitCommand_entry : (Db.fresh 1000).entry splitCommand.val 5 = ⟨1, splitFacts⟩ := rfl

theorem exists_splitWritten : ∃ db, SplitWritten db := by
  obtain ⟨db, run, written⟩ := Db.fresh_writes 1000 splitCommand 5 splitCommand_small (by decide)
  rw [splitCommand_entry] at written
  have clean := (Store.Clean.create 64 none :
    (Store.init (Dev.create Crc.lossless 64 none)).Clean Crc.lossless Postcard.standard [])
  have counted : (Db.fresh 1000).counted.Ok := ⟨clean.pending.keys, clean.pending.indexes⟩
  refine ⟨db, run, by rw [written.store]; rfl, by rw [written.store]; rfl, by rw [written.store],
    ?_, written.logs, ?_⟩
  · exact written.appended.facts.trans newFacts_split
  · rw [written.store]
    exact clean.withStorage written.appended.committed written.appended.reader
      (written.appended.ok counted) true

/-- Three writes succeed and the next one fails. -/
def Faults.afterThree : Faults := ⟨.none, .none, .none, some 3⟩

/-- The checkpoint that writes the first page of the transaction and not the second. -/
theorem SplitWritten.cut_short {db : Db (List UInt8) (List UInt8)} (h : SplitWritten db) :
    ∃ page t, doCheckpoint Crc.lossless Postcard.standard .afterThree (db.withFaults .afterThree) =
        .error .io t ∧
      t.store.dev = Dev.cutShort Crc.lossless 64 page ∧ t.walFile = db.walFile ∧
      PackedPage page ([stamp 5 1 (bulkyFact 0)].map Postcard.standard.fact.encode) ∧
      ∃ placed, t.store.dev.disk.Sound Crc.lossless Postcard.standard placed := by
  have facts : (db.withFaults .afterThree).store.storage.facts = splitFacts := h.facts
  obtain ⟨pages, packed⟩ := packFacts_fits Postcard.standard.fact
    (fun f hf => Postcard.fits (splitFacts_small f hf)) 1
  obtain ⟨_, each, _⟩ := packFacts_ok Postcard.standard.fact packed
  rw [packGroups_split] at each
  obtain ⟨page, rest, first, more, rfl⟩ := List.forall₂_cons_left_iff.mp each
  obtain ⟨page', rest, _, _, rfl⟩ := List.forall₂_cons_left_iff.mp more
  let s : Store (List UInt8) (List UInt8) := { (db.withFaults .afterThree).store with dirty := true }
  have dev : s.dev = Dev.create Crc.lossless 64 (some 3) := by
    have same : s.dev = { db.store.dev with faults := some 3 } := rfl
    rw [same, h.dev]
    rfl
  have packed' : packFacts Postcard.standard.fact s.storage.facts 1 = .ok (page :: page' :: rest, _) :=
    (congrArg (fun l => packFacts Postcard.standard.fact l 1) facts).trans packed
  have saved := save_cut_short Crc.lossless Postcard.standard rfl dev h.pages packed'
  have clean : s.Clean Crc.lossless Postcard.standard [] :=
    (h.clean.withDev (h.clean.okay.withFaults (some 3)) rfl rfl).withStorage rfl rfl h.clean.pending true
  have roomy : s.Roomy Postcard.standard := by
    refine Store.roomy_of_small (fun f hf => splitFacts_small f ?_) ?_
    · rwa [← facts]
    · have few : s.storage.facts.length = 2 := congrArg List.length facts
      have pages : s.committedFactPages = 0 := h.pages
      rw [few, pages, dev]
      decide
  have torn := ((clean.wp_save rfl roomy.fits).of_error saved).torn
  refine ⟨page, { (db.withFaults .afterThree) with
    store := { s with dev := Dev.cutShort Crc.lossless 64 page } }, ?_, rfl, rfl, first, ?_⟩
  · have due : ¬ ((db.withFaults .afterThree).walEntryCount = 0 ∧
        (db.withFaults .afterThree).store.dirty = false) := by
      rintro ⟨_, no⟩
      exact absurd (h.dirty.symm.trans no) (by decide)
    simp only [doCheckpoint, bind, EStateM.bind, get, getThe, MonadStateOf.get, EStateM.get_at,
      if_neg due, onStore, zoom, markDirty, modify, modifyGet, MonadStateOf.modifyGet,
      EStateM.modifyGet_at]
    rw [saved]
  · obtain ⟨sound, _⟩ | ⟨_, _, m, sound⟩ | ⟨sound, _⟩ := torn.sound clean roomy.fits
    · exact ⟨_, sound⟩
    · exact ⟨_, sound⟩
    · exact ⟨_, sound⟩

/-- A file with no header but the first page of a transaction, and the log beside it. -/
theorem reopen_cut_short {disk : Disk (List UInt8)} {page : Page} {walFile : Option (List UInt8)}
    (here : disk = (Dev.cutShort Crc.lossless 64 page).disk)
    (packed : PackedPage page ([stamp 5 1 (bulkyFact 0)].map Postcard.standard.fact.encode))
    {placed : List (Fact × FactRef)} (sound : disk.Sound Crc.lossless Postcard.standard placed)
    (logs : Holds Postcard.standard.fact crc32 [⟨1, splitFacts⟩] walFile none) (options : OpenOptions) :
    ∃ t u, openWithOptions Crc.lossless crc32 Postcard.standard .never
        (Db.init Crc.lossless (some disk) walFile options .never) = .ok () t ∧
      allFacts Crc.lossless Postcard.standard t.store = .ok [stamp 5 1 (bulkyFact 0)] u := by
  have factPages : disk.header.factPages = 1 := by
    rw [here]
    rfl
  have rebuilds : disk.rebuilds Crc.lossless = true := by
    rw [here]
    rfl
  have only : placed = [(stamp 5 1 (bulkyFact 0), ⟨1, 0⟩)] := by
    have read := sound.facts
    have pages : pagesFrom disk.page 1 1 = [page] := by
      rw [here]
      rfl
    rw [factPages, pages, readPageList_packed Postcard.standard.fact 1 (.cons packed .nil)] at read
    injection read with read
    exact read.symm
  have stamped : ∀ e ∈ [(⟨1, splitFacts⟩ : WalEntry)], Stamped e := by
    intro e he
    rw [List.mem_singleton] at he
    subst he
    intro f hf
    simp only [splitFacts, List.mem_cons, List.not_mem_nil, or_false] at hf
    rcases hf with rfl | rfl <;> rfl
  have trusted := sound.trusted Crc.lossless_collisionless
  have sound' : (diskOf Crc.lossless (some disk)).Sound Crc.lossless Postcard.standard placed := sound
  have opens : Wp (openWithOptions Crc.lossless crc32 Postcard.standard .never)
      (Db.init Crc.lossless (some disk) walFile options .never)
      (fun _ t => Opened Crc.lossless crc32 Postcard.standard
        (unopened Crc.lossless (some disk) options .never) placed [⟨1, splitFacts⟩] t)
      (fun _ _ => False) := by
    refine (wp_openWithOptions sound' trusted logs stamped (List.pairwise_singleton _ _) options
      .never).mono (fun _ _ opened => opened) fun _ t failed => ?_
    obtain fault | far | many | fault := failed.why
    · exact fault rfl
    · have pages : (unopened Crc.lossless (some disk) options .never).dev.disk.header.factPages = 1 :=
        factPages
      rw [pages, only] at far
      exact absurd far (by decide)
    · exact absurd many (by decide)
    · exact fault rfl
  obtain ⟨_, t, run, opened⟩ := opens.exists_ok
  obtain ⟨v, loaded, store, replayed⟩ := opened.loaded
  have last : v.lastCheckpointedTxCount = 1 := by
    have again : (unopened Crc.lossless (some disk) options .never).dev.disk.rebuilds Crc.lossless = true :=
      rebuilds
    rw [loaded.last, again, only]
    rfl
  have nothing : t.store.storage.facts = [] := by
    rw [replayed.facts, last]
    rfl
  have clean : t.store.Clean Crc.lossless Postcard.standard placed := by
    rw [store]
    exact loaded.clean.withStorage replayed.committed replayed.reader replayed.ok v.dirty
  obtain ⟨facts, u, shown, rfl, _⟩ := (clean.wp_allFacts Crc.lossless).exists_ok
  refine ⟨t, u, run, ?_⟩
  rw [shown, nothing, only]
  rfl

theorem attemptFacts_acked (entry : WalEntry) :
    attemptFacts ([⟨entry, true⟩].filter Attempt.acked) = newFacts entry := by
  simp [attemptFacts]

/-- A transaction whose facts take two pages, logged and acknowledged; a first checkpoint
that writes one of them; a crash; and on reopening the other fact is gone. -/
theorem World.reopen_split_lost : ∃ w t u,
    Run Crc.lossless crc32 Postcard.standard (fun _ _ => True) World.start w ∧
    attemptFacts (w.attempts.filter Attempt.acked) = splitFacts ∧
    openWithOptions Crc.lossless crc32 Postcard.standard .never
      (Db.init Crc.lossless w.process.files.1 w.process.files.2 ⟨1000, 64, .full⟩ .never) = .ok () t ∧
    allFacts Crc.lossless Postcard.standard t.store = .ok [stamp 5 1 (bulkyFact 0)] u := by
  obtain ⟨db, written⟩ := exists_splitWritten
  obtain ⟨page, cut, stopped, dev, log, packed, placed, sound⟩ := written.cut_short
  have opened : Run Crc.lossless crc32 Postcard.standard (fun _ _ => True) World.start
      (World.fresh 1000) := World.fresh_run 1000 trivial
  have wrote := opened.step (.execute splitCommand 5 .never) trivial
  rw [World.step_execute rfl rfl written.run] at wrote
  have torn := wrote.step (.checkpoint .afterThree) trivial
  rw [World.step_checkpoint rfl stopped] at torn
  have logs : Holds Postcard.standard.fact crc32 [⟨1, splitFacts⟩] cut.walFile none := by
    rw [log]
    exact Holds.crash _ _ written.logs
  obtain ⟨t, u, reopened, shown⟩ := reopen_cut_short (by rw [dev]) packed sound logs ⟨1000, 64, .full⟩
  refine ⟨_, t, u, torn, ?_, reopened, shown⟩
  have some_ : splitFacts ≠ [] := List.cons_ne_nil _ _
  simp only [World.fresh, splitCommand_entry, attemptOf, some_, if_false, List.nil_append,
    attemptFacts_acked, newFacts_split]

end Split
end Minigraf
