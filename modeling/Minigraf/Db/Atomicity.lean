import Minigraf.Db.Recovery
import Minigraf.Storage.Transparency

/-!
An error means not applied: a write that fails changes nothing that readers see, one that
succeeds is seen whole, and after any later crash a failed one is there whole or not at
all. The exception is a write whose automatic checkpoint fails, which is applied and yet
reported as an error.
-/

namespace Minigraf

open EStateM Wal Ledger

section Atomicity

variable {H C : Type} {crc : Crc H C} {walCrc : List UInt8 → UInt32} {postcard : Postcard}
  {exact : Prop} {db t : Db H C} {attempts paged mem saved stored : List Attempt}
  {placed placed' : List (Fact × FactRef)} {entries : List WalEntry} {w : World H C}

/-- Every fact in a log is small enough for a page. -/
theorem Holds.fits {file : Option (List UInt8)} {writer : Option WalWriter}
    (h : Holds postcard.fact walCrc entries file writer) :
    ∀ e ∈ entries, ∀ f ∈ e.facts, f.Fits postcard.fact := by
  intro e he f hf
  cases h with
  | absent empty | short empty =>
      rw [empty] at he
      cases he
  | entries encodings tail _ whole _ _ =>
      obtain ⟨bytes, _, _, encoded⟩ := whole.exists_right he
      obtain ⟨records, hrecords, _⟩ := serializeEntry_ok postcard.fact walCrc encoded
      obtain ⟨record, _, hrecord⟩ := (List.forall₂_of_mapM_ok hrecords).exists_right hf
      exact (factRecord_ok postcard.fact hrecord).1

variable [DecidableEq C]

theorem Healthy.pendingFits
    (h : Healthy crc walCrc postcard exact db attempts paged mem stored placed entries) :
    ∀ f ∈ db.store.storage.facts, f.Fits postcard.fact := by
  intro f hf
  rw [h.pending] at hf
  obtain ⟨a, ha, hf⟩ := List.mem_flatMap.mp hf
  have logged : a ∈ stored := (above_sublist _ _).subset (h.live.logged.subset ha)
  have entry : a.entry ∈ entries.filter fun e => !e.facts.isEmpty := by
    rw [h.book.logged]
    exact List.mem_map_of_mem logged
  exact Holds.fits h.logs a.entry (List.mem_filter.mp entry).1 f (mem_freshFacts hf).1

/-- What a handle shows. -/
theorem Degraded.shows (h : Degraded crc walCrc postcard exact db attempts paged mem saved stored placed
    placed' entries) : ∃ u, allFacts crc postcard db.store = .ok (attemptFacts (paged ++ mem)) u := by
  obtain ⟨facts, u, shown, rfl, _⟩ := (h.readable.wp_allFacts crc).exists_ok
  refine ⟨u, ?_⟩
  rw [attemptFacts_append, ← h.facts, ← h.pending]
  exact shown

/-- A checkpoint that meets no fault and finds room succeeds. -/
theorem Healthy.checkpoint_ok
    (h : Healthy crc walCrc postcard exact db attempts paged mem stored placed entries)
    (room : db.store.Roomy postcard) {faults : Faults} (calm : db.store.dev.faults = none)
    (deletes : faults.walDelete = .none) :
    ∃ t, doCheckpoint crc postcard faults db = .ok () t ∧
      Checkpointed crc walCrc postcard db placed entries t ∧ t.store.dirty = false := by
  have spec := wp_doCheckpoint h.clean room.fits h.logs faults
  have ends : Wp (doCheckpoint crc postcard faults) db
      (fun _ t => Checkpointed crc walCrc postcard db placed entries t ∧ t.store.dirty = false)
      (fun _ _ => False) := by
    refine spec.mono (fun _ t done => ⟨done.1, done.2.2⟩) ?_
    rintro _ t ⟨_, _, fault | fault | limits⟩
    · exact fault deletes
    · exact fault calm
    · obtain ⟨f, hf, large⟩ := h.clean.limits room limits
      exact large (h.pendingFits f hf)
  obtain ⟨_, t, run, done⟩ := ends.exists_ok
  exact ⟨t, run, done⟩

/-- The checkpoint a write triggers, if it does, meets no fault and finds room. -/
def Db.Untroubled (walCrc : List UInt8 → UInt32) (postcard : Postcard) (db : Db H C) (facts : List Fact)
    (txId : TxId) (faults : Faults) : Prop :=
  ∀ t, writeFacts walCrc postcard facts txId faults db = .ok true t →
    faults.pages = none ∧ faults.walDelete = .none ∧ t.store.Roomy postcard

/-- What `execute` returns, what it leaves to see, and what is recorded of it. -/
structure Atomic (crc : Crc H C) (postcard : Postcard) (before : List Fact) (entry : WalEntry) (b : Bool)
    (result : EStateM.Result ErrorCode (Db H C) Unit) : Prop where
  applied : ∀ t, result = .ok () t →
    b = true ∧ ∃ v, allFacts crc postcard t.store = .ok (before ++ newFacts entry) v
  refused : ∀ e t, result = .error e t →
    b = false ∧ ∃ v, allFacts crc postcard t.store = .ok before v

omit [DecidableEq C] in
theorem World.checkpoint_attempts (w : World H C) (db : Db H C) (faults : Faults) :
    (w.checkpoint crc postcard db faults).attempts = w.attempts := by
  rw [World.checkpoint]
  split <;> rfl

theorem attemptFacts_written (paged mem : List Attempt) (entry : WalEntry) :
    attemptFacts (paged ++ (mem ++ attemptOf entry true)) =
      attemptFacts (paged ++ mem) ++ newFacts entry := by
  rw [← List.append_assoc, attemptFacts_append, attemptFacts_attemptOf]

section Branches

variable {facts : List Fact} {txId : TxId} {faults : Faults}

omit [DecidableEq C] in
theorem execute_error {e : ErrorCode}
    (run : writeFacts walCrc postcard facts txId faults db = .error e t) :
    execute crc walCrc postcard facts txId faults db = .error e t ∧
      (w.write crc walCrc postcard db facts txId faults).attempts =
        w.attempts ++ attemptOf (db.entry facts txId) false := by
  simp only [execute, bind, EStateM.bind, World.write, run, and_self]

omit [DecidableEq C] in
theorem execute_ok {due : Bool} (run : writeFacts walCrc postcard facts txId faults db = .ok due t) :
    execute crc walCrc postcard facts txId faults db =
        (if due then doCheckpoint crc postcard faults else pure ()) t ∧
      (w.write crc walCrc postcard db facts txId faults).attempts =
        w.attempts ++ attemptOf (db.entry facts txId) true := by
  simp only [execute, bind, EStateM.bind, World.write, run, true_and]
  split
  · rw [World.checkpoint_attempts]
  · rfl

end Branches

omit [DecidableEq C] in
theorem Db.entry_withFaults (db : Db H C) (faults : Faults) (facts : List Fact) (txId : TxId) :
    (db.withFaults faults).entry facts txId = db.entry facts txId := rfl

/-- A write, and the checkpoint it may trigger, is applied or refused whole. -/
theorem World.Keeps.execute_atomic (h : w.Keeps crc walCrc postcard exact) {facts : Vec Fact}
    {txId : TxId} {faults : Faults} (up : w.process = .up db)
    (allowed : w.Writes walCrc postcard (db.withFaults faults) facts.val txId faults)
    (untroubled : (db.withFaults faults).Untroubled walCrc postcard facts.val txId faults)
    (careful : exact →
      faults.walAppend = .none ∧ db.store.storage.facts.length + facts.val.length ≤ 2 ^ 32) :
    ∃ before u b, allFacts crc postcard db.store = .ok before u ∧
      Atomic crc postcard before (db.entry facts.val txId) b
        (execute crc walCrc postcard facts.val txId faults (db.withFaults faults)) ∧
      (w.write crc walCrc postcard (db.withFaults faults) facts.val txId faults).attempts =
        w.attempts ++ attemptOf (db.entry facts.val txId) b := by
  have room := allowed.count
  obtain ⟨paged, mem, saved, stored, placed, placed', entries, degraded⟩ := h.degraded up
  obtain ⟨u, shown⟩ := degraded.shows
  have degraded := degraded.withFaults faults
  have spec := wp_writeFacts degraded.logs facts txId faults
  refine ⟨attemptFacts (paged ++ mem), u, ?_⟩
  cases run : writeFacts walCrc postcard facts.val txId faults (db.withFaults faults) with
  | error e t =>
      obtain ⟨result, attempts⟩ := @execute_error H C crc walCrc postcard _ _ w _ _ _ _ run
      rw [Db.entry_withFaults] at attempts
      obtain ⟨stored', entries', failed⟩ := degraded.writeFailed room (spec.of_error run) careful
      rw [result]
      refine ⟨false, shown, ⟨(fun _ no => nomatch no), ?_⟩, attempts⟩
      rintro _ _ ⟨⟩
      exact ⟨rfl, failed.shows⟩
  | ok due t =>
      obtain ⟨result, attempts⟩ := @execute_ok H C crc walCrc postcard _ _ w _ _ _ _ run
      rw [Db.entry_withFaults] at attempts
      cases due with
      | false =>
          have result : execute crc walCrc postcard facts.val txId faults (db.withFaults faults) =
              .ok () t := result.trans (by rw [if_neg Bool.false_ne_true]; rfl)
          rw [result]
          refine ⟨true, shown, ⟨?_, fun _ _ no => nomatch no⟩, attempts⟩
          rintro _ ⟨⟩
          rw [← attemptFacts_written]
          exact ⟨rfl, (degraded.written room (spec.of_ok run)).shows⟩
      | true =>
          -- Only a handle on which no save failed gets here.
          obtain ⟨running, ready⟩ := allowed.ready t run
          obtain ⟨paged', mem', stored', placed', entries', healthy⟩ := h.healthy up running
          have same : attemptFacts (paged' ++ mem') = attemptFacts (paged ++ mem) := by
            obtain ⟨v, shown'⟩ := healthy.degraded.shows
            rw [shown] at shown'
            injection shown' with same
            exact same.symm
          have healthy := healthy.withFaults faults
          have done := (wp_writeFacts healthy.logs facts txId faults).of_ok run
          have written := healthy.written room done
          obtain ⟨calm, deletes, roomy⟩ := untroubled t run
          have quiet : t.store.dev.faults = none := by
            rw [done.store]
            exact calm
          obtain ⟨t', flush, outcome, flushed⟩ := written.checkpoint_ok roomy quiet deletes
          have result := result.trans ((congrFun (if_pos rfl) t).trans flush)
          rw [result]
          refine ⟨true, shown, ⟨?_, fun _ _ no => nomatch no⟩, attempts⟩
          rintro _ ⟨⟩
          obtain ⟨_, _, _, _, _, after, kept⟩ | ⟨dirty, _⟩ := written.checkpointed ready outcome
          · obtain ⟨v, shown'⟩ := after.degraded.shows
            rw [kept, attemptFacts_written, same] at shown'
            exact ⟨rfl, v, shown'⟩
          · rw [flushed] at dirty
            cases dirty

/-! ## Later runs -/

/-- Attempts are only ever added. -/
theorem World.step_attempts (w : World H C) (op : DbOp) :
    ∃ more, (w.step crc walCrc postcard op).attempts = w.attempts ++ more := by
  have wrote (db : Db H C) (facts : List Fact) (txId : TxId) (faults : Faults) :
      ∃ more, (w.write crc walCrc postcard db facts txId faults).attempts = w.attempts ++ more := by
    rw [World.write]
    split
    · split
      · exact ⟨_, World.checkpoint_attempts _ _ _⟩
      · exact ⟨_, rfl⟩
    · exact ⟨_, rfl⟩
  have same : ∃ more, w.attempts = w.attempts ++ more := ⟨[], (List.append_nil _).symm⟩
  obtain ⟨process, attempts, halted⟩ := w
  cases process with
  | down disk walFile =>
      cases op with
      | openWithOptions options faults =>
          simp only [World.step, World.open]
          split <;> exact same
      | execute | commit | checkpoint | crash => exact same
  | up db =>
      cases op with
      | openWithOptions | crash => exact same
      | execute facts txId faults => exact wrote _ _ _ _
      | commit facts txId faults =>
          simp only [World.step]
          split
          · exact same
          · exact wrote _ _ _ _
      | checkpoint faults =>
          simp only [World.step, World.checkpoint_attempts]
          exact same

theorem Run.records {allowed : World H C → DbOp → Prop} {w' : World H C}
    (run : Run crc walCrc postcard allowed w w') : ∃ more, w'.attempts = w.attempts ++ more := by
  refine run.invariant (P := fun u => ∃ more, u.attempts = w.attempts ++ more)
    ⟨[], (List.append_nil _).symm⟩ fun u op ⟨more, before⟩ _ => ?_
  obtain ⟨more', after⟩ := @World.step_attempts H C crc walCrc postcard _ u op
  exact ⟨more ++ more', by rw [after, before, List.append_assoc]⟩

/-- Of one attempt among others all is seen, or nothing of one that failed. -/
theorem seen_whole {before later seen : List Attempt} {entry : WalEntry} {b : Bool}
    (h : Seen Attempt.acked (before ++ attemptOf entry b ++ later) seen) :
    ∃ front back kept, attemptFacts seen = attemptFacts front ++ (kept ++ attemptFacts back) ∧
      front.Sublist before ∧ back.Sublist later ∧ (kept = newFacts entry ∨ b = false ∧ kept = []) := by
  obtain ⟨some_, back, rfl, hsome, hback⟩ := List.sublist_append_iff.mp h.sound
  obtain ⟨front, mid, rfl, hfront, hmid⟩ := List.sublist_append_iff.mp hsome
  have facts : attemptFacts (front ++ mid ++ back) =
      attemptFacts front ++ (attemptFacts mid ++ attemptFacts back) := by
    rw [List.append_assoc, attemptFacts_append, attemptFacts_append]
  refine ⟨front, back, attemptFacts mid, facts, hfront, hback, ?_⟩
  by_cases whole : mid = attemptOf entry b
  · rw [whole]
    exact .inl (attemptFacts_attemptOf entry b)
  · have short : attemptOf entry b = [⟨entry, b⟩] ∧ mid = [] := by
      rw [attemptOf] at hmid whole ⊢
      split at hmid
      · rename_i none_
        rw [if_pos none_] at whole
        exact absurd (List.sublist_nil.mp hmid) whole
      · rename_i some_
        rw [if_neg some_] at whole ⊢
        refine ⟨rfl, ?_⟩
        obtain none_ | one := List.sublist_singleton.mp hmid
        · exact none_
        · exact absurd one whole
    obtain ⟨one, rfl⟩ := short
    refine .inr ⟨?_, rfl⟩
    by_contra acked
    have acked : b = true := by simpa using acked
    -- An acknowledged attempt that is not seen would be missing among the acknowledged.
    have count := congrArg List.length h.complete
    have fewer := (hfront.filter Attempt.acked).length_le
    have fewer' := (hback.filter Attempt.acked).length_le
    rw [one, acked] at count
    simp only [List.append_nil, List.filter_append, List.length_append, List.filter_cons,
      List.filter_nil, if_true, List.length_cons, List.length_nil] at count
    omega

/-! ## Both ways to write -/

/-- The calls that write a transaction. -/
inductive WriteCall where
  | execute
  | commit

def WriteCall.op (call : WriteCall) (facts : Vec Fact) (txId : TxId) (faults : Faults) : DbOp :=
  match call with
  | .execute => .execute facts txId faults
  | .commit => .commit facts txId faults

def WriteCall.run (crc : Crc H C) (walCrc : List UInt8 → UInt32) (postcard : Postcard)
    (call : WriteCall) (facts : List Fact) (txId : TxId) (faults : Faults) : DbM H C Unit :=
  match call with
  | .execute => Minigraf.execute crc walCrc postcard facts txId faults
  | .commit => Minigraf.commit crc walCrc postcard facts txId faults

/-- One call to write is applied or refused whole, and recorded as it ended. -/
theorem World.Keeps.call_atomic (h : w.Keeps crc walCrc postcard exact) (call : WriteCall)
    {facts : Vec Fact} {txId : TxId} {faults : Faults} (up : w.process = .up db)
    (allowed : w.Allows crc walCrc postcard (call.op facts txId faults))
    (untroubled : (db.withFaults faults).Untroubled walCrc postcard facts.val txId faults)
    (careful : exact →
      faults.walAppend = .none ∧ db.store.storage.facts.length + facts.val.length ≤ 2 ^ 32) :
    ∃ before u b, allFacts crc postcard db.store = .ok before u ∧
      Atomic crc postcard before (db.entry facts.val txId) b
        (call.run crc walCrc postcard facts.val txId faults (db.withFaults faults)) ∧
      (w.step crc walCrc postcard (call.op facts txId faults)).attempts =
        w.attempts ++ attemptOf (db.entry facts.val txId) b := by
  obtain ⟨process, attempts, halted⟩ := w
  subst up
  cases call with
  | execute => exact h.execute_atomic rfl allowed untroubled careful
  | commit =>
      by_cases none_ : facts.val = []
      · -- A transaction without facts is not even counted.
        obtain ⟨_, _, _, _, _, _, _, degraded⟩ := h.degraded rfl
        obtain ⟨u, shown⟩ := degraded.shows
        obtain ⟨v, shown'⟩ := (degraded.withFaults faults).shows
        have empty : (db.entry facts.val txId).facts = [] := by
          rw [Db.entry, none_]
          rfl
        refine ⟨_, u, true, shown, ⟨?_, ?_⟩, ?_⟩
        · intro t ran
          rw [WriteCall.run, Minigraf.commit, if_pos none_] at ran
          cases ran
          rw [newFacts, empty, freshFacts, List.append_nil]
          exact ⟨rfl, v, shown'⟩
        · intro e t ran
          rw [WriteCall.run, Minigraf.commit, if_pos none_] at ran
          cases ran
        · rw [attemptOf, if_pos empty, List.append_nil]
          simp only [WriteCall.op, World.step, if_pos none_]
      · rw [WriteCall.run, Minigraf.commit, if_neg none_]
        simp only [WriteCall.op, World.step, if_neg none_]
        exact h.execute_atomic rfl allowed untroubled careful

/-- A call to write that fails leaves what readers see as it was, and one that succeeds
adds its facts; after any later run, crash and reopening the facts of one that succeeded
are there, and of one that failed all of them or none. -/
theorem World.write_atomic
    (run : Run crc walCrc postcard (fun w op => w.Allows crc walCrc postcard op) World.start w)
    (call : WriteCall) (facts : Vec Fact) (txId : TxId) (faults : Faults) (up : w.process = .up db)
    (allowed : w.Allows crc walCrc postcard (call.op facts txId faults))
    (untroubled : (db.withFaults faults).Untroubled walCrc postcard facts.val txId faults) :
    ∃ before u b, allFacts crc postcard db.store = .ok before u ∧
      Atomic crc postcard before (db.entry facts.val txId) b
        (call.run crc walCrc postcard facts.val txId faults (db.withFaults faults)) ∧
      ∀ w', Run crc walCrc postcard (fun w op => w.Allows crc walCrc postcard op)
          (w.step crc walCrc postcard (call.op facts txId faults)) w' →
        w'.Reopenable crc walCrc postcard → ∀ options, ∃ t v front back more kept,
          openWithOptions crc walCrc postcard .never
            (Db.init crc w'.process.files.1 w'.process.files.2 options .never) = .ok () t ∧
          allFacts crc postcard t.store = .ok (attemptFacts front ++ (kept ++ attemptFacts back)) v ∧
          w'.attempts = w.attempts ++ attemptOf (db.entry facts.val txId) b ++ more ∧
          front.Sublist w.attempts ∧ back.Sublist more ∧
          (kept = newFacts (db.entry facts.val txId) ∨ b = false ∧ kept = []) := by
  have keeps : w.Keeps crc walCrc postcard False :=
    run.invariant .start fun u op h allowed => h.step op allowed False.elim
  obtain ⟨before, u, b, shown, atomic, recorded⟩ :=
    keeps.call_atomic call up allowed untroubled False.elim
  refine ⟨before, u, b, shown, atomic, fun w' later room options => ?_⟩
  have keeps' : w'.Keeps crc walCrc postcard False :=
    later.invariant (keeps.step _ allowed False.elim) fun u op h allowed => h.step op allowed False.elim
  obtain ⟨more, grew⟩ := later.records
  rw [recorded] at grew
  obtain ⟨t, v, seen, opened, shown', ledger, _⟩ := keeps'.reopens room options
  rw [grew] at ledger
  obtain ⟨front, back, kept, parts, hfront, hback, whole⟩ := seen_whole ledger
  rw [parts] at shown'
  exact ⟨t, v, front, back, more, kept, opened, shown', grew, hfront, hback, whole⟩

end Atomicity

/-! ## One write and its checkpoint -/

section OneWrite

/-- A handle on new files after one fact was written, which is due for a checkpoint. -/
structure OneWritten (db : Db (List UInt8) (List UInt8)) : Prop where
  run : writeFacts crc32 Postcard.standard [oneFact] 5 .never (Db.fresh 1) = .ok true db
  facts : db.store.storage.facts = [stamp 5 1 oneFact]
  clean : db.store.Clean Crc.lossless Postcard.standard []
  roomy : db.store.Roomy Postcard.standard
  calm : db.store.dev.faults = none
  dirty : db.store.dirty = true
  pages : db.store.committedFactPages = 0
  logged : db.walFile.isSome = true

theorem exists_oneWritten : ∃ db, OneWritten db := by
  obtain ⟨db, run, written⟩ := Db.fresh_writes 1 ⟨[oneFact], by decide⟩ 5
    (fun f hf => List.mem_singleton.mp hf ▸ oneFact_small) (by decide)
  have clean := (Store.Clean.create 64 none :
    (Store.init (Dev.create Crc.lossless 64 none)).Clean Crc.lossless Postcard.standard [])
  have counted : (Db.fresh 1).counted.Ok := ⟨clean.pending.keys, clean.pending.indexes⟩
  have facts : db.store.storage.facts = [stamp 5 1 oneFact] := written.appended.facts
  have dev : db.store.dev = Dev.create Crc.lossless 64 none := by
    rw [written.store]
    rfl
  have pages : db.store.committedFactPages = 0 := by
    rw [written.store]
    rfl
  refine ⟨db, run, facts, ?_, ?_, by rw [dev]; rfl, by rw [written.store], pages, ?_⟩
  · rw [written.store]
    exact clean.withStorage written.appended.committed written.appended.reader
      (written.appended.ok counted) true
  · apply Store.roomy_of_small
    · intro f hf
      rw [facts, List.mem_singleton] at hf
      subst hf
      decide
    · rw [facts, pages, dev]
      decide
  · have logs := written.logs
    cases file : db.walFile with
    | some _ => rfl
    | none =>
        rw [Db.Logs, file] at logs
        generalize db.wal = wal at logs
        cases logs with
        | absent empty => cases empty

variable {db : Db (List UInt8) (List UInt8)}

theorem OneWritten.fits (h : OneWritten db) :
    ∀ f ∈ db.store.storage.facts, f.Fits Postcard.standard.fact := by
  intro f hf
  rw [h.facts, List.mem_singleton] at hf
  subst hf
  exact Postcard.fits (by decide)

theorem OneWritten.saves (h : OneWritten db) :
    ∃ s, save Crc.lossless Postcard.standard db.store = .ok () s ∧
      Saved Crc.lossless Postcard.standard db.store [] s := by
  have saved : Wp (save Crc.lossless Postcard.standard) db.store
      (fun _ s => Saved Crc.lossless Postcard.standard db.store [] s) (fun _ _ => False) := by
    refine (h.clean.wp_save h.dirty h.roomy.fits).mono (fun _ _ done => done) ?_
    intro _ t failed
    obtain fault | limits := failed.why
    · exact fault h.calm
    · obtain ⟨f, hf, large⟩ := h.clean.limits h.roomy limits
      exact large (h.fits f hf)
  obtain ⟨_, s, run, done⟩ := saved.exists_ok
  exact ⟨s, run, done⟩

theorem OneWritten.ready (h : OneWritten db) : db.Ready Postcard.standard := by
  refine ⟨h.roomy.fits, fun _ => ?_⟩
  have one : packGroups Postcard.standard.fact [stamp 5 1 oneFact] = [[stamp 5 1 oneFact]] := by
    simp only [packGroups, Greedy.groups, Greedy.fill, List.map_cons, List.map_nil, Greedy.members]
  rw [h.facts, one]
  exact List.pairwise_singleton _ _

/-- One write on new files, with the checkpoint it triggers. -/
theorem World.write_atomic_one : ∃ before u b,
    allFacts Crc.lossless Postcard.standard (Db.fresh 1).store = .ok before u ∧
    Atomic Crc.lossless Postcard.standard before ((Db.fresh 1).entry [oneFact] 5) b
      (execute Crc.lossless crc32 Postcard.standard [oneFact] 5 .never (Db.fresh 1)) := by
  obtain ⟨db, written⟩ := exists_oneWritten
  have only : ∀ t, writeFacts crc32 Postcard.standard [oneFact] 5 .never (Db.fresh 1) = .ok true t →
      t = db := by
    intro t ran
    rw [written.run] at ran
    cases ran
    rfl
  have run : Run Crc.lossless crc32 Postcard.standard
      (fun w op => w.Allows Crc.lossless crc32 Postcard.standard op) World.start (World.fresh 1) :=
    World.fresh_run 1 (Crc.lossless_collisionless.vouched Postcard.standard _)
  obtain ⟨before, u, b, shown, atomic, _⟩ := World.write_atomic run .execute ⟨[oneFact], by decide⟩ 5
    .never rfl ⟨Db.fresh_countable 1, fun t ran => ⟨rfl, only t ran ▸ written.ready⟩⟩
    (fun t ran => ⟨rfl, rfl, only t ran ▸ written.roomy⟩)
  exact ⟨before, u, b, shown, atomic⟩

/-- The log cannot be deleted. -/
def Faults.logKept : Faults := ⟨.none, .none, .kept, none⟩

/-- A write whose checkpoint cannot delete the log fails, and its fact is there. -/
theorem World.write_refused_and_applied : ∃ u t v,
    Run Crc.lossless crc32 Postcard.standard
      (fun w op => w.Allows Crc.lossless crc32 Postcard.standard op) World.start (World.fresh 1) ∧
    allFacts Crc.lossless Postcard.standard (Db.fresh 1).store = .ok [] u ∧
    execute Crc.lossless crc32 Postcard.standard [oneFact] 5 .logKept ((Db.fresh 1).withFaults .logKept) =
      .error .wal006 t ∧
    allFacts Crc.lossless Postcard.standard t.store = .ok [stamp 5 1 oneFact] v := by
  obtain ⟨db, written⟩ := exists_oneWritten
  obtain ⟨s, saved, done⟩ := written.saves
  obtain ⟨facts, v, shown, rfl, _⟩ := (done.clean.wp_allFacts Crc.lossless).exists_ok
  have dirty : { db.store with dirty := true } = db.store := by rw [← written.dirty]
  have counted : ¬ (db.walEntryCount = 0 ∧ db.store.dirty = false) := by
    rintro ⟨_, clean⟩
    rw [written.dirty] at clean
    cases clean
  have flushed : doCheckpoint Crc.lossless Postcard.standard .logKept db =
      .error .wal006 { db with store := s, wal := none } := by
    simp only [doCheckpoint, bind, EStateM.bind, get, getThe, MonadStateOf.get, EStateM.get_at,
      if_neg counted, onStore, zoom, markDirty, modify, modifyGet, MonadStateOf.modifyGet,
      EStateM.modifyGet_at, dirty, saved, deleteWal, written.logged, if_true, deleteFile, Faults.logKept]
    rfl
  refine ⟨(Db.fresh 1).store, { db with store := s, wal := none }, v,
    World.fresh_run 1 (Crc.lossless_collisionless.vouched Postcard.standard _), rfl, ?_, ?_⟩
  · have wrote : writeFacts crc32 Postcard.standard [oneFact] 5 .logKept ((Db.fresh 1).withFaults .logKept) =
        .ok true db := written.run
    simp only [execute, bind, EStateM.bind, wrote, if_true]
    exact flushed
  · rw [shown, done.facts, List.append_nil, List.nil_append, Store.map_pendingAt, written.facts]

end OneWrite
end Minigraf
