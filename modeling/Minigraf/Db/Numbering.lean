import Minigraf.Db.Counter

/-!
The numbering of transactions over whole runs of writes, checkpoints, crashes and
reopenings: no count that was checkpointed is given again.
-/

namespace Minigraf

open EStateM Wal

/-! ## Runs -/

section Runs

variable {H C : Type} {crc : Crc H C} {walCrc : List UInt8 → UInt32} {postcard : Postcard}
  {floor : UInt64} {w t : World H C}

def World.Counts (crc : Crc H C) (walCrc : List UInt8 → UInt32) (postcard : Postcard) (floor : UInt64)
    (w : World H C) : Prop :=
  match w.process with
  | .down disk walFile => ∃ entries, Rests crc walCrc postcard floor (diskOf crc disk) walFile entries
  | .up db => ∃ entries, db.Counts walCrc postcard floor entries

/-- The transactions up to this count are checkpointed. -/
def World.last (crc : Crc H C) (w : World H C) : UInt64 :=
  (diskOf crc w.process.files.1).header.lastCheckpointedTxCount

theorem World.Counts.start : (World.start : World H C).Counts crc walCrc postcard 0 := by
  refine ⟨[], .absent rfl, fun _ no => (nomatch no), fun _ => rfl, fun i data counted => ?_, .inl le_rfl⟩
  have none_ : i ≤ 0 := counted
  omega

/-- What the header has reached is a floor from then on. -/
theorem World.Counts.atLast (h : w.Counts crc walCrc postcard floor) :
    w.Counts crc walCrc postcard (w.last crc) := by
  obtain ⟨process, attempts, halted⟩ := w
  cases process with
  | down disk walFile =>
      obtain ⟨entries, rests⟩ := h
      exact ⟨entries, rests.logs, rests.stamped, rests.rooted, rests.pages, .inl le_rfl⟩
  | up db =>
      obtain ⟨entries, counts⟩ := h
      exact ⟨entries, counts.logs, counts.stamped, counts.aligned, counts.counter,
        ⟨counts.bounded.pages, counts.bounded.pending, .inl le_rfl⟩,
        fun none_ => ⟨(counts.idle none_).pages, (counts.idle none_).pending, le_rfl⟩⟩

theorem World.Counts.checkpoint {db : Db H C} {entries : List WalEntry}
    (h : db.Counts walCrc postcard floor entries) (w : World H C) (faults : Faults) :
    (w.checkpoint crc postcard db faults).Counts crc walCrc postcard floor := by
  have spec := h.wp_doCheckpoint crc faults
  rw [World.checkpoint]
  split
  · exact spec.of_ok ‹_›
  · exact spec.of_error ‹_›

theorem World.Counts.write {db : Db H C} {entries : List WalEntry}
    (h : db.Counts walCrc postcard floor entries) (room : db.Countable) (w : World H C)
    (facts : Vec Fact) (txId : TxId) (faults : Faults) :
    (w.write crc walCrc postcard db facts.val txId faults).Counts crc walCrc postcard floor := by
  have spec := wp_writeFacts h.logs facts txId faults
  rw [World.write]
  split
  · have counts := h.written room (spec.of_ok ‹_›)
    dsimp only
    split
    · exact .checkpoint counts _ faults
    · exact ⟨_, counts⟩
  · exact h.writeFailed room (spec.of_error ‹_›)

variable [DecidableEq C]

/-- The steps that keep the numbering: the counter is not exhausted, and no rebuild of the
indexes finds facts and a log that are all older than the header. -/
def World.Numbers (crc : Crc H C) (walCrc : List UInt8 → UInt32) (postcard : Postcard) (w : World H C)
    (op : DbOp) : Prop :=
  match op, w.process with
  | .openWithOptions _ _, .down disk walFile => (diskOf crc disk).Covered crc walCrc postcard walFile
  | .execute _ _ _, .up db | .commit _ _ _, .up db => db.Countable
  | _, _ => True

theorem World.Counts.step (h : w.Counts crc walCrc postcard floor) (op : DbOp)
    (allowed : w.Numbers crc walCrc postcard op) :
    (w.step crc walCrc postcard op).Counts crc walCrc postcard floor := by
  obtain ⟨process, attempts, halted⟩ := w
  cases process with
  | down disk walFile =>
      cases op with
      | openWithOptions options faults =>
          obtain ⟨entries, rests⟩ := h
          have spec := rests.wp_openWithOptions allowed options faults
          simp only [World.step, World.open]
          split
          · exact ⟨entries, (spec.of_ok ‹_›).1⟩
          · exact ⟨entries, spec.of_error ‹_›⟩
      | execute | commit | checkpoint | crash => exact h
  | up db =>
      obtain ⟨entries, counts⟩ := h
      cases op with
      | openWithOptions => exact ⟨entries, counts⟩
      | execute facts txId faults => exact .write (counts.withFaults faults) allowed _ facts txId faults
      | commit facts txId faults =>
          simp only [World.step]
          split
          · exact ⟨entries, counts.withFaults faults⟩
          · exact .write (counts.withFaults faults) allowed _ facts txId faults
      | checkpoint faults => exact .checkpoint (counts.withFaults faults) _ faults
      | crash =>
          exact ⟨entries, Holds.crash postcard.fact walCrc counts.logs, counts.stamped,
            counts.aligned.rooted, counts.bounded.pages, counts.bounded.floor⟩

/-- In every run, an open finds a counter at least as high as the header and as every fact
that is stored or replayed, and no later transaction gets a count that was checkpointed. -/
theorem World.counter_not_reused
    (earlier : Run crc walCrc postcard (World.Numbers crc walCrc postcard) World.start w)
    (later : Run crc walCrc postcard (World.Numbers crc walCrc postcard) w t) :
    (∀ disk walFile options faults db, t.process = .down disk walFile →
      t.Numbers crc walCrc postcard (.openWithOptions options faults) →
      openWithOptions crc walCrc postcard faults (Db.init crc disk walFile options faults) = .ok () db →
      (diskOf crc disk).header.lastCheckpointedTxCount ≤ db.store.storage.txCounter ∧
      (∀ placed, (diskOf crc disk).Reads postcard placed → ∀ p ∈ placed,
        p.1.txCount ≤ db.store.storage.txCounter) ∧
      ∀ f ∈ db.store.storage.facts, f.txCount ≤ db.store.storage.txCounter) ∧
    ∀ db facts txId, t.process = .up db → db.Countable →
      w.last crc < (db.entry facts txId).txCount := by
  have counts : w.Counts crc walCrc postcard 0 :=
    earlier.invariant .start fun u op h allowed => h.step op allowed
  have counts' : t.Counts crc walCrc postcard (w.last crc) :=
    later.invariant counts.atLast fun u op h allowed => h.step op allowed
  obtain ⟨process, attempts, halted⟩ := t
  constructor
  · rintro disk walFile options faults db rfl allowed run
    obtain ⟨entries, rests⟩ := counts'.atLast
    obtain ⟨opened, stored⟩ := (rests.wp_openWithOptions allowed options faults).of_ok run
    exact ⟨opened.counter _ opened.bounded.floor, stored,
      fun f hf => opened.counter _ (opened.bounded.pending f hf)⟩
  · rintro db facts txId rfl room
    obtain ⟨entries, opened⟩ := counts'
    exact (opened.counter _ opened.bounded.floor).trans_lt (room.next facts txId).2

end Runs

/-! ## Transactions without facts -/

section Empty

/-- A save that has written its only fact page over the old indexes when it fails. -/
theorem Store.Clean.wp_save_unsynced {H C : Type} [DecidableEq C] {crc : Crc H C} {postcard : Postcard} {s : Store H C}
    {placed : List (Fact × FactRef)} (h : s.Clean crc postcard placed) (dirty : s.dirty = true)
    (faults : s.dev.faults = some 1) (below : 1 + s.committedFactPages < s.dev.header.pageCount)
    {page : Page} {refs : List FactRef}
    (packed : packFacts postcard.fact s.storage.facts (1 + s.committedFactPages) = .ok ([page], refs)) :
    Wp (save crc postcard) s (fun _ _ => False)
      (fun _ t => t.dev.disk = s.dev.disk.writePage (1 + s.committedFactPages) page) := by
  have limit := h.limit
  have near : ¬ 2 ^ 64 ≤ (1 + s.committedFactPages) * PAGE_SIZE := by
    simp only [PAGE_LIMIT, PAGE_SIZE] at limit ⊢
    omega
  rw [save, wp_bind, wp_get, dirty]
  simp only [Bool.not_true, Bool.false_eq_true, if_false, wp_bind, onDev, wp_zoom]
  refine h.wp_currentHeader.mono ?_ (fun _ _ no => no.elim)
  rintro header d ⟨rfl, rfl⟩
  refine h.wp_collectOldLeaves.mono ?_ (fun _ _ no => no.elim)
  rintro old d₁ ⟨⟨cache, rfl, _⟩, _⟩
  simp only [wp_modify, packed, ofResult, wp_pure]
  simp only [writeFactPages, writePage, if_neg near, wp_bind, tick, wp_get, faults, wp_modify,
    if_neg (Nat.not_le.mpr below), wp_pure, sync, wp_throw]

variable {db t : Db (List UInt8) (List UInt8)}

def noFacts : Vec Fact := ⟨[], by decide⟩

/-- A handle in good order that has no facts and no log. -/
structure Vacant (db : Db (List UInt8) (List UInt8)) : Prop where
  clean : db.store.Clean Crc.lossless Postcard.standard []
  facts : db.store.storage.facts = []
  calm : db.store.dev.faults = none
  file : db.walFile = none
  wal : db.wal = none
  count : db.walEntryCount = 0
  threshold : db.options.walCheckpointThreshold = 1000
  pages : db.store.committedFactPages ≤ 1

/-- The handle after a transaction without facts. -/
structure VacantWritten (db t : Db (List UInt8) (List UInt8)) : Prop where
  written : Written crc32 Postcard.standard db [] (db.entry [] 5) false t
  clean : t.store.Clean Crc.lossless Postcard.standard []
  facts : t.store.storage.facts = []
  calm : t.store.dev.faults = none
  counter : t.store.storage.txCounter = db.store.storage.txCounter + 1
  pages : t.store.committedFactPages = db.store.committedFactPages

theorem vacant_fresh : Vacant (Db.fresh 1000) :=
  ⟨Store.Clean.create 64 none, rfl, rfl, rfl, rfl, rfl, rfl, Nat.zero_le 1⟩

theorem Vacant.writes (h : Vacant db) :
    ∃ t, writeFacts crc32 Postcard.standard noFacts.val 5 .never db = .ok false t ∧
      VacantWritten db t := by
  have fits : ∀ f ∈ (db.entry [] 5).facts, f.Fits Postcard.standard.fact := fun _ no => nomatch no
  have room : db.store.storage.facts.length + ([] : List Fact).length ≤ 2 ^ 32 := by
    rw [h.facts]
    decide
  obtain ⟨due, t, run⟩ := writeFacts_fresh h.file h.wal fits room
  have logs : db.Logs crc32 Postcard.standard [] := by
    rw [Db.Logs, h.file, h.wal]
    exact .absent rfl
  have written := (wp_writeFacts logs noFacts 5 .never).of_ok run
  have early : due = false := by
    rw [written.due, written.count, h.count, h.threshold]
    rfl
  subst early
  have okay : db.counted.Ok := Db.counted_ok h.clean.pending
  refine ⟨t, run, written, ?_, ?_, ?_, written.appended.counter, ?_⟩
  · rw [written.store]
    exact h.clean.withStorage written.appended.committed written.appended.reader
      (written.appended.ok okay) true
  · have facts : t.store.storage.facts = db.store.storage.facts ++ [] := written.appended.facts
    rw [facts, h.facts, List.append_nil]
  · rw [written.store]
    exact h.calm
  · rw [written.store]

theorem VacantWritten.roomy (w : VacantWritten db t) (h : Vacant db) :
    t.store.Roomy Postcard.standard := by
  refine Store.roomy_of_small ?_ ?_
  · rw [w.facts]
    exact fun _ no => nomatch no
  · have pages := h.pages
    rw [w.clean.nodes, w.facts, w.pages]
    simp only [List.length_nil]
    omega

/-- The checkpoint has something to flush. -/
theorem VacantWritten.due (w : VacantWritten db t) (h : Vacant db) :
    ¬ (t.walEntryCount = 0 ∧ t.store.dirty = false) := by
  rintro ⟨none_, _⟩
  rw [w.written.count, h.count] at none_
  exact absurd none_ (by decide)

/-- The first checkpoint, of transactions without facts. -/
structure VacantSaved (t u : Db (List UInt8) (List UInt8)) : Prop where
  run : doCheckpoint Crc.lossless Postcard.standard .never t = .ok () u
  vacant : Vacant u
  committed : u.store.Committed Crc.lossless Postcard.standard []
  pages : u.store.committedFactPages = 1
  counter : u.store.storage.txCounter = t.store.storage.txCounter
  last : u.store.dev.header.lastCheckpointedTxCount = t.store.storage.txCounter

theorem VacantWritten.saves (w : VacantWritten db t) (h : Vacant db)
    (first : db.store.committedFactPages = 0) : ∃ u, VacantSaved t u := by
  have marked : Store.Clean Crc.lossless Postcard.standard { t.store with dirty := true } [] :=
    w.clean.withStorage rfl rfl w.clean.pending true
  have nothing : Store.pendingAt Postcard.standard { t.store with dirty := true } = [] := by
    rw [Store.pendingAt]
    simp only [w.facts, List.zip_nil_left]
  have one : (packGroups Postcard.standard.fact t.store.storage.facts).length = 1 := by
    rw [w.facts]
    simp only [packGroups, Greedy.groups, List.length_singleton]
  have saves : Wp (doCheckpoint Crc.lossless Postcard.standard .never) t
      (fun _ u => Vacant u ∧ u.store.Committed Crc.lossless Postcard.standard [] ∧
        u.store.committedFactPages = 1 ∧ u.store.storage.txCounter = t.store.storage.txCounter ∧
        u.store.dev.header.lastCheckpointedTxCount = t.store.storage.txCounter) (fun _ _ => False) := by
    rw [doCheckpoint, wp_bind, wp_get, if_neg (w.due h)]
    simp only [onStore, markDirty, wp_bind, wp_zoom, wp_modify]
    refine (marked.wp_save rfl (w.roomy h).fits).mono ?_ ?_
    · intro _ store saved
      have clean := saved.clean
      have committed := saved.committed
      have pages := saved.pages
      rw [nothing, List.append_nil] at clean committed
      simp only [one, w.pages, first, Nat.zero_add] at pages
      simp only [deleteWal, Faults.never, deleteFile, wp_bind, wp_modify, wp_get]
      refine wp_ite (fun _ => ?_) fun none_ => ?_
      · exact ⟨⟨clean, saved.facts, saved.calm w.calm, rfl, rfl, rfl,
          (congrArg OpenOptions.walCheckpointThreshold w.written.options).trans h.threshold, pages.le⟩,
          committed, pages, saved.counter, saved.last⟩
      · exact ⟨⟨clean, saved.facts, saved.calm w.calm, Option.not_isSome_iff_eq_none.mp none_, rfl, rfl,
          (congrArg OpenOptions.walCheckpointThreshold w.written.options).trans h.threshold, pages.le⟩,
          committed, pages, saved.counter, saved.last⟩
    · intro _ store failed
      obtain fault | limits := failed.why
      · exact fault w.calm
      · obtain ⟨f, hf, _⟩ := w.clean.limits (w.roomy h) limits
        rw [w.facts] at hf
        cases hf
  obtain ⟨_, u, run, vacant, committed, pages, counter, last⟩ := saves.exists_ok
  exact ⟨u, run, vacant, committed, pages, counter, last⟩

/-- One write succeeds and the next one fails. -/
def Faults.afterOne : Faults := ⟨.none, .none, .none, some 1⟩

/-- The second checkpoint, which dies after it wrote its fact page over the first index
page. -/
structure Overwritten (u t v : Db (List UInt8) (List UInt8)) (page : Page) : Prop where
  run : ∃ e, doCheckpoint Crc.lossless Postcard.standard .afterOne (t.withFaults .afterOne) = .error e v
  disk : v.store.dev.disk = u.store.dev.disk.writePage 2 page
  packed : page.type = PAGE_TYPE_PACKED
  file : v.walFile = t.walFile
  dirty : v.store.dirty = true
  sound : ∃ placed, v.store.dev.disk.Sound Crc.lossless Postcard.standard placed

theorem VacantWritten.overwrites {u : Db (List UInt8) (List UInt8)} (w : VacantWritten u t)
    (h : Vacant u) (committed : u.store.Committed Crc.lossless Postcard.standard [])
    (pages : u.store.committedFactPages = 1) : ∃ v page, Overwritten u t v page := by
  let s : Store (List UInt8) (List UInt8) := { (t.withFaults .afterOne).store with dirty := true }
  have clean : s.Clean Crc.lossless Postcard.standard [] :=
    (w.clean.withDev (w.clean.okay.withFaults (some 1)) rfl rfl).withStorage rfl rfl w.clean.pending true
  have facts : s.storage.facts = [] := w.facts
  have dev : s.dev = { u.store.dev with faults := some 1 } := by
    show ({ t.store.dev with faults := some 1 } : Dev (List UInt8)) = _
    rw [w.written.store]
  have count : s.committedFactPages = 1 := w.pages.trans pages
  have bounds := committed.indexed.bounds
  have below : 1 + s.committedFactPages < s.dev.header.pageCount := by
    rw [count, dev]
    simp only [pages] at bounds
    simp only
    omega
  have small : ∀ f ∈ s.storage.facts, f.Fits Postcard.standard.fact := by
    rw [facts]
    exact fun _ no => nomatch no
  obtain ⟨pages', packed⟩ := packFacts_fits Postcard.standard.fact small (1 + s.committedFactPages)
  obtain ⟨_, each, _⟩ := packFacts_ok Postcard.standard.fact packed
  have groups : packGroups Postcard.standard.fact s.storage.facts = [[]] := by
    rw [facts]
    simp only [packGroups, Greedy.groups]
  rw [groups] at each
  obtain ⟨page, rest, first, none_, rfl⟩ := List.forall₂_cons_left_iff.mp each
  cases none_
  have fits : IndexFits Postcard.standard (s.pendingAt Postcard.standard) := (w.roomy h).fits
  have cut := (clean.wp_save rfl fits).and (clean.wp_save_unsynced rfl rfl below packed)
  have spec : Wp (doCheckpoint Crc.lossless Postcard.standard .afterOne) (t.withFaults .afterOne)
      (fun _ _ => False) (fun _ v => v.store.dev.disk = u.store.dev.disk.writePage 2 page ∧
        v.walFile = t.walFile ∧ v.store.dirty = true ∧
        ∃ placed, v.store.dev.disk.Sound Crc.lossless Postcard.standard placed) := by
    have due : ¬ ((t.withFaults .afterOne).walEntryCount = 0 ∧
      (t.withFaults .afterOne).store.dirty = false) := w.due h
    rw [doCheckpoint, wp_bind, wp_get, if_neg due]
    simp only [onStore, markDirty, wp_bind, wp_zoom, wp_modify]
    refine cut.mono (fun _ _ no => no.2.elim) ?_
    rintro _ store ⟨failed, disk⟩
    refine ⟨?_, rfl, failed.dirty, ?_⟩
    · rw [disk, count, dev]
    · obtain ⟨sound, _⟩ | ⟨_, _, m, sound⟩ | ⟨sound, _⟩ := failed.torn.sound clean fits
      · exact ⟨_, sound⟩
      · exact ⟨_, sound⟩
      · exact ⟨_, sound⟩
  cases run : doCheckpoint Crc.lossless Postcard.standard .afterOne (t.withFaults .afterOne) with
  | ok _ v => exact (spec.of_ok run).elim
  | error e v =>
      obtain ⟨disk, file, dirty, sound⟩ := spec.of_error run
      exact ⟨v, page, ⟨e, run⟩, disk, first.type, file, dirty, sound⟩

/-- A packed page where the first leaf was does not have the checksum of the header. -/
theorem Overwritten.rebuilds {u v : Db (List UInt8) (List UInt8)} {page : Page}
    (o : Overwritten u t v page) (clean : u.store.Clean Crc.lossless Postcard.standard [])
    (committed : u.store.Committed Crc.lossless Postcard.standard [])
    (pages : u.store.committedFactPages = 1) :
    v.store.dev.disk.rebuilds Crc.lossless = true ∧ v.store.dev.disk.header.factPages = 1 := by
  have header : v.store.dev.disk.header = u.store.dev.header := by
    rw [o.disk]
    exact clean.synced
  have count : u.store.dev.header.factPageCount = 1 := committed.counted.trans pages
  have own : u.store.dev.header.factPages = 1 := by
    rw [FileHeader.factPages_of_pos (by omega), count]
  have bounds := committed.indexed.bounds
  simp only [pages, FileHeader.roots] at bounds
  have leaf : (u.store.dev.disk.page 2).type = PAGE_TYPE_LEAF := by
    have first := committed.indexed.firstLeaf
    rwa [pages] at first
  have differs {n : Nat} (size : n + 1 = u.store.dev.header.pageCount ∨ n = 1) :
      pagesChecksum Crc.lossless v.store.dev.disk.page n ≠ u.store.dev.header.indexChecksum := by
    intro same
    rw [committed.checksum] at same
    have equal := Crc.lossless_collisionless _ _ same
    have width := congrArg List.length equal
    rw [length_pagesFrom, length_pagesFrom] at width
    rw [width] at equal
    have there := eq_of_pagesFrom_eq equal (by omega : 1 ≤ 2) (by omega)
    rw [o.disk, Disk.writePage] at there
    simp only [Function.update_self] at there
    rw [← there, o.packed] at leaf
    exact absurd leaf (by decide)
  refine ⟨?_, by rw [header, own]⟩
  rw [Disk.rebuilds, header, own, if_neg (by omega)]
  rw [decide_eq_true (differs (.inl (by omega))), decide_eq_true (differs (.inr rfl))]
  rfl

/-- On reopening the counter is back where it started. -/
theorem Overwritten.reopens {u v : Db (List UInt8) (List UInt8)} {page : Page}
    (o : Overwritten u t v page) (w : VacantWritten u t) (h : Vacant u)
    (committed : u.store.Committed Crc.lossless Postcard.standard [])
    (pages : u.store.committedFactPages = 1) :
    ∃ x, openWithOptions Crc.lossless crc32 Postcard.standard .never
        (Db.init Crc.lossless (some v.store.dev.disk) v.walFile ⟨1000, 64, .full⟩ .never) = .ok () x ∧
      x.store.storage.txCounter = 0 := by
  obtain ⟨rebuilds, own⟩ := o.rebuilds h.clean committed pages
  obtain ⟨placed, sound⟩ := o.sound
  have none_ : placed = [] := by
    have read := sound.facts
    have before := h.clean.facts
    have same : pagesFrom v.store.dev.disk.page 1 1 = pagesFrom u.store.dev.disk.page 1 1 := by
      refine pagesFrom_congr fun i _ high => ?_
      rw [o.disk]
      exact Function.update_of_ne (by omega) _ _
    rw [pages] at before
    rw [own, same, before] at read
    exact (Except.ok.inj read).symm
  subst none_
  have logs : Holds Postcard.standard.fact crc32 [u.entry [] 5] v.walFile none := by
    rw [o.file]
    exact Holds.crash _ _ w.written.logs
  have stamped : ∀ e ∈ [u.entry [] 5], Stamped e := by
    intro e he
    rw [List.mem_singleton.mp he]
    exact u.entry_stamped [] 5
  have trusted := sound.trusted Crc.lossless_collisionless
  have sound' : (diskOf Crc.lossless (some v.store.dev.disk)).Sound Crc.lossless Postcard.standard [] :=
    sound
  have opens : Wp (openWithOptions Crc.lossless crc32 Postcard.standard .never)
      (Db.init Crc.lossless (some v.store.dev.disk) v.walFile ⟨1000, 64, .full⟩ .never)
      (fun _ x => Opened Crc.lossless crc32 Postcard.standard
        (unopened Crc.lossless (some v.store.dev.disk) ⟨1000, 64, .full⟩ .never) [] [u.entry [] 5] x)
      (fun _ _ => False) := by
    refine (wp_openWithOptions sound' trusted logs stamped (List.pairwise_singleton _ _)
      ⟨1000, 64, .full⟩ .never).mono (fun _ _ opened => opened) fun _ x failed => ?_
    obtain fault | far | many | fault := failed.why
    · exact fault rfl
    · have found : (unopened Crc.lossless (some v.store.dev.disk) ⟨1000, 64, .full⟩
        .never).dev.disk.header.factPages = 1 := own
      rw [found] at far
      exact absurd far (by decide)
    · exact absurd many (by simp [Db.entry])
    · exact fault rfl
  obtain ⟨_, x, run, opened⟩ := opens.exists_ok
  obtain ⟨y, loaded, _, replayed⟩ := opened.loaded
  refine ⟨x, run, ?_⟩
  have again : (unopened Crc.lossless (some v.store.dev.disk) ⟨1000, 64, .full⟩
    .never).dev.disk.rebuilds Crc.lossless = true := rebuilds
  have last := loaded.last
  rw [again] at last
  have facts : x.store.storage.facts = [] := by
    rw [replayed.facts, List.flatMap_eq_nil_iff]
    intro e he
    have only := List.mem_singleton.mp (List.mem_filter.mp he).1
    rw [only, Db.entry, newFacts]
    rfl
  rw [replayed.counter, facts, loaded.counter, last]
  rfl

theorem Db.withFaults_never (calm : db.store.dev.faults = none) : db.withFaults .never = db := by
  obtain ⟨⟨⟨disk, header, isNew, cache, faults⟩, storage, dirty, last, pages, hashed⟩, file, wal, count,
    options⟩ := db
  subst calm
  rfl

theorem Vacant.step_execute (h : Vacant db) {halted : Bool}
    (wrote : writeFacts crc32 Postcard.standard noFacts.val 5 .never db = .ok false t) :
    World.step Crc.lossless crc32 Postcard.standard ⟨.up db, [], halted⟩ (.execute noFacts 5 .never) =
      ⟨.up t, [], halted⟩ := by
  have nothing : attemptOf (db.entry noFacts.val 5) true = [] := if_pos rfl
  rw [World.step_execute rfl (Db.withFaults_never h.calm) wrote, nothing, List.append_nil]

/-- A transaction without facts and its checkpoint, on new files. -/
theorem exists_checkpointed : ∃ t u, VacantWritten (Db.fresh 1000) t ∧ VacantSaved t u ∧
    u.store.storage.txCounter = 1 ∧ u.store.dev.disk.header.lastCheckpointedTxCount = 1 ∧
    ∀ allowed : World (List UInt8) (List UInt8) → DbOp → Prop,
      allowed World.start (.openWithOptions ⟨1000, 64, .full⟩ .never) →
      allowed (World.fresh 1000) (.execute noFacts 5 .never) →
      allowed ⟨.up t, [], false⟩ (.checkpoint .never) →
      Run Crc.lossless crc32 Postcard.standard allowed World.start ⟨.up u, [], false⟩ := by
  obtain ⟨t, wrote, written⟩ := vacant_fresh.writes
  obtain ⟨u, saved⟩ := written.saves vacant_fresh rfl
  have counter : u.store.storage.txCounter = 1 := by
    rw [saved.counter, written.counter]
    rfl
  refine ⟨t, u, written, saved, counter, ?_, fun allowed opens executes checkpoints => ?_⟩
  · rw [saved.vacant.clean.synced, saved.last, ← saved.counter, counter]
  · have opened := World.fresh_run 1000 opens
    have ran := opened.step (.execute noFacts 5 .never) executes
    rw [World.fresh, vacant_fresh.step_execute wrote] at ran
    have checked := ran.step (.checkpoint .never) checkpoints
    have step : World.step Crc.lossless crc32 Postcard.standard ⟨.up t, [], false⟩ (.checkpoint .never) =
        ⟨.up u, [], false⟩ := by
      simp only [World.step, World.checkpoint, Db.withFaults_never written.calm, saved.run]
    exact step ▸ checked

/-- The transaction after a checkpointed one gets a new count. -/
theorem World.counter_not_reused_once : ∃ (w : World (List UInt8) (List UInt8))
    (db : Db (List UInt8) (List UInt8)), w.process = .up db ∧ w.last Crc.lossless = 1 ∧ 1 < (db.entry [oneFact] 5).txCount := by
  obtain ⟨t, u, written, saved, counter, last, run⟩ := exists_checkpointed
  have earlier := run (World.Numbers Crc.lossless crc32 Postcard.standard) (fun no => nomatch no)
    (Db.fresh_countable 1000) trivial
  have room : u.Countable := by
    rw [Db.Countable, counter]
    decide
  refine ⟨⟨.up u, [], false⟩, u, rfl, last, ?_⟩
  have above := (World.counter_not_reused earlier .refl).2 u [oneFact] 5 rfl room
  rwa [World.last, Process.files, diskOf, Option.getD_some, last] at above

/-- A transaction without facts is checkpointed, a second checkpoint is cut short, and on
reopening the rebuilt counter is below the header: the next transaction gets the count of the
first. -/
theorem World.counter_reused_after_rebuild : ∃ disk walFile db,
    Run Crc.lossless crc32 Postcard.standard (fun _ _ => True) World.start
      ⟨.down (some disk) walFile, [], true⟩ ∧
    openWithOptions Crc.lossless crc32 Postcard.standard .never
      (Db.init Crc.lossless (some disk) walFile ⟨1000, 64, .full⟩ .never) = .ok () db ∧
    db.store.storage.txCounter < disk.header.lastCheckpointedTxCount ∧
    (db.entry [oneFact] 5).txCount = 1 ∧ ((Db.fresh 1000).entry [] 5).txCount = 1 := by
  obtain ⟨t, u, written, saved, counter, last, run⟩ := exists_checkpointed
  obtain ⟨t', wrote', written'⟩ := saved.vacant.writes
  obtain ⟨v, page, cut⟩ := written'.overwrites saved.vacant saved.committed saved.pages
  obtain ⟨x, opened, zero⟩ := cut.reopens written' saved.vacant saved.committed saved.pages
  obtain ⟨e, stopped⟩ := cut.run
  have ran := (run (fun _ _ => True) trivial trivial trivial).step (.execute noFacts 5 .never) trivial
  rw [saved.vacant.step_execute wrote'] at ran
  have torn := ran.step (.checkpoint .afterOne) trivial
  rw [World.step_checkpoint rfl stopped] at torn
  have crashed := torn.step .crash trivial
  rw [cut.dirty] at crashed
  refine ⟨v.store.dev.disk, v.walFile, x, crashed, opened, ?_, ?_, rfl⟩
  · rw [zero, cut.disk, Disk.writePage, last]
    decide
  · rw [Db.entry, zero]
    rfl

end Empty
end Minigraf
