import Minigraf.Db.Recovery
import Minigraf.Storage.Bounds
import Minigraf.Storage.Restore

/-!
The counter of transactions on one handle. A count is marked when the header on disk has
reached it or a fact in the log carries it or a later one: those are the two places an open
takes its counter from. Everything that is stored, pending or was ever checkpointed stays
marked, as long as no rebuild of the indexes lowers the header.
-/

namespace Minigraf

open EStateM Wal

/-! ## Marked counts -/

section Marks

variable {H C : Type} {walCrc : List UInt8 → UInt32} {postcard : Postcard}

/-- The header has reached the count, or a fact in the log has. -/
def Marked (last : UInt64) (entries : List WalEntry) (n : UInt64) : Prop :=
  n ≤ last ∨ ∃ e ∈ entries, ∃ f ∈ e.facts, n ≤ f.txCount

theorem Marked.raise {last last' n : UInt64} {entries entries' : List WalEntry}
    (h : Marked last entries n) (le : last ≤ last') (more : entries ⊆ entries') :
    Marked last' entries' n := by
  obtain low | ⟨e, he, f, hf, low⟩ := h
  · exact .inl (low.trans le)
  · exact .inr ⟨e, more he, f, hf, low⟩

/-- The mark of the header on disk. -/
def Db.last (db : Db H C) : UInt64 := db.store.dev.disk.header.lastCheckpointedTxCount

/-- An open handle whose counter is above all that is marked, and all that matters is
marked: by the header alone while no entry of the log was taken into memory. -/
structure Db.Counts (walCrc : List UInt8 → UInt32) (postcard : Postcard) (floor : UInt64) (db : Db H C)
    (entries : List WalEntry) : Prop where
  logs : db.Logs walCrc postcard entries
  stamped : ∀ e ∈ entries, Stamped e
  aligned : db.store.Aligned postcard
  counter : ∀ n, Marked db.last entries n → n ≤ db.store.storage.txCounter
  bounded : db.store.Bounded postcard floor (Marked db.last entries)
  idle : db.walEntryCount = 0 → db.store.Bounded postcard floor (· ≤ db.last)

variable {floor : UInt64} {db t : Db H C} {entries : List WalEntry}

theorem Db.Counts.withFaults (h : db.Counts walCrc postcard floor entries) (faults : Faults) :
    (db.withFaults faults).Counts walCrc postcard floor entries :=
  ⟨h.logs, h.stamped, ⟨h.aligned.synced, h.aligned.rooted, h.aligned.within, h.aligned.reach⟩, h.counter,
    ⟨h.bounded.pages, h.bounded.pending, h.bounded.floor⟩,
    fun none_ => ⟨(h.idle none_).pages, (h.idle none_).pending, (h.idle none_).floor⟩⟩

/-- The handle with another log beside it. -/
theorem Db.Counts.relog (h : db.Counts walCrc postcard floor entries) {entries' : List WalEntry}
    (same : db.SameStore t) (logs : t.Logs walCrc postcard entries') (less : entries' ⊆ entries)
    (bounded : db.store.Bounded postcard floor (Marked db.last entries')) :
    t.Counts walCrc postcard floor entries' := by
  have last : t.last = db.last := by rw [Db.last, same.store, Db.last]
  refine ⟨logs, fun e he => h.stamped e (less he), ?_, fun n marked => ?_, ?_, fun none_ => ?_⟩
  · rw [same.store]
    exact h.aligned
  · rw [same.store]
    rw [last] at marked
    exact h.counter n (marked.raise le_rfl less)
  · rw [same.store, last]
    exact bounded
  · rw [same.store, last]
    exact h.idle (same.count ▸ none_)

/-! ## Writing -/

theorem Db.Counts.written (h : db.Counts walCrc postcard floor entries) {facts : List Fact} {txId : TxId}
    {due : Bool} (room : db.Countable)
    (written : Written walCrc postcard db entries (db.entry facts txId) due t) :
    t.Counts walCrc postcard floor (entries ++ [db.entry facts txId]) := by
  have dev : t.store.dev = db.store.dev := by rw [written.store]
  have pages : t.store.committedFactPages = db.store.committedFactPages := by rw [written.store]
  have last : t.last = db.last := by rw [Db.last, dev, Db.last]
  have pending := written.appended.facts
  have counter := written.counter room
  have more : ∀ n, Marked db.last entries n → Marked db.last (entries ++ [db.entry facts txId]) n :=
    fun n marked => marked.raise le_rfl (List.subset_append_left _ _)
  refine ⟨written.logs, fun e he => ?_, ?_, fun n marked => ?_, ?_, fun none_ => ?_⟩
  · obtain he | he := List.mem_append.mp he
    · exact h.stamped e he
    · rw [List.mem_singleton.mp he]
      exact db.entry_stamped facts txId
  · refine ⟨by rw [dev]; exact h.aligned.synced, by rw [dev]; exact h.aligned.rooted,
      by rw [dev, pages]; exact h.aligned.within, ?_⟩
    rw [dev, pages, pending]
    exact h.aligned.reach.trans (Nat.add_le_add_left (length_packGroups_append _ _) _)
  · rw [last] at marked
    have above := (room.next facts txId).2
    rw [counter]
    obtain low | ⟨e, he, f, hf, low⟩ := marked
    · exact (h.counter n (.inl low)).trans above.le
    · obtain he | he := List.mem_append.mp he
      · exact (h.counter n (.inr ⟨e, he, f, hf, low⟩)).trans above.le
      · rw [List.mem_singleton.mp he] at hf
        exact low.trans_eq (db.entry_stamped facts txId f hf)
  · rw [last]
    refine ⟨fun i data counted => ?_, fun f hf => ?_, more _ h.bounded.floor⟩
    · rw [dev] at counted ⊢
      exact (h.bounded.mono more).pages i data counted
    · rw [pending, List.mem_append] at hf
      obtain hf | hf := hf
      · exact more _ (h.bounded.pending f hf)
      · exact .inr ⟨_, List.mem_append_right _ (List.mem_singleton_self _), f, (mem_freshFacts hf).1, le_rfl⟩
  · rw [written.count] at none_
    omega

theorem Db.Counts.writeFailed (h : db.Counts walCrc postcard floor entries) {facts : List Fact}
    {txId : TxId} {calm : Prop} (room : db.Countable)
    (failed : WriteFailed walCrc postcard db entries (db.entry facts txId) calm t) :
    ∃ entries', t.Counts walCrc postcard floor entries' := by
  obtain ⟨dirty, store⟩ := failed.store
  obtain ⟨kept, each, _, logs⟩ := failed.logs
  have dev : t.store.dev = db.store.dev := by rw [store]
  have pages : t.store.committedFactPages = db.store.committedFactPages := by rw [store]
  have pending : t.store.storage.facts = db.store.storage.facts := by rw [store, Db.counted]
  have last : t.last = db.last := by rw [Db.last, dev, Db.last]
  have counter : t.store.storage.txCounter = (db.entry facts txId).txCount := by
    rw [store, (room.next facts txId).1, Db.counted]
  have more : ∀ n, Marked db.last entries n → Marked db.last (entries ++ kept) n :=
    fun n marked => marked.raise le_rfl (List.subset_append_left _ _)
  have stamped : ∀ e ∈ kept, e = db.entry facts txId := by
    intro e he
    obtain none_ | one := each
    · rw [none_] at he
      cases he
    · rw [one] at he
      exact List.mem_singleton.mp he
  have moved {bound : UInt64 → Prop} (bounded : db.store.Bounded postcard floor bound) :
      t.store.Bounded postcard floor bound := by
    refine ⟨fun i data counted => ?_, fun f hf => ?_, bounded.floor⟩
    · rw [dev] at counted ⊢
      exact bounded.pages i data counted
    · rw [pending] at hf
      exact bounded.pending f hf
  refine ⟨entries ++ kept, logs, fun e he => ?_, ?_, fun n marked => ?_, ?_, fun none_ => ?_⟩
  · obtain he | he := List.mem_append.mp he
    · exact h.stamped e he
    · rw [stamped e he]
      exact db.entry_stamped facts txId
  · refine ⟨by rw [dev]; exact h.aligned.synced, by rw [dev]; exact h.aligned.rooted,
      by rw [dev, pages]; exact h.aligned.within, ?_⟩
    rw [dev, pages, pending]
    exact h.aligned.reach
  · rw [last] at marked
    have above := (room.next facts txId).2
    rw [counter]
    obtain low | ⟨e, he, f, hf, low⟩ := marked
    · exact (h.counter n (.inl low)).trans above.le
    · obtain he | he := List.mem_append.mp he
      · exact (h.counter n (.inr ⟨e, he, f, hf, low⟩)).trans above.le
      · rw [stamped e he] at hf
        exact low.trans_eq (db.entry_stamped facts txId f hf)
  · rw [last]
    exact moved (h.bounded.mono more)
  · rw [last]
    exact moved (h.idle (failed.count none_))

/-! ## Checkpoints -/

/-- Where a save put the counter into the header, everything is marked by it. -/
theorem Db.Counts.sealed (h : db.Counts walCrc postcard floor entries) {store : Store H C}
    (aligned : store.Aligned postcard) (bounded : store.Bounded postcard floor (Marked db.last entries))
    (counter : store.storage.txCounter = db.store.storage.txCounter)
    (last : store.dev.disk.header.lastCheckpointedTxCount = db.store.storage.txCounter)
    (logs : t.Logs walCrc postcard entries) (here : t.store = store) :
    t.Counts walCrc postcard floor entries ∧ t.store.Bounded postcard floor (· ≤ t.last) := by
  have mark : t.last = db.store.storage.txCounter := by rw [Db.last, here, last]
  have low : t.store.Bounded postcard floor (· ≤ t.last) := by
    rw [here, mark]
    exact bounded.mono h.counter
  refine ⟨⟨logs, h.stamped, by rw [here]; exact aligned, fun n marked => ?_,
    low.mono fun n le => .inl le, fun _ => low⟩, low⟩
  rw [here, counter]
  rw [mark] at marked
  obtain le | logged := marked
  · exact le
  · exact h.counter n (.inr logged)

theorem Db.Counts.wp_doCheckpoint (crc : Crc H C) (h : db.Counts walCrc postcard floor entries)
    (faults : Faults) :
    Wp (doCheckpoint crc postcard faults) db
      (fun _ t => ∃ entries, t.Counts walCrc postcard floor entries)
      (fun _ t => ∃ entries, t.Counts walCrc postcard floor entries) := by
  -- With everything marked by the header, the log may go.
  have deleted {u : Db H C} (counts : u.Counts walCrc postcard floor entries)
      (low : u.store.Bounded postcard floor (· ≤ u.last)) :
      Wp (deleteWal faults.walDelete) u (fun _ t => u.SameStore t ∧ t.Counts walCrc postcard floor [])
        (fun _ t => ∃ entries, t.Counts walCrc postcard floor entries) := by
    have bare := low.mono fun n le => (Or.inl le : Marked u.last [] n)
    refine (wp_deleteWal counts.logs faults.walDelete).mono ?_ ?_
    · rintro _ t ⟨logs, same⟩
      exact ⟨same, counts.relog same logs (List.nil_subset _) bare⟩
    · rintro _ t ⟨logs | logs, same, _⟩
      · exact ⟨[], counts.relog same logs (List.nil_subset _) bare⟩
      · exact ⟨entries, counts.relog same logs (List.Subset.refl _) counts.bounded⟩
  rw [doCheckpoint, wp_bind, wp_get]
  refine wp_ite (fun idle => ?_) fun _ => ?_
  · rw [skipCheckpoint, wp_bind, wp_get]
    refine wp_ite (fun _ => ?_) fun _ => ⟨entries, h⟩
    exact (deleted h (h.idle idle.1)).mono (fun _ t post => ⟨[], post.2⟩) fun _ _ post => post
  · simp only [onStore, markDirty, wp_bind, wp_zoom, wp_modify]
    have aligned : Store.Aligned postcard { db.store with dirty := true } :=
      ⟨h.aligned.synced, h.aligned.rooted, h.aligned.within, h.aligned.reach⟩
    have bounded : Store.Bounded postcard { db.store with dirty := true } floor (Marked db.last entries) :=
      ⟨h.bounded.pages, h.bounded.pending, h.bounded.floor⟩
    refine (wp_save_left crc postcard { db.store with dirty := true } rfl).mono ?_ ?_
    · intro _ store passed
      obtain ⟨aligned', bounded', last⟩ := passed.bounded aligned bounded
      have logs : Db.Logs walCrc postcard { db with store := store } entries := h.logs
      obtain ⟨counts, low⟩ := h.sealed aligned' bounded' passed.counter last logs rfl
      refine (deleted counts low).mono ?_ fun _ _ post => post
      rintro _ t ⟨same, counts'⟩
      refine ⟨[], counts'.logs, counts'.stamped, counts'.aligned, counts'.counter, counts'.bounded,
        fun _ => ?_⟩
      refine counts'.bounded.mono fun n marked => ?_
      obtain le | ⟨_, no, _⟩ := marked
      · exact le
      · cases no
    · intro _ store left
      obtain ⟨aligned', bounded', same | raised⟩ := left.bounded aligned bounded
      · have logs : Db.Logs walCrc postcard { db with store := store } entries := h.logs
        have last : Db.last { db with store := store } = db.last := same
        refine ⟨entries, logs, h.stamped, aligned', fun n marked => ?_, ?_, fun none_ => ?_⟩
        · rw [last] at marked
          rw [left.storage]
          exact h.counter n marked
        · rw [last]
          exact bounded'
        · have low := h.idle none_
          rw [last]
          exact (left.bounded aligned (⟨low.pages, low.pending, low.floor⟩ :
            Store.Bounded postcard { db.store with dirty := true } floor (· ≤ db.last))).2.1
      · have logs : Db.Logs walCrc postcard { db with store := store } entries := h.logs
        refine ⟨entries, (h.sealed aligned' bounded' ?_ raised logs rfl).1⟩
        rw [left.storage]

end Marks

/-! ## Opening -/

section Opening

variable {H C : Type} {crc : Crc H C} {walCrc : List UInt8 → UInt32} {postcard : Postcard}
  {entries : List WalEntry}

/-- What a replay takes into memory, in whatever order the counts come. -/
structure Retaken (last : UInt64) (entries : List WalEntry) (s t : FactStorage) : Prop where
  counter : t.txCounter = s.txCounter
  facts : ∀ f ∈ t.facts, f ∈ s.facts ∨ ∃ e ∈ entries, f ∈ e.facts
  kept : ∀ f ∈ s.facts, f ∈ t.facts
  taken : ∀ e ∈ entries, last < e.txCount → ∀ f ∈ e.facts, ∃ g ∈ t.facts, g.txCount = f.txCount

theorem wp_replayEntries_any {s : FactStorage} (ok : s.Ok) (last : UInt64) (entries : List WalEntry) :
    Wp (replayEntries last entries) s
      (fun n t => Retaken last entries s t ∧ (n = 0 → ∀ e ∈ entries, e.txCount ≤ last))
      (fun _ _ => True) := by
  induction entries generalizing s with
  | nil =>
      exact ⟨⟨rfl, fun _ hf => .inl hf, fun _ hf => hf, fun _ no => absurd no List.not_mem_nil⟩,
        fun _ _ no => absurd no List.not_mem_nil⟩
  | cons e entries ih =>
      rw [replayEntries]
      refine wp_ite (fun old => ?_) fun new => ?_
      · refine (ih ok).mono ?_ fun _ _ _ => trivial
        rintro n t ⟨taken, none_⟩
        refine ⟨⟨taken.counter, fun f hf => ?_, taken.kept, fun e' he' above => ?_⟩, fun zero e' he' => ?_⟩
        · refine (taken.facts f hf).imp_right ?_
          rintro ⟨e', he', hf'⟩
          exact ⟨e', List.mem_cons_of_mem e he', hf'⟩
        · obtain rfl | he' := List.mem_cons.mp he'
          · exact absurd above (not_lt.mpr old)
          · exact taken.taken e' he' above
        · obtain rfl | he' := List.mem_cons.mp he'
          · exact old
          · exact none_ zero e' he'
      · rw [wp_bind]
        refine (wp_loadFacts s e.facts).mono ?_ fun _ _ _ => trivial
        intro _ t appended
        rw [wp_bind]
        refine (ih (appended.ok ok)).mono ?_ fun _ _ _ => trivial
        rintro n u ⟨taken, _⟩
        refine ⟨⟨taken.counter.trans appended.counter, fun f hf => ?_, fun f hf => ?_,
          fun e' he' above f hf => ?_⟩, fun no => absurd no (Nat.succ_ne_zero n)⟩
        · obtain hf | ⟨e', he', hf'⟩ := taken.facts f hf
          · rw [appended.facts, List.mem_append] at hf
            refine hf.imp_right fun hf => ?_
            exact ⟨e, List.mem_cons_self, (mem_freshFacts hf).1⟩
          · exact .inr ⟨e', List.mem_cons_of_mem e he', hf'⟩
        · refine taken.kept f ?_
          rw [appended.facts]
          exact List.mem_append_left _ hf
        · obtain rfl | he' := List.mem_cons.mp he'
          · -- The fact is new, or one with its key was there before.
            have there : ∃ g ∈ t.facts, pendingKey g = pendingKey f := by
              rw [appended.facts]
              by_cases known : pendingKey f ∈ s.pendingKeys
              · obtain ⟨g, hg, same⟩ := (ok.keys _).mp known
                exact ⟨g, List.mem_append_left _ hg, same⟩
              · obtain ⟨g, hg, same⟩ := exists_freshFacts hf known
                exact ⟨g, List.mem_append_right _ hg, same⟩
            obtain ⟨g, hg, same⟩ := there
            exact ⟨g, taken.kept g hg, congrArg PendingKey.txCount same⟩
          · exact taken.taken e' he' above f hf

/-- A handle after its log was replayed: the counter covers it. -/
theorem wp_replayWal_any {db : Db H C} (h : db.Logs walCrc postcard entries) (ok : db.store.storage.Ok)
    (empty : db.store.storage.facts = []) :
    Wp (replayWal walCrc postcard) db
      (fun n t => t = { db with store := { db.store with storage := t.store.storage } } ∧
        (∃ u, Retaken db.store.lastCheckpointedTxCount entries db.store.storage u ∧
          t.store.storage.facts = u.facts ∧
          t.store.storage.txCounter = max db.store.storage.txCounter (maxTxCount u.facts)) ∧
        (n = 0 → ∀ e ∈ entries, e.txCount ≤ db.store.lastCheckpointedTxCount))
      (fun _ t => t = { db with store := { db.store with storage := t.store.storage } }) := by
  obtain ⟨store, walFile, wal, count, options⟩ := db
  simp only at ok empty
  rw [replayWal, wp_bind, wp_get]
  cases walFile with
  | none =>
      have none_ : entries = [] := by
        cases h
        assumption
      subst none_
      refine ⟨rfl, ⟨store.storage, ?_, rfl, ?_⟩, fun _ _ no => absurd no List.not_mem_nil⟩
      · exact ⟨rfl, fun _ hf => .inl hf, fun _ hf => hf, fun _ no => absurd no List.not_mem_nil⟩
      · rw [empty]
        exact (max_eq_left UInt64.zero_le).symm
  | some file =>
      simp only [Holds.readEntries postcard.fact walCrc h, ofResult, wp_bind, wp_pure, onFactStorage,
        onStore, onFacts, wp_zoom, restoreTxCounter, wp_modify]
      refine (wp_replayEntries_any ok _ entries).mono ?_ fun _ _ _ => trivial
      rintro n u ⟨taken, none_⟩
      refine ⟨trivial, ⟨u, taken, rfl, ?_⟩, none_⟩
      rw [taken.counter]

/-- The files of a process that is down: everything on its pages is marked. -/
structure Rests (crc : Crc H C) (walCrc : List UInt8 → UInt32) (postcard : Postcard) (floor : UInt64)
    (disk : Disk C) (walFile : Option (List UInt8)) (entries : List WalEntry) : Prop where
  logs : Holds postcard.fact walCrc entries walFile none
  stamped : ∀ e ∈ entries, Stamped e
  rooted : disk.header.factPageCount = 0 → disk.header.eavtRootPage = 0
  pages : ∀ i, i ≠ 0 → i ≤ disk.header.factPageCount →
    (disk.page i).Each postcard fun f => Marked disk.header.lastCheckpointedTxCount entries f.txCount
  floor : Marked disk.header.lastCheckpointedTxCount entries floor

variable [DecidableEq C]

/-- A rebuild of the indexes finds a fact, on the pages or in the log, that is as late as
the header. -/
def Disk.Covered (crc : Crc H C) (walCrc : List UInt8 → UInt32) (postcard : Postcard) (disk : Disk C)
    (walFile : Option (List UInt8)) : Prop :=
  disk.rebuilds crc = true → ∀ placed, disk.Reads postcard placed →
    disk.header.lastCheckpointedTxCount ≤
      maxTxCount (placed.map Prod.fst ++ walFacts walCrc postcard walFile)

theorem exists_maxTxCount {facts : List Fact} {n : UInt64} (h : n ≤ maxTxCount facts) :
    n = 0 ∨ ∃ f ∈ facts, n ≤ f.txCount := by
  by_contra none_
  rw [not_or, not_exists] at none_
  have pos : 0 < n := UInt64.pos_iff_ne_zero.mpr none_.1
  have low := maxTxCount_lt (fun f hf => not_le.mp fun le => none_.2 f ⟨hf, le⟩) pos
  exact absurd h (not_le.mpr low)

omit [DecidableEq C] in
/-- The facts read from pages that are all within a bound. -/
theorem Disk.Reads.each {disk : Disk C} {placed : List (Fact × FactRef)} (h : disk.Reads postcard placed)
    {P : Fact → Prop} (each : ∀ i, i ≠ 0 → i ≤ disk.header.factPages → (disk.page i).Each postcard P) :
    ∀ p ∈ placed, P p.1 := by
  intro p hp
  obtain ⟨_, page, here, read⟩ := readPageList_mem h hp
  obtain ⟨inside, rfl⟩ := List.getElem?_eq_some_iff.mp here
  rw [length_pagesFrom] at inside
  have there : (pagesFrom disk.page 1 disk.header.factPages)[p.2.pageId - 1] =
      disk.page (1 + (p.2.pageId - 1)) := by simp [pagesFrom]
  rw [there] at read
  exact each _ (by omega) (by omega) _ _ read

omit [DecidableEq C] in
theorem Disk.Reads.le_max {disk : Disk C} {placed : List (Fact × FactRef)}
    (h : disk.Reads postcard placed) {i : Nat} (data : i ≠ 0) (counted : i ≤ disk.header.factPages) :
    (disk.page i).Each postcard fun f => f.txCount ≤ maxTxCount (placed.map Prod.fst) := by
  intro slot f read
  have here : disk.page i ∈ pagesFrom disk.page 1 disk.header.factPages :=
    List.mem_map_of_mem (List.mem_range'_1.mpr (by omega))
  obtain ⟨p, hp, rfl⟩ := mem_readPageList h here read
  exact le_maxTxCount (List.mem_map_of_mem hp)

variable {floor : UInt64} {s t : Store H C} {walFile : Option (List UInt8)}

/-- Of a file that is not rebuilt the header counts the fact pages, or it has none. -/
theorem FileHeader.factPages_trusted {disk : Disk C} (trusted : disk.rebuilds crc = false)
    (rooted : disk.header.factPageCount = 0 → disk.header.eavtRootPage = 0) :
    disk.header.factPages = disk.header.factPageCount := by
  by_cases none_ : disk.header.factPageCount = 0
  · rw [Disk.rebuilds, if_pos (.inr (rooted none_))] at trusted
    have := of_decide_eq_false trusted
    omega
  · exact FileHeader.factPages_of_pos (by omega)

theorem Disk.factPages_pos {disk : Disk C} (rebuilds : disk.rebuilds crc = true) :
    0 < disk.header.factPages := by
  rw [Disk.rebuilds] at rebuilds
  split at rebuilds
  · exact of_decide_eq_true rebuilds
  · rename_i some_
    rw [not_or] at some_
    omega

omit [DecidableEq C] in
/-- A file that was kept up to its fact pages. -/
theorem Rests.kept (h : Rests crc walCrc postcard floor s.dev.disk walFile entries) {n : Nat} {d : Dev C}
    (kept : Dev.Kept n s.dev d) (synced : s.dev.disk.header.marks = s.dev.header.marks)
    (far : s.dev.disk.header.factPageCount < n) :
    Rests crc walCrc postcard floor d.disk walFile entries := by
  obtain ⟨last, count, root⟩ := FileHeader.marks_eq (kept.disk_header synced).1
  refine ⟨h.logs, h.stamped, ?_, fun i data counted => ?_, ?_⟩
  · rw [count, root]
    exact h.rooted
  · rw [count] at counted
    rw [kept.page i (by omega), last]
    exact h.pages i data counted
  · rw [last]
    exact h.floor

/-- A file whose indexes are rebuilt at the largest count its pages show. -/
theorem Rests.rebuilt (h : Rests crc walCrc postcard floor s.dev.disk walFile entries)
    (covered : s.dev.disk.Covered crc walCrc postcard walFile)
    (rebuilds : s.dev.disk.rebuilds crc = true) {placed : List (Fact × FactRef)}
    (read : s.dev.disk.Reads postcard placed) {d : Dev C}
    (rebuilt : Dev.Rebuilt s.dev.disk.header.factPages placed s.dev d) :
    Rests crc walCrc postcard floor d.disk walFile entries := by
  refine ⟨h.logs, h.stamped, fun none_ => ?_, fun i data counted => ?_, ?_⟩
  · have some_ := Disk.factPages_pos rebuilds
    rw [rebuilt.count] at none_
    omega
  · rw [rebuilt.count] at counted
    rw [rebuilt.page i (by omega), rebuilt.last]
    intro slot f here
    exact .inl (read.le_max data counted slot f here)
  · rw [rebuilt.last]
    obtain low | logged := h.floor
    · have below := low.trans (covered rebuilds placed read)
      rw [walFacts_eq h.logs] at below
      obtain rfl | ⟨f, hf, le⟩ := exists_maxTxCount below
      · exact .inl UInt64.zero_le
      · obtain hf | hf := List.mem_append.mp hf
        · exact .inl (le.trans (le_maxTxCount hf))
        · obtain ⟨e, he, hf⟩ := List.mem_flatMap.mp hf
          exact .inr ⟨e, he, f, hf, le⟩
    · exact .inr logged

/-- The store of files at rest, loaded: it counts from the mark of the header on disk. -/
structure Reloaded (crc : Crc H C) (walCrc : List UInt8 → UInt32) (postcard : Postcard) (floor : UInt64)
    (found : Disk C) (walFile : Option (List UInt8)) (entries : List WalEntry) (t : Store H C) : Prop where
  rests : Rests crc walCrc postcard floor t.dev.disk walFile entries
  stored : ∀ placed, found.Reads postcard placed → ∀ p ∈ placed,
    Marked t.dev.disk.header.lastCheckpointedTxCount entries p.1.txCount
  synced : t.dev.disk.header.marks = t.dev.header.marks
  pages : t.committedFactPages = t.dev.disk.header.factPageCount
  counter : t.storage.txCounter = t.dev.disk.header.lastCheckpointedTxCount
  last : t.lastCheckpointedTxCount = t.dev.disk.header.lastCheckpointedTxCount

theorem Store.Restored.reloaded (h : s.Restored crc postcard t)
    (rests : Rests crc walCrc postcard floor s.dev.disk walFile entries)
    (covered : s.dev.disk.Covered crc walCrc postcard walFile)
    (synced : s.dev.disk.header.marks = s.dev.header.marks) :
    Reloaded crc walCrc postcard floor s.dev.disk walFile entries t := by
  obtain ⟨trusted, taken⟩ | ⟨rebuilds, placed, rebuilt⟩ := h.file
  · have kept := taken.kept (1 + s.dev.disk.header.factPageCount)
    obtain ⟨same, synced'⟩ := kept.disk_header synced
    obtain ⟨last, count, root⟩ := FileHeader.marks_eq same
    have own := FileHeader.factPages_trusted trusted rests.rooted
    refine ⟨rests.kept kept synced (by omega), fun placed read => ?_, synced', ?_, ?_, ?_⟩
    · rw [last]
      refine read.each fun i data counted => rests.pages i data ?_
      rwa [← own]
    · rw [count, ← own]
      exact taken.pages
    · rw [last]
      exact taken.counter
    · rw [last]
      exact taken.last
  · refine ⟨rests.rebuilt covered rebuilds rebuilt.read rebuilt.dev, fun again read => ?_, ?_, ?_, ?_, ?_⟩
    · cases (read.symm.trans rebuilt.read)
      rw [rebuilt.dev.last]
      exact fun p hp => .inl (le_maxTxCount (List.mem_map_of_mem hp))
    · rw [rebuilt.dev.header]
    · rw [rebuilt.dev.count]
      exact rebuilt.pages
    · rw [rebuilt.dev.last]
      exact rebuilt.counter
    · rw [rebuilt.dev.last]
      exact rebuilt.last

theorem Store.Unrestored.rests (h : s.Unrestored crc postcard t)
    (rests : Rests crc walCrc postcard floor s.dev.disk walFile entries)
    (covered : s.dev.disk.Covered crc walCrc postcard walFile)
    (synced : s.dev.disk.header.marks = s.dev.header.marks) :
    Rests crc walCrc postcard floor t.dev.disk walFile entries := by
  obtain kept | ⟨rebuilds, placed, read, rebuilt⟩ := h
  · refine rests.kept kept synced ?_
    by_cases none_ : s.dev.disk.header.factPageCount = 0
    · omega
    · rw [FileHeader.factPages_of_pos (by omega)]
      omega
  · exact rests.rebuilt covered rebuilds read rebuilt

omit [DecidableEq C] in
/-- A log replayed on a store that counts from its header. -/
theorem Reloaded.counts {found : Disk C} (h : Reloaded crc walCrc postcard floor found walFile entries s)
    (empty : s.storage.facts = []) {db : Db H C} {u : FactStorage}
    (store : db.store = { s with storage := db.store.storage })
    (taken : Retaken s.lastCheckpointedTxCount entries s.storage u)
    (facts : db.store.storage.facts = u.facts)
    (counter : db.store.storage.txCounter = max s.storage.txCounter (maxTxCount u.facts))
    (logs : db.Logs walCrc postcard entries)
    (count : db.walEntryCount = 0 → ∀ e ∈ entries, e.txCount ≤ s.lastCheckpointedTxCount) :
    db.Counts walCrc postcard floor entries := by
  have dev : db.store.dev = s.dev := by rw [store]
  have last : db.last = s.dev.disk.header.lastCheckpointedTxCount := by rw [Db.last, dev]
  have pages : db.store.committedFactPages = s.dev.disk.header.factPageCount := by
    rw [store]
    exact h.pages
  have bounded : db.store.Bounded postcard floor (Marked db.last entries) := by
    rw [last]
    refine ⟨?_, fun f hf => ?_, h.rests.floor⟩
    · rw [dev]
      exact h.rests.pages
    · rw [facts] at hf
      obtain hf | ⟨e, he, hf⟩ := taken.facts f hf
      · rw [empty] at hf
        cases hf
      · exact .inr ⟨e, he, f, hf, le_rfl⟩
  refine ⟨logs, h.rests.stamped, ⟨?_, ?_, ?_, ?_⟩, fun n marked => ?_, bounded, fun none_ => ?_⟩
  · rw [dev]
    exact h.synced
  · rw [dev]
    exact h.rests.rooted
  · rw [dev, pages]
  · rw [dev, pages]
    omega
  · rw [last] at marked
    rw [counter, h.counter]
    obtain low | ⟨e, he, f, hf, low⟩ := marked
    · exact low.trans (le_max_left _ _)
    · by_cases new : s.lastCheckpointedTxCount < e.txCount
      · obtain ⟨g, hg, same⟩ := taken.taken e he new f hf
        rw [← same] at low
        exact (low.trans (le_maxTxCount hg)).trans (le_max_right _ _)
      · rw [h.rests.stamped e he f hf] at low
        rw [h.last] at new
        exact (low.trans (not_lt.mp new)).trans (le_max_left _ _)
  · refine bounded.mono fun n marked => ?_
    obtain low | ⟨e, he, f, hf, low⟩ := marked
    · exact low
    · rw [h.rests.stamped e he f hf] at low
      rw [last, ← h.last]
      exact low.trans (count none_ e he)

theorem Rests.wp_openWithOptions {disk : Option (Disk C)}
    (h : Rests crc walCrc postcard floor (diskOf crc disk) walFile entries)
    (covered : (diskOf crc disk).Covered crc walCrc postcard walFile) (options : OpenOptions)
    (faults : Faults) :
    Wp (openWithOptions crc walCrc postcard faults) (Db.init crc disk walFile options faults)
      (fun _ t => t.Counts walCrc postcard floor entries ∧
        ∀ placed, (diskOf crc disk).Reads postcard placed → ∀ p ∈ placed,
          p.1.txCount ≤ t.store.storage.txCounter)
      (fun _ t => Rests crc walCrc postcard floor t.store.dev.disk t.walFile entries) := by
  have found : (unopened crc disk options faults : Store H C).dev.disk = diskOf crc disk :=
    unopened_disk disk options faults
  rw [← found] at h covered ⊢
  have synced : (unopened crc disk options faults : Store H C).dev.disk.header.marks =
      (unopened crc disk options faults : Store H C).dev.header.marks := by
    cases disk <;> rfl
  simp only [openWithOptions, onStore, wp_bind, wp_zoom, wp_modify]
  refine (wp_openFile_any crc postcard (unopened crc disk options faults) rfl ?_).mono ?_ ?_
  · intro new
    cases disk with
    | none => exact ⟨rfl, rfl⟩
    | some disk => cases new
  · intro _ u restored
    have reloaded := restored.reloaded h covered synced
    have logs : Db.Logs walCrc postcard
      { (Db.init crc disk walFile options faults : Db H C) with store := u } entries := h.logs
    refine (wp_replayWal_any logs restored.okay restored.facts).mono ?_ ?_
    · rintro n t ⟨same, ⟨v, taken, facts, counter⟩, none_⟩
      have store : t.store = { u with storage := t.store.storage } := congrArg Db.store same
      have dev : t.store.dev = u.dev := by rw [store]
      have logged : Db.Logs walCrc postcard { t with walEntryCount := n } entries := by
        rw [same]
        exact h.logs
      have opened {w : Db H C} (same' : Db.SameStore { t with walEntryCount := n } w)
          (logs : w.Logs walCrc postcard entries) :
          w.Counts walCrc postcard floor entries ∧ ∀ placed,
            (unopened crc disk options faults : Store H C).dev.disk.Reads postcard placed → ∀ p ∈ placed,
              p.1.txCount ≤ w.store.storage.txCounter := by
        have counts : w.Counts walCrc postcard floor entries := by
          refine reloaded.counts restored.facts ?_ taken ?_ ?_ logs ?_
          · rw [same'.store]
            exact store
          · rw [same'.store]
            exact facts
          · rw [same'.store]
            exact counter
          · rw [same'.count]
            exact none_
        refine ⟨counts, fun placed read p hp => counts.counter _ ?_⟩
        have dev' : w.store.dev = u.dev := by
          rw [same'.store]
          exact dev
        rw [Db.last, dev']
        exact reloaded.stored placed read p hp
      rw [openWalIfExists, wp_bind, wp_get]
      refine wp_ite (fun _ => ?_) fun _ => opened .refl logged
      refine (wp_openWal logged faults.walOpen).mono ?_ ?_
      · rintro _ w ⟨logs, _, same'⟩
        exact opened same' logs
      · rintro _ w ⟨logs, same', _⟩
        have dev' : w.store.dev = u.dev := by
          rw [same'.store]
          exact dev
        have rests := reloaded.rests
        rw [dev']
        exact ⟨Holds.crash postcard.fact walCrc logs, rests.stamped, rests.rooted, rests.pages, rests.floor⟩
    · intro _ t same
      rw [same]
      exact reloaded.rests
  · intro _ u failed
    exact failed.rests h covered synced

end Opening
end Minigraf
