import Minigraf.Browser.Flush

/-!
What IndexedDB has of the buffer when flushes may fail. The dirty pages are taken before their
flush is known to succeed, so a page whose flush failed stays out of IndexedDB until it is
written once more. Every other page of the buffer is there as soon as no transaction is in
flight.
-/

namespace Minigraf

/-! ## What IndexedDB comes to hold -/

theorem Pages.putAll_append (pages : Pages) (first rest : Batch) :
    pages.putAll (first ++ rest) = (pages.putAll first).putAll rest :=
  List.foldl_append

/-- Behind its last put a page is what was put, whatever it was before. -/
theorem Pages.putAll_alike {pages others : Pages} {batch : Batch} {id : Nat}
    (alike : pages.get? id = others.get? id ∨ id ∈ batch.map Prod.fst) :
    (pages.putAll batch).get? id = (others.putAll batch).get? id := by
  induction batch generalizing pages others with
  | nil => exact alike.resolve_right List.not_mem_nil
  | cons entry batch ih =>
      refine ih ?_
      rw [OrdMap.get?_insert, OrdMap.get?_insert]
      by_cases here : id = entry.1
      · exact .inl (by rw [if_pos here, if_pos here])
      · rw [if_neg here, if_neg here]
        exact alike.imp_right fun mem => (List.mem_cons.mp mem).resolve_left here

section Settled

variable {S : Type} (idb : IndexedDb S)

/-- The puts of the transactions in flight. -/
def IndexedDb.queued (s : S) : Batch := (idb.issued s).flatten

/-- The pages once the transactions in flight have completed. -/
def IndexedDb.settled (s : S) : Pages := (idb.pages s).putAll (idb.queued s)

/-- The puts of the transactions created since. -/
def IndexedDb.queuedSince (before after : S) : Batch :=
  ((idb.issued after).drop (idb.issued before).length).flatten

variable {idb}

/-- A write adds its puts to those in flight. -/
theorem IndexedDb.Laws.settled_writePages (laws : idb.Laws) (s : S) (batch : Batch) :
    batch = idb.queuedSince s (idb.writePages s batch).1 ++ (idb.writePages s batch).2 ∧
      idb.settled (idb.writePages s batch).1 =
        (idb.settled s).putAll (idb.queuedSince s (idb.writePages s batch).1) := by
  obtain ⟨pages, done, split_, issued⟩ := laws.writePages s batch
  have since : idb.queuedSince s (idb.writePages s batch).1 = done := by
    rcases issued with new | ⟨rfl, same⟩
    · rw [IndexedDb.queuedSince, new, List.drop_left, List.flatten_singleton]
    · rw [IndexedDb.queuedSince, same, List.drop_length, List.flatten_nil]
  rw [since]
  refine ⟨split_, ?_⟩
  rw [IndexedDb.settled, IndexedDb.settled, pages, ← Pages.putAll_append]
  rcases issued with new | ⟨rfl, same⟩
  · rw [IndexedDb.queued, new, List.flatten_append, List.flatten_singleton, IndexedDb.queued]
  · rw [IndexedDb.queued, same, List.append_nil, IndexedDb.queued]

theorem IndexedDb.Laws.settled_complete (laws : idb.Laws) {s t : S} (finished : idb.finish s true = some t) :
    idb.settled t = idb.settled s := by
  obtain ⟨batch, issued, pages⟩ := laws.complete s t finished
  rw [IndexedDb.settled, IndexedDb.settled, IndexedDb.queued, IndexedDb.queued, issued, pages, List.flatten_cons,
    Pages.putAll_append]

/-- An aborted transaction changes the pages that no later one puts. -/
theorem IndexedDb.Laws.settled_abort (laws : idb.Laws) {s t : S} (finished : idb.finish s false = some t) {id : Nat}
    (other : id ∈ idb.oldest s → id ∈ (idb.queued t).map Prod.fst) :
    (idb.settled t).get? id = (idb.settled s).get? id := by
  obtain ⟨batch, issued, pages⟩ := laws.abort s t finished
  rw [IndexedDb.oldest, issued, List.headD_cons] at other
  rw [IndexedDb.settled, IndexedDb.settled, pages, IndexedDb.queued, IndexedDb.queued, issued, List.flatten_cons,
    Pages.putAll_append]
  refine Pages.putAll_alike ?_
  by_cases mem : id ∈ batch.map Prod.fst
  · exact .inr (other mem)
  · exact .inl (Pages.get?_putAll_of_not_mem mem).symm

theorem IndexedDb.Laws.settled_close (laws : idb.Laws) (s : S) : idb.settled (idb.close s) = idb.pages s := by
  rw [IndexedDb.settled, IndexedDb.queued, (laws.close s).1, (laws.close s).2]
  rfl

end Settled

/-! ## Runs -/

/-- A run, with the pages whose last flush failed: their put was not queued, or the
transaction of their last put was aborted. -/
structure FlushRun (S : Type) where
  db : BrowserDb S
  failed : List Nat

namespace FlushRun

section Run

variable {S : Type} (idb : IndexedDb S)

/-- A database is opened. -/
def start (s : S) : FlushRun S := ⟨⟨.loadPages (idb.pages (idb.close s)), idb.close s⟩, []⟩

def observe (r : FlushRun S) (db : BrowserDb S) (left : Batch) : BrowserEvent → FlushRun S
  | .save _ _ | .importGraph _ _ =>
      ⟨db, (r.failed.filter fun id => id ∉ (idb.queuedSince r.db.idb db.idb).map Prod.fst) ++ left.map Prod.fst⟩
  | .ended true => ⟨db, r.failed⟩
  | .ended false =>
      ⟨db, r.failed ++ (idb.oldest r.db.idb).filter fun id => id ∉ (idb.queued db.idb).map Prod.fst⟩
  | .reopen _ => ⟨db, []⟩

def run (r : FlushRun S) : List BrowserEvent → Option (FlushRun S)
  | [] => some r
  | event :: events => (r.db.step idb event).bind fun next => (r.observe idb next.1 next.2 event).run events

/-- IndexedDB has every page of the buffer, and so has a database that is opened on it. -/
def Stored (r : FlushRun S) : Prop :=
  ∀ id data, r.db.buffer.pages.get? id = some data →
    (idb.pages r.db.idb).get? id = some data ∧ (start idb r.db.idb).db.buffer.readPage id = .ok data

end Run

variable {S : Type} {idb : IndexedDb S} {r : FlushRun S}

/-- What every turn keeps: the pages of the buffer that are not dirty come to be stored,
apart from those whose flush failed. -/
structure Keeps (idb : IndexedDb S) (r : FlushRun S) : Prop where
  sound : r.db.buffer.Sound
  settled : ∀ id data, r.db.buffer.pages.get? id = some data → ¬ r.db.buffer.IsDirty id → id ∉ r.failed →
    (idb.settled r.db.idb).get? id = some data

theorem Keeps.start (laws : idb.Laws) (s : S) : Keeps idb (start idb s) where
  sound id dirty := absurd dirty (BrowserBufferBackend.loadPages_clean _ id)
  settled id data found _ _ := by
    rw [FlushRun.start, BrowserBufferBackend.loadPages, (laws.close s).1] at found
    rw [FlushRun.start, laws.settled_close]
    exact found

/-- A flush of a buffer whose clean pages come to be stored. -/
theorem Keeps.flush (laws : idb.Laws) {b : BrowserBufferBackend} (sound : b.Sound)
    (settled : ∀ id data, b.pages.get? id = some data → ¬ b.IsDirty id → id ∉ r.failed →
      (idb.settled r.db.idb).get? id = some data) :
    Keeps idb ⟨(r.db.flush idb b).1,
      (r.failed.filter fun id => id ∉ (idb.queuedSince r.db.idb (r.db.flush idb b).1.idb).map Prod.fst) ++
        (r.db.flush idb b).2.map Prod.fst⟩ := by
  obtain ⟨batch, taken, nodup, ids, written⟩ := BrowserBufferBackend.takeDirtyPages_ok sound
  have flushes : r.db.flush idb b =
      (⟨{ b with dirty := .empty }, (idb.writePages r.db.idb batch).1⟩, (idb.writePages r.db.idb batch).2) := by
    rw [BrowserDb.flush, taken]
  rw [flushes]
  obtain ⟨split_, after⟩ := laws.settled_writePages r.db.idb batch
  generalize idb.queuedSince r.db.idb (idb.writePages r.db.idb batch).1 = done at split_ after ⊢
  refine ⟨fun id dirty => absurd dirty (BrowserBufferBackend.loadPages_clean b.pages id), ?_⟩
  intro id data found _ fine
  rw [List.mem_append, not_or, List.mem_filter, not_and] at fine
  rw [after]
  by_cases put : id ∈ done.map Prod.fst
  · obtain ⟨entry, mem, rfl⟩ := List.mem_map.mp put
    have inBatch : entry ∈ batch := by
      rw [split_]
      exact List.mem_append_left _ mem
    rw [split_, List.map_append] at nodup
    rw [Pages.get?_putAll_of_mem (List.nodup_append.mp nodup).1 mem, ← written entry inBatch]
    exact found
  · rw [Pages.get?_putAll_of_not_mem put]
    refine settled id data found (fun dirty => ?_) fun failed => fine.1 failed (decide_eq_true put)
    have mem := (ids id).mpr dirty
    rw [split_, List.map_append] at mem
    exact fine.2 ((List.mem_append.mp mem).resolve_left put)

theorem Keeps.written (keeps : Keeps idb r) {writes : Batch} {b : BrowserBufferBackend}
    (wrote : r.db.buffer.writePages writes = .ok b) :
    b.Sound ∧ ∀ id data, b.pages.get? id = some data → ¬ b.IsDirty id → id ∉ r.failed →
      (idb.settled r.db.idb).get? id = some data := by
  obtain ⟨dirty, clean, sound⟩ := BrowserBufferBackend.writePages_spec wrote
  refine ⟨sound keeps.sound, fun id data found calm fine => ?_⟩
  rw [clean id calm] at found
  exact keeps.settled id data found (fun before => calm (dirty id before)) fine

/-- Every page of an import is dirty. -/
theorem imported {pages : Pages} {writes : Batch} {b : BrowserBufferBackend}
    (wrote : (BrowserBufferBackend.loadPagesAllDirty pages).writePages writes = .ok b) :
    b.Sound ∧ ∀ id data, b.pages.get? id = some data → b.IsDirty id := by
  obtain ⟨dirty, clean, sound⟩ := BrowserBufferBackend.writePages_spec wrote
  have all := BrowserBufferBackend.loadPagesAllDirty_dirty pages
  refine ⟨sound fun id there => (all id).mp there, fun id data found => ?_⟩
  by_contra calm
  rw [clean id calm] at found
  exact calm (dirty id ((all id).mpr (by rw [BrowserBufferBackend.loadPagesAllDirty] at found; rw [found]; rfl)))

theorem Keeps.step (laws : idb.Laws) (keeps : Keeps idb r) {event : BrowserEvent} {db : BrowserDb S} {left : Batch}
    (stepped : r.db.step idb event = some (db, left)) : Keeps idb (r.observe idb db left event) := by
  cases event with
  | save writes saved =>
      cases wrote : r.db.buffer.writePages writes with
      | error e => simp [BrowserDb.step, wrote] at stepped
      | ok b =>
          simp only [BrowserDb.step, wrote, Option.some.injEq] at stepped
          obtain ⟨sound, settled⟩ := keeps.written wrote
          cases saved with
          | false =>
              rw [if_neg Bool.false_ne_true, Prod.mk.injEq] at stepped
              obtain ⟨rfl, rfl⟩ := stepped
              refine ⟨sound, fun id data found calm fine => settled id data found calm fun failed => fine ?_⟩
              have none_ : idb.queuedSince r.db.idb r.db.idb = [] := by
                rw [IndexedDb.queuedSince, List.drop_length, List.flatten_nil]
              rw [observe, none_]
              exact List.mem_append_left _ (List.mem_filter.mpr ⟨failed, rfl⟩)
          | true =>
              rw [if_pos rfl] at stepped
              have done := Keeps.flush laws sound settled
              rw [stepped] at done
              exact done
  | importGraph data writes =>
      obtain ⟨pages, -, stepped⟩ := Option.bind_eq_some_iff.mp stepped
      cases wrote : (BrowserBufferBackend.loadPagesAllDirty pages).writePages writes with
      | error e => simp [wrote] at stepped
      | ok b =>
          simp only [wrote, Option.some.injEq] at stepped
          obtain ⟨sound, dirty⟩ := imported wrote
          have done := Keeps.flush (r := r) laws sound fun id data found calm _ => absurd (dirty id data found) calm
          rw [stepped] at done
          exact done
  | ended completed =>
      obtain ⟨t, finished, made⟩ := Option.map_eq_some_iff.mp stepped
      rw [Prod.mk.injEq] at made
      obtain ⟨rfl, rfl⟩ := made
      cases completed with
      | true =>
          refine ⟨keeps.sound, fun id data found calm fine => ?_⟩
          rw [observe, laws.settled_complete finished]
          exact keeps.settled id data found calm fine
      | false =>
          refine ⟨keeps.sound, fun id data found calm fine => ?_⟩
          rw [observe, List.mem_append, not_or, List.mem_filter, not_and] at fine
          have later : id ∈ idb.oldest r.db.idb → id ∈ (idb.queued t).map Prod.fst := fun mem =>
            by_contra fun absent => fine.2 mem (decide_eq_true absent)
          rw [observe, laws.settled_abort finished later]
          exact keeps.settled id data found calm fine.1
  | reopen writes =>
      cases wrote : (BrowserBufferBackend.loadPages (idb.pages (idb.close r.db.idb))).writePages writes with
      | error e => simp [BrowserDb.step, wrote] at stepped
      | ok b =>
          simp only [BrowserDb.step, wrote, Option.some.injEq, Prod.mk.injEq] at stepped
          obtain ⟨rfl, rfl⟩ := stepped
          obtain ⟨sound, settled⟩ := (Keeps.start laws r.db.idb).written wrote
          exact ⟨sound, settled⟩

theorem run_keeps (laws : idb.Laws) {events : List BrowserEvent} {r' : FlushRun S} (first : Keeps idb r)
    (ran : r.run idb events = some r') : Keeps idb r' := by
  induction events generalizing r with
  | nil =>
      cases ran
      exact first
  | cons event events ih =>
      obtain ⟨next, stepped, rest⟩ := Option.bind_eq_some_iff.mp ran
      exact ih (first.step laws stepped) rest

end FlushRun
end Minigraf
