import Minigraf.Browser.Buffer

/-!
A database in the browser, `src/browser/mod.rs`. A write saves into the page buffer and hands
the dirty pages to IndexedDB as one transaction; the next write may come before that
transaction has ended. Whatever the order of writes, imports, ends of transactions and
reopenings, IndexedDB holds what the buffer was at one of its flushes, apart from the pages of
aborted transactions, those whose writes it refused and those that an import left behind.
-/

namespace Minigraf

/-- The pages of one transaction on the object store. -/
abbrev Batch := List (Nat × List UInt8)

/-! ## IndexedDB -/

/-- IndexedDB with one object store, as far as `src/browser/indexeddb.rs` uses it: the pages a
read finds, the transactions that were created and have not ended with the puts queued on
each, the oldest first, and the calls, each of which may throw. -/
structure IndexedDb (S : Type) where
  pages : S → Pages
  issued : S → List Batch
  transaction : S → Option S
  objectStore : S → Bool
  put : S → Nat → List UInt8 → Option S
  /-- The oldest transaction completes, or is aborted. -/
  finish : S → Bool → Option S
  /-- The page of the browser is left. -/
  close : S → S

/-- What is documented of IndexedDB: a call changes no page by itself; the puts of a
transaction are queued on it; transactions over one store end in the order in which they were
created, with all of their puts or with none; those that have not ended when the page is left
are aborted. -/
structure IndexedDb.Laws {S : Type} (idb : IndexedDb S) : Prop where
  transaction : ∀ s t, idb.transaction s = some t →
    idb.pages t = idb.pages s ∧ idb.issued t = idb.issued s ++ [[]]
  put : ∀ s t id data front batch, idb.put s id data = some t → idb.issued s = front ++ [batch] →
    idb.pages t = idb.pages s ∧ idb.issued t = front ++ [batch ++ [(id, data)]]
  complete : ∀ s t, idb.finish s true = some t →
    ∃ batch, idb.issued s = batch :: idb.issued t ∧ idb.pages t = (idb.pages s).putAll batch
  abort : ∀ s t, idb.finish s false = some t →
    ∃ batch, idb.issued s = batch :: idb.issued t ∧ idb.pages t = idb.pages s
  close : ∀ s, idb.pages (idb.close s) = idb.pages s ∧ idb.issued (idb.close s) = []

namespace IndexedDb

variable {S : Type} (idb : IndexedDb S)

/-- The puts of a batch up to the first that throws, and the rest. -/
def putPages (s : S) : Batch → S × Batch
  | [] => (s, [])
  | (id, data) :: batch =>
      match idb.put s id data with
      | some t => putPages t batch
      | none => (s, (id, data) :: batch)

/-- `IndexedDbBackend::write_pages` up to its await: an empty batch is no transaction; what a
call that throws leaves behind is not put, and an error where there is any. -/
def writePages (s : S) (batch : Batch) : S × Batch :=
  if batch.isEmpty then (s, [])
  else
    match idb.transaction s with
    | none => (s, batch)
    | some t => if idb.objectStore t then idb.putPages t batch else (t, batch)

end IndexedDb

/-! ## The database -/

structure BrowserDb (S : Type) where
  buffer : BrowserBufferBackend
  idb : S

inductive BrowserEvent where
  | save (writes : Batch) (saved : Bool)
  | importGraph (data : List UInt8) (writes : Batch)
  | ended (completed : Bool)
  | reopen (writes : Batch)

/-- The first pages of some bytes. -/
def pageChunks : Nat → List UInt8 → List (List UInt8)
  | 0, _ => []
  | n + 1, data => data.take PAGE_SIZE :: pageChunks n (data.drop PAGE_SIZE)

/-- The pages of an imported file, whose length is a multiple of the page size. -/
def importPages (data : List UInt8) : Option Pages :=
  if data.length % PAGE_SIZE ≠ 0 then none
  else
    some ((pageChunks (data.length / PAGE_SIZE) data).zipIdx.foldl (fun pages entry => pages.insert entry.2 entry.1)
      .empty)

namespace BrowserDb

variable {S : Type} (idb : IndexedDb S)

/-- The dirty pages are taken, and written where all could be read; beside the database the
pages that were not put. -/
def flush (db : BrowserDb S) (b : BrowserBufferBackend) : BrowserDb S × Batch :=
  match b.takeDirtyPages with
  | (.ok batch, b) =>
      let (t, left) := idb.writePages db.idb batch
      (⟨b, t⟩, left)
  | (.error _, b) => (⟨b, db.idb⟩, [])

/-- One turn of the event loop. The writes of `save` are those of `apply_write` and
`checkpoint`, which end before the flush where the save fails; `import_graph` and `open` load
the pages, which may write too. `none`: a page of another size, which no save writes, bytes
to import that are no whole pages, or no transaction to end. -/
def step (db : BrowserDb S) : BrowserEvent → Option (BrowserDb S × Batch)
  | .save writes saved =>
      match db.buffer.writePages writes with
      | .ok b => some (if saved then db.flush idb b else (⟨b, db.idb⟩, []))
      | .error _ => none
  | .importGraph data writes =>
      (importPages data).bind fun pages =>
        match (BrowserBufferBackend.loadPagesAllDirty pages).writePages writes with
        | .ok b => some (db.flush idb b)
        | .error _ => none
  | .ended completed => (idb.finish db.idb completed).map fun t => (⟨db.buffer, t⟩, [])
  | .reopen writes =>
      let s := idb.close db.idb
      match (BrowserBufferBackend.loadPages (idb.pages s)).writePages writes with
      | .ok b => some (⟨b, s⟩, [])
      | .error _ => none

end BrowserDb

/-- A run, with what is observed of it: the pages at each flush and each opening, the pages
whose last transaction to end was aborted, those that imports took away, and those whose put
was not queued. -/
structure BrowserRun (S : Type) where
  db : BrowserDb S
  shown : List Pages
  lost : List Nat
  gone : List Nat
  refused : List Nat

def Pages.ids (pages : Pages) : List Nat := pages.entries.map Prod.fst

/-- The pages of the oldest transaction. -/
def IndexedDb.oldest {S : Type} (idb : IndexedDb S) (s : S) : List Nat := ((idb.issued s).headD []).map Prod.fst

namespace BrowserRun

variable {S : Type} (idb : IndexedDb S)

/-- A database is opened. -/
def start (s : S) : BrowserRun S := ⟨⟨.loadPages (idb.pages (idb.close s)), idb.close s⟩, [idb.pages s], [], [], []⟩

def observe (r : BrowserRun S) (db : BrowserDb S) (left : Batch) : BrowserEvent → BrowserRun S
  | .save _ saved =>
      ⟨db, if saved then r.shown ++ [db.buffer.pages] else r.shown, r.lost, r.gone, r.refused ++ left.map Prod.fst⟩
  | .importGraph _ _ => ⟨db, r.shown ++ [db.buffer.pages], r.lost,
      r.gone ++ r.db.buffer.pages.ids.filter fun id => (db.buffer.pages.get? id).isNone,
      r.refused ++ left.map Prod.fst⟩
  | .ended true => ⟨db, r.shown, r.lost.filter fun id => id ∉ idb.oldest r.db.idb, r.gone, r.refused⟩
  | .ended false => ⟨db, r.shown, r.lost ++ idb.oldest r.db.idb, r.gone, r.refused⟩
  | .reopen _ => ⟨db, r.shown ++ [idb.pages r.db.idb], [], [], []⟩

def run (r : BrowserRun S) : List BrowserEvent → Option (BrowserRun S)
  | [] => some r
  | event :: events => (r.db.step idb event).bind fun next => (r.observe idb next.1 next.2 event).run events

end BrowserRun

/-! ## What is in flight -/

/-- The page is the same in both, or its write was refused, or an import took it away and the
second still has it. -/
def Agree (gone refused : List Nat) (shown stored : Pages) (id : Nat) : Prop :=
  shown.get? id = stored.get? id ∨ id ∈ refused ∨ id ∈ gone ∧ shown.get? id = none

theorem Agree.mono {gone more refused others : List Nat} {shown stored : Pages} {id : Nat}
    (agree : Agree gone refused shown stored id) (sub : gone ⊆ more) (subRefused : refused ⊆ others) :
    Agree more others shown stored id := by
  rcases agree with same | mem | ⟨mem, none⟩
  · exact .inl same
  · exact .inr (.inl (subRefused mem))
  · exact .inr (.inr ⟨sub mem, none⟩)

theorem Agree.trans {gone refused : List Nat} {first second third : Pages} {id : Nat}
    (one : Agree gone refused first second id) (two : Agree gone refused second third id) :
    Agree gone refused first third id := by
  rcases one with same | mem | ⟨mem, none⟩
  · rcases two with other | mem | ⟨mem, none⟩
    · exact .inl (same.trans other)
    · exact .inr (.inl mem)
    · exact .inr (.inr ⟨mem, same.trans none⟩)
  · exact .inr (.inl mem)
  · exact .inr (.inr ⟨mem, none⟩)

/-- A batch takes the pages of one flush to those of the next. -/
structure Overlays (gone refused : List Nat) (before : Pages) (batch : Batch) (after : Pages) : Prop where
  nodup : (batch.map Prod.fst).Nodup
  written : ∀ entry ∈ batch, after.get? entry.1 = some entry.2
  kept : ∀ id, id ∉ batch.map Prod.fst → Agree gone refused after before id

/-- The batches in flight lead from one flush to the last. -/
inductive InFlight (gone refused : List Nat) (shown : List Pages) : Pages → List Batch → Pages → Prop
  | nil (pages : Pages) : InFlight gone refused shown pages [] pages
  | cons {before after last : Pages} {batch : Batch} {issued : List Batch}
      (overlays : Overlays gone refused before batch after) (mem : after ∈ shown)
      (rest : InFlight gone refused shown after issued last) :
      InFlight gone refused shown before (batch :: issued) last

namespace InFlight

variable {gone refused : List Nat} {shown : List Pages} {before last next : Pages} {batch : Batch} {issued : List Batch}

theorem mono {more others : List Nat} {all : List Pages} (flight : InFlight gone refused shown before issued last)
    (sub : gone ⊆ more) (subRefused : refused ⊆ others) (subShown : shown ⊆ all) :
    InFlight more others all before issued last := by
  induction flight with
  | nil pages => exact .nil pages
  | cons overlays mem _ ih =>
      exact .cons ⟨overlays.nodup, overlays.written, fun id other => (overlays.kept id other).mono sub subRefused⟩
        (subShown mem) ih

theorem snoc (flight : InFlight gone refused shown before issued last) (overlays : Overlays gone refused last batch next)
    (mem : next ∈ shown) : InFlight gone refused shown before (issued ++ [batch]) next := by
  induction flight with
  | nil pages => exact .cons overlays mem (.nil next)
  | cons first there _ ih => exact .cons first there (ih overlays)

end InFlight

namespace Overlays

variable {gone refused lost : List Nat} {before after stored : Pages} {batch : Batch}

theorem putAll (overlays : Overlays gone refused before batch after)
    (agree : ∀ id, id ∉ lost → Agree gone refused before stored id) {id : Nat}
    (other : id ∉ lost.filter fun id => id ∉ batch.map Prod.fst) : Agree gone refused after (stored.putAll batch) id := by
  by_cases mem : id ∈ batch.map Prod.fst
  · obtain ⟨entry, there, rfl⟩ := List.mem_map.mp mem
    exact .inl ((overlays.written entry there).trans (Pages.get?_putAll_of_mem overlays.nodup there).symm)
  · have held : id ∉ lost := fun inLost => other (List.mem_filter.mpr ⟨inLost, decide_eq_true mem⟩)
    have kept := (overlays.kept id mem).trans (agree id held)
    rw [Agree, Pages.get?_putAll_of_not_mem mem]
    exact kept

theorem dropped (overlays : Overlays gone refused before batch after)
    (agree : ∀ id, id ∉ lost → Agree gone refused before stored id) {id : Nat}
    (other : id ∉ lost ++ batch.map Prod.fst) : Agree gone refused after stored id := by
  rw [List.mem_append, not_or] at other
  exact (overlays.kept id other.2).trans (agree id other.1)

end Overlays

/-! ## The flush -/

theorem Pages.mem_ids {pages : Pages} {id : Nat} : id ∈ pages.ids ↔ (pages.get? id).isSome = true := by
  rw [Pages.ids, List.mem_map, Option.isSome_iff_exists]
  constructor
  · rintro ⟨entry, mem, rfl⟩
    exact ⟨entry.2, OrdMap.get?_eq_some.mpr mem⟩
  · rintro ⟨data, found⟩
    exact ⟨(id, data), OrdMap.get?_eq_some.mp found, rfl⟩

theorem BrowserBufferBackend.loadPages_clean (pages : Pages) (id : Nat) : ¬ (loadPages pages).IsDirty id := by
  rw [IsDirty, loadPages, OrdMap.get?_empty]
  exact (Option.some_ne_none ()).symm

section Write

variable {S : Type} {idb : IndexedDb S}

/-- The puts that did not throw are queued on the transaction. -/
theorem IndexedDb.Laws.putPages (laws : idb.Laws) {s : S} {front : List Batch} {queued : Batch} (batch : Batch)
    (issued : idb.issued s = front ++ [queued]) :
    idb.pages (idb.putPages s batch).1 = idb.pages s ∧ ∃ done, batch = done ++ (idb.putPages s batch).2 ∧
      idb.issued (idb.putPages s batch).1 = front ++ [queued ++ done] := by
  induction batch generalizing s queued with
  | nil => exact ⟨rfl, [], rfl, by rw [List.append_nil]; exact issued⟩
  | cons entry batch ih =>
      obtain ⟨id, data⟩ := entry
      cases made : idb.put s id data with
      | none =>
          simp only [IndexedDb.putPages, made]
          exact ⟨trivial, [], rfl, by rw [List.append_nil]; exact issued⟩
      | some t =>
          obtain ⟨pages, now⟩ := laws.put s t id data front queued made issued
          obtain ⟨same, done, split_, rest⟩ := ih now
          simp only [IndexedDb.putPages, made]
          refine ⟨same.trans pages, (id, data) :: done, congrArg _ split_, ?_⟩
          rw [rest, List.append_assoc]
          rfl

/-- A write changes no page yet; what of its batch is put is one more transaction. -/
theorem IndexedDb.Laws.writePages (laws : idb.Laws) (s : S) (batch : Batch) :
    idb.pages (idb.writePages s batch).1 = idb.pages s ∧ ∃ done, batch = done ++ (idb.writePages s batch).2 ∧
      (idb.issued (idb.writePages s batch).1 = idb.issued s ++ [done] ∨
        done = [] ∧ idb.issued (idb.writePages s batch).1 = idb.issued s) := by
  rw [IndexedDb.writePages]
  by_cases empty : batch.isEmpty = true
  · rw [if_pos empty]
    exact ⟨rfl, [], List.isEmpty_iff.mp empty, .inr ⟨rfl, rfl⟩⟩
  · rw [if_neg empty]
    cases created : idb.transaction s with
    | none => exact ⟨rfl, [], rfl, .inr ⟨rfl, rfl⟩⟩
    | some t =>
        obtain ⟨pages, issued⟩ := laws.transaction s t created
        by_cases there : idb.objectStore t = true
        · simp only [if_pos there]
          obtain ⟨same, done, split_, rest⟩ := laws.putPages batch issued
          exact ⟨same.trans pages, done, split_, .inl rest⟩
        · simp only [if_neg there]
          exact ⟨pages, [], rfl, .inl issued⟩

/-- A flush leaves no page dirty, also where a page could not be read or written. -/
theorem BrowserDb.flush_buffer (db : BrowserDb S) (b : BrowserBufferBackend) :
    (db.flush idb b).1.buffer = { b with dirty := .empty } := by
  have rest : b.takeDirtyPages.2 = { b with dirty := .empty } := rfl
  rw [flush]
  rcases taken : b.takeDirtyPages with ⟨_ | batch, b'⟩
  · rw [taken] at rest
    exact rest
  · rw [taken] at rest
    exact rest

end Write

namespace BrowserRun

variable {S : Type} {idb : IndexedDb S}

/-- What every turn keeps: IndexedDB is at a flush that was shown, the batches in flight lead
to the last flush, and the buffer differs from that one in dirty pages only. -/
structure Keeps (idb : IndexedDb S) (r : BrowserRun S) (flushed last : Pages) : Prop where
  sound : r.db.buffer.Sound
  mem : flushed ∈ r.shown
  stored : ∀ id, id ∉ r.lost → Agree r.gone r.refused flushed (idb.pages r.db.idb) id
  flight : InFlight r.gone r.refused r.shown flushed (idb.issued r.db.idb) last
  buffer : ∀ id, ¬ r.db.buffer.IsDirty id → Agree r.gone r.refused r.db.buffer.pages last id

variable {r : BrowserRun S} {flushed last : Pages}

theorem Keeps.start (laws : idb.Laws) (s : S) : Keeps idb (start idb s) (idb.pages s) (idb.pages s) where
  sound := fun id dirty => absurd dirty (BrowserBufferBackend.loadPages_clean _ id)
  mem := List.mem_singleton_self _
  stored := fun _ _ => .inl (by rw [BrowserRun.start, (laws.close s).1])
  flight := by
    rw [BrowserRun.start, (laws.close s).2]
    exact .nil _
  buffer := fun _ _ => .inl (by rw [BrowserRun.start, BrowserBufferBackend.loadPages, (laws.close s).1])

theorem Keeps.flush (laws : idb.Laws) (keeps : Keeps idb r flushed last) {b : BrowserBufferBackend} {gone : List Nat}
    (sub : r.gone ⊆ gone) (sound : b.Sound) (buffer : ∀ id, ¬ b.IsDirty id → Agree gone r.refused b.pages last id) :
    ∃ next, Keeps idb ⟨(r.db.flush idb b).1, r.shown ++ [(r.db.flush idb b).1.buffer.pages], r.lost, gone,
      r.refused ++ (r.db.flush idb b).2.map Prod.fst⟩ flushed next := by
  obtain ⟨batch, taken, nodup, ids, written⟩ := BrowserBufferBackend.takeDirtyPages_ok sound
  have flushes : r.db.flush idb b =
      (⟨{ b with dirty := .empty }, (idb.writePages r.db.idb batch).1⟩, (idb.writePages r.db.idb batch).2) := by
    rw [BrowserDb.flush, taken]
  rw [flushes]
  obtain ⟨pages, done, split_, issued⟩ := laws.writePages r.db.idb batch
  have subRefused : r.refused ⊆ r.refused ++ (idb.writePages r.db.idb batch).2.map Prod.fst :=
    List.subset_append_left _ _
  have flight := keeps.flight.mono sub subRefused (List.subset_append_left r.shown [b.pages])
  have stored : ∀ id, id ∉ r.lost →
      Agree gone (r.refused ++ (idb.writePages r.db.idb batch).2.map Prod.fst) flushed
        (idb.pages (idb.writePages r.db.idb batch).1) id := fun id other => by
    rw [pages]
    exact (keeps.stored id other).mono sub subRefused
  have noneDirty : ∀ id, ¬ (BrowserBufferBackend.mk b.pages .empty).IsDirty id := fun id =>
    BrowserBufferBackend.loadPages_clean b.pages id
  -- a page that was not put is as it was at the last flush, or refused
  have kept : ∀ id, id ∉ done.map Prod.fst →
      Agree gone (r.refused ++ (idb.writePages r.db.idb batch).2.map Prod.fst) b.pages last id := by
    intro id other
    by_cases dirty : b.IsDirty id
    · refine .inr (.inl (List.mem_append_right _ ?_))
      have mem := (ids id).mpr dirty
      rw [split_, List.map_append] at mem
      exact (List.mem_append.mp mem).resolve_left other
    · exact (buffer id dirty).mono (List.Subset.refl _) subRefused
  rcases issued with new | ⟨rfl, same⟩
  · have overlays : Overlays gone (r.refused ++ (idb.writePages r.db.idb batch).2.map Prod.fst) last done b.pages := by
      refine ⟨?_, fun entry mem => written entry ?_, kept⟩
      · rw [split_, List.map_append] at nodup
        exact (List.nodup_append.mp nodup).1
      · rw [split_]
        exact List.mem_append_left _ mem
    refine ⟨b.pages, fun id dirty => absurd dirty (noneDirty id), List.mem_append_left _ keeps.mem, stored, ?_,
      fun id _ => .inl rfl⟩
    rw [new]
    exact flight.snoc overlays (List.mem_append_right _ (List.mem_singleton_self _))
  · refine ⟨last, fun id dirty => absurd dirty (noneDirty id), List.mem_append_left _ keeps.mem, stored, ?_,
      fun id _ => kept id List.not_mem_nil⟩
    rw [same]
    exact flight

/-- Writes that are not flushed make the pages dirty that they change. -/
theorem Keeps.written (keeps : Keeps idb r flushed last) {writes : Batch} {b : BrowserBufferBackend}
    (wrote : r.db.buffer.writePages writes = .ok b) :
    b.Sound ∧ ∀ id, ¬ b.IsDirty id → Agree r.gone r.refused b.pages last id := by
  obtain ⟨dirty, clean, sound⟩ := BrowserBufferBackend.writePages_spec wrote
  refine ⟨sound keeps.sound, fun id calm => ?_⟩
  rw [Agree, clean id calm]
  exact keeps.buffer id fun before => calm (dirty id before)

/-- An imported page is dirty; what the import has not is gone. -/
theorem Keeps.imported (keeps : Keeps idb r flushed last) {pages : Pages} {writes : Batch} {b : BrowserBufferBackend}
    (wrote : (BrowserBufferBackend.loadPagesAllDirty pages).writePages writes = .ok b) :
    b.Sound ∧ ∀ id, ¬ b.IsDirty id →
      Agree (r.gone ++ r.db.buffer.pages.ids.filter fun id => (b.pages.get? id).isNone) r.refused b.pages last id := by
  obtain ⟨dirty, clean, sound⟩ := BrowserBufferBackend.writePages_spec wrote
  have all := BrowserBufferBackend.loadPagesAllDirty_dirty pages
  refine ⟨sound fun id there => (all id).mp there, fun id calm => ?_⟩
  have absent : b.pages.get? id = none := by
    rw [clean id calm]
    cases found : pages.get? id with
    | none => exact found
    | some data => exact absurd (dirty id ((all id).mpr (by rw [found]; rfl))) calm
  cases found : last.get? id with
  | none => exact .inl (absent.trans found.symm)
  | some data =>
      have there : id ∈ r.refused ∨ id ∈ r.gone ∨ (r.db.buffer.pages.get? id).isSome = true := by
        by_cases before : r.db.buffer.IsDirty id
        · exact .inr (.inr (keeps.sound id before))
        · rcases keeps.buffer id before with same | mem | ⟨mem, _⟩
          · exact .inr (.inr (by rw [same, found]; rfl))
          · exact .inl mem
          · exact .inr (.inl mem)
      rcases there with mem | mem | there
      · exact .inr (.inl mem)
      · exact .inr (.inr ⟨List.mem_append_left _ mem, absent⟩)
      · refine .inr (.inr ⟨List.mem_append_right _ ?_, absent⟩)
        exact List.mem_filter.mpr ⟨Pages.mem_ids.mpr there, by rw [absent]; rfl⟩

theorem Keeps.step (laws : idb.Laws) (keeps : Keeps idb r flushed last) {event : BrowserEvent} {db : BrowserDb S}
    {left : Batch} (stepped : r.db.step idb event = some (db, left)) :
    ∃ flushed last, Keeps idb (r.observe idb db left event) flushed last := by
  cases event with
  | save writes saved =>
      cases wrote : r.db.buffer.writePages writes with
      | error e => simp [BrowserDb.step, wrote] at stepped
      | ok b =>
          simp only [BrowserDb.step, wrote, Option.some.injEq] at stepped
          obtain ⟨sound, buffer⟩ := keeps.written wrote
          cases saved with
          | false =>
              rw [if_neg Bool.false_ne_true, Prod.mk.injEq] at stepped
              obtain ⟨rfl, rfl⟩ := stepped
              rw [observe, List.map_nil, List.append_nil, if_neg Bool.false_ne_true]
              exact ⟨flushed, last, sound, keeps.mem, keeps.stored, keeps.flight, buffer⟩
          | true =>
              rw [if_pos rfl] at stepped
              obtain ⟨next, done⟩ := keeps.flush laws (List.Subset.refl r.gone) sound buffer
              rw [stepped] at done
              exact ⟨flushed, next, done⟩
  | importGraph data writes =>
      obtain ⟨pages, -, stepped⟩ := Option.bind_eq_some_iff.mp stepped
      cases wrote : (BrowserBufferBackend.loadPagesAllDirty pages).writePages writes with
      | error e => simp [wrote] at stepped
      | ok b =>
          simp only [wrote, Option.some.injEq] at stepped
          obtain ⟨sound, buffer⟩ := keeps.imported wrote
          obtain ⟨next, done⟩ := keeps.flush laws (List.subset_append_left _ _) sound buffer
          have same : (r.db.flush idb b).1.buffer.pages = b.pages := by rw [BrowserDb.flush_buffer]
          rw [stepped] at done same
          refine ⟨flushed, next, ?_⟩
          rw [observe, same]
          rw [same] at done
          exact done
  | ended completed =>
      obtain ⟨t, finished, made⟩ := Option.map_eq_some_iff.mp stepped
      rw [Prod.mk.injEq] at made
      obtain ⟨rfl, rfl⟩ := made
      cases completed with
      | true =>
          obtain ⟨batch, issued, pages⟩ := laws.complete _ _ finished
          have flight := keeps.flight
          rw [issued] at flight
          cases flight with
          | cons overlays mem flight =>
              refine ⟨_, last, keeps.sound, mem, fun id other => ?_, flight, keeps.buffer⟩
              simp only [observe, IndexedDb.oldest, issued, List.headD_cons] at other
              simp only [observe, pages]
              exact overlays.putAll keeps.stored other
      | false =>
          obtain ⟨batch, issued, pages⟩ := laws.abort _ _ finished
          have flight := keeps.flight
          rw [issued] at flight
          cases flight with
          | cons overlays mem flight =>
              refine ⟨_, last, keeps.sound, mem, fun id other => ?_, flight, keeps.buffer⟩
              simp only [observe, IndexedDb.oldest, issued, List.headD_cons] at other
              simp only [observe, pages]
              exact overlays.dropped keeps.stored other
  | reopen writes =>
      obtain ⟨pages, issued⟩ := laws.close r.db.idb
      cases wrote : (BrowserBufferBackend.loadPages (idb.pages (idb.close r.db.idb))).writePages writes with
      | error e => simp [BrowserDb.step, wrote] at stepped
      | ok b =>
          simp only [BrowserDb.step, wrote, Option.some.injEq, Prod.mk.injEq] at stepped
          obtain ⟨rfl, rfl⟩ := stepped
          obtain ⟨_, clean, sound⟩ := BrowserBufferBackend.writePages_spec wrote
          refine ⟨idb.pages r.db.idb, idb.pages r.db.idb,
            sound fun id dirty => absurd dirty (BrowserBufferBackend.loadPages_clean _ id),
            List.mem_append_right _ (List.mem_singleton_self _), fun id _ => .inl (congrArg (·.get? id) pages.symm), ?_,
            fun id calm => .inl ?_⟩
          · rw [observe, issued]
            exact .nil _
          · exact (clean id calm).trans (congrArg (·.get? id) pages)

/-! ## Runs -/

/-- What each turn keeps, a run keeps. -/
theorem run_keeps {P : BrowserRun S → Prop}
    (each : ∀ event r db left, r.db.step idb event = some (db, left) → P r → P (r.observe idb db left event))
    {events : List BrowserEvent} {r' : BrowserRun S} (first : P r) (ran : r.run idb events = some r') : P r' := by
  induction events generalizing r with
  | nil =>
      cases ran
      exact first
  | cons event events ih =>
      obtain ⟨next, stepped, rest⟩ := Option.bind_eq_some_iff.mp ran
      exact ih (each event r next.1 next.2 stepped first) rest

/-- IndexedDB is always at a flush that was shown; once no transaction is in flight, it has
the pages of the buffer that are not dirty. Both leave out the pages of an aborted transaction
and of a refused write, which are not dirty any more, and those that an import took away. -/
theorem stored_shown (laws : idb.Laws) {s : S} {events : List BrowserEvent}
    (ran : (BrowserRun.start idb s).run idb events = some r) :
    (∃ flushed ∈ r.shown, ∀ id, id ∉ r.lost → Agree r.gone r.refused flushed (idb.pages r.db.idb) id) ∧
      (idb.issued r.db.idb = [] → ∀ id, id ∉ r.lost → ¬ r.db.buffer.IsDirty id →
        Agree r.gone r.refused r.db.buffer.pages (idb.pages r.db.idb) id) := by
  have kept : ∃ flushed last, Keeps idb r flushed last := by
    refine run_keeps (P := fun r => ∃ flushed last, Keeps idb r flushed last) ?_ ⟨_, _, Keeps.start laws s⟩ ran
    rintro event r db left stepped ⟨flushed, last, keeps⟩
    exact keeps.step laws stepped
  obtain ⟨flushed, last, keeps⟩ := kept
  refine ⟨⟨flushed, keeps.mem, keeps.stored⟩, fun ended id other calm => ?_⟩
  have flight := keeps.flight
  rw [ended] at flight
  cases flight with
  | nil => exact (keeps.buffer id calm).trans (keeps.stored id other)

end BrowserRun

/-! ## One run -/

/-- A queue of transactions that throws nothing. -/
def IndexedDb.queue : IndexedDb (Pages × List Batch) where
  pages := Prod.fst
  issued := Prod.snd
  transaction s := some (s.1, s.2 ++ [[]])
  objectStore _ := true
  put s id data := some (s.1, s.2.dropLast ++ [s.2.getLastD [] ++ [(id, data)]])
  finish s completed :=
    match s.2 with
    | [] => none
    | batch :: issued => some (if completed then s.1.putAll batch else s.1, issued)
  close s := (s.1, [])

theorem IndexedDb.queue_laws : IndexedDb.queue.Laws where
  transaction s t created := by
    cases created
    exact ⟨rfl, rfl⟩
  put s t id data front batch made issued := by
    cases made
    have issued : s.2 = front ++ [batch] := issued
    refine ⟨rfl, ?_⟩
    change s.2.dropLast ++ [s.2.getLastD [] ++ [(id, data)]] = _
    rw [issued]
    simp
  complete s t finished := by
    obtain ⟨pages, issued⟩ := s
    cases issued with
    | nil => cases finished
    | cons batch issued =>
        cases finished
        exact ⟨batch, rfl, rfl⟩
  abort s t finished := by
    obtain ⟨pages, issued⟩ := s
    cases issued with
    | nil => cases finished
    | cons batch issued =>
        cases finished
        exact ⟨batch, rfl, rfl⟩
  close s := ⟨rfl, rfl⟩

/-- One page of bytes. -/
def onePage : List UInt8 := List.replicate PAGE_SIZE 7

theorem importPages_onePage : importPages onePage = some (OrdMap.empty.insert 0 onePage) := by
  have length : onePage.length = PAGE_SIZE := List.length_replicate
  have whole : onePage.take PAGE_SIZE = onePage := List.take_of_length_le length.le
  rw [importPages, length, if_neg (by decide), Nat.div_self (by decide), pageChunks, whole]
  rfl

/-- An import of one page, and the end of its transaction. -/
theorem BrowserRun.stored_shown_once : ∃ r, (BrowserRun.start IndexedDb.queue (.empty, [])).run IndexedDb.queue
    [.importGraph onePage [], .ended true] = some r ∧
      ∃ flushed ∈ r.shown, ∀ id, id ∉ r.lost → Agree r.gone r.refused flushed (IndexedDb.queue.pages r.db.idb) id := by
  have ran : (BrowserRun.start IndexedDb.queue (.empty, [])).run IndexedDb.queue
      [.importGraph onePage [], .ended true] = some ⟨⟨⟨OrdMap.empty.insert 0 onePage, .empty⟩,
        (OrdMap.empty.insert 0 onePage, [])⟩, [.empty, OrdMap.empty.insert 0 onePage], [], [], []⟩ := by
    rw [run, BrowserDb.step, importPages_onePage]
    rfl
  exact ⟨_, ran, (stored_shown IndexedDb.queue_laws ran).1⟩

end Minigraf
