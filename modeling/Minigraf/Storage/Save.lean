import Minigraf.Storage.Image

/-!
What `save` does to a store in good order: when it succeeds the store is in good order
again with the pending facts committed, and when it is cut short the file is what it
was but for pages behind the committed fact pages.
-/

namespace Minigraf

open Bytes EStateM

/-! ## Fact pages -/

section FactPages

variable {H C : Type} (crc : Crc H C)

/-- A page that belongs at `id` when `pages` are written from `start` on. -/
def PageAt (start : Nat) (pages : List Page) (id : Nat) (p : Page) : Prop :=
  start ≤ id ∧ pages[id - start]? = some p

theorem PageAt.succ {start : Nat} {page : Page} {pages : List Page} {id : Nat} {p : Page}
    (h : PageAt (start + 1) pages id p) : PageAt start (page :: pages) id p := by
  obtain ⟨le, hp⟩ := h
  refine ⟨by omega, ?_⟩
  rw [show id - start = id - (start + 1) + 1 by omega, List.getElem?_cons_succ]
  exact hp

theorem wp_writeFactPages {s : Dev C} (h : s.Ok) {start : Nat} {pages : List Page}
    (dense : start ≤ s.header.pageCount) (limit : start ≤ PAGE_LIMIT)
    (uncached : ∀ e ∈ s.cache.entries, e.1 < start) :
    Wp (writeFactPages crc start pages) s
      (fun _ t => Wrote crc (PageAt start pages) s t ∧ start + pages.length ≤ t.header.pageCount ∧
        start + pages.length ≤ PAGE_LIMIT ∧ pagesFrom t.disk.page start pages.length = pages ∧
        t.cache = s.cache)
      (fun _ t => Stopped crc (PageAt start pages) (PAGE_LIMIT < start + pages.length) s t) := by
  induction pages generalizing s start with
  | nil =>
      rw [writeFactPages, wp_pure]
      exact ⟨.refl h, dense, limit, rfl, rfl⟩
  | cons page pages ih =>
      rw [writeFactPages, wp_bind, List.length_cons]
      refine (wp_writeUncached crc (PageAt start (page :: pages)) h dense
        ⟨le_rfl, by rw [Nat.sub_self]; rfl⟩ fun e he => (uncached e he).ne).mono ?_ ?_
      · rintro _ t ⟨wrote, hpages, hcount, near, hcache⟩
        rw [← not_le, far_iff] at near
        refine (@ih t wrote.okay (start + 1) (by omega) (by omega) (fun e he => ?_)).mono ?_ ?_
        · rw [hcache] at he
          exact Nat.lt_succ_of_lt (uncached e he)
        · rintro _ u ⟨wrote', hcount', limit', hpages', hcache'⟩
          refine ⟨wrote.trans (wrote'.mono fun _ _ => PageAt.succ), by omega, by omega, ?_,
            hcache'.trans hcache⟩
          have first : u.disk.page start = page := by
            obtain same | later := wrote'.writes.page start
            · rw [same, hpages, Function.update_self]
            · exact absurd later.1 (by omega)
          rw [pagesFrom_succ, first, hpages']
        · intro _ u stopped
          exact wrote.stopped (stopped.mono (fun _ _ => PageAt.succ) (by omega))
      · intro _ t stopped
        exact stopped.mono (fun _ _ => id) (fun far => by rw [far_iff] at far; omega)

theorem wp_sync {s : Dev C} (h : s.Ok) (ok : Nat → Page → Prop) :
    Wp (sync : Io C Unit) s
      (fun _ t => Wrote crc ok s t ∧ ∃ f, t = { s with faults := f })
      (fun _ t => Stopped crc ok False s t ∧ ∃ f, t = { s with faults := f }) := by
  apply wp_tick
  · intro f hf
    exact ⟨⟨.single (.other s s.cache f), h.withFaults f, hf⟩, f, rfl⟩
  · intro failed
    exact ⟨⟨.single (.other s s.cache none), (h _).withFaults none, .inl failed⟩, none, rfl⟩

theorem Reads.writes {s t : Dev C} (h : Reads s t) (ok : Nat → Page → Prop) : Writes crc ok s t := by
  obtain ⟨cache, rfl, _⟩ := h
  exact .single (.other s cache s.faults)

/-- A header over no more pages than were counted may be written at any time. -/
theorem Dev.Ok.withHeader {s : Dev C} (h : s.Ok) {header : FileHeader C}
    (counted : header.pageCount ≤ s.header.pageCount) (f : Option Nat) :
    Dev.Ok { s with disk := s.disk.writeHeader header, header := header, faults := f } :=
  fun _ => ⟨counted.trans h.inside, fun e he data _ => h.cached e he data, h.disabled⟩

theorem wp_hashFactPages {s : Dev C} (h : s.Ok) {cached : Option (Nat × H)} {n k : Nat}
    (hashed : ∀ hasher, cached = some (n, hasher) →
      hasher = crc.feed crc.new (pagesFrom s.disk.page 1 n))
    (counted : 1 + n + k ≤ s.header.pageCount) (limit : 1 + n + k ≤ PAGE_LIMIT) :
    Wp (hashFactPages crc cached n k) s
      (fun r t => t = s ∧ r = crc.feed crc.new (pagesFrom s.disk.page 1 (n + k)))
      (fun _ _ => False) := by
  have full : Wp (hashPages crc crc.new 1 (n + k)) s
      (fun r t => t = s ∧ r = crc.feed crc.new (pagesFrom s.disk.page 1 (n + k)))
      (fun _ _ => False) := by
    refine (wp_hashPages crc h crc.new (by decide)).mono (fun _ _ h => h) ?_
    rintro _ t ⟨rfl, why⟩
    omega
  unfold hashFactPages
  split
  · rename_i m hasher
    refine wp_ite (fun same => ?_) fun _ => full
    subst same
    refine (wp_hashPages crc h hasher (by omega)).mono ?_ ?_
    · rintro r t ⟨rfl, rfl⟩
      rw [hashed hasher rfl, pagesFrom_add, crc.feed_append]
      exact ⟨rfl, rfl⟩
    · rintro _ t ⟨rfl, why⟩
      omega
  · exact full

end FactPages

/-! ## Stores in good order -/

section Clean

variable {H C : Type} (crc : Crc H C) (postcard : Postcard)

/-- The pending facts at the places `save` gives them. -/
def Store.pendingAt (s : Store H C) : List (Fact × FactRef) :=
  s.storage.facts.zip
    (packedRefs (1 + s.committedFactPages) (packGroups postcard.fact s.storage.facts))

theorem Store.length_pendingAt (s : Store H C) :
    (s.pendingAt postcard).length = s.storage.facts.length := by
  rw [Store.pendingAt, List.length_zip, length_packedRefs, packGroups_flatten, Nat.min_self]

variable [DecidableEq C]

/-- The checksum over the first `n` data pages. -/
def pagesChecksum (page : Nat → Page) (n : Nat) : C :=
  crc.finalize (crc.feed crc.new (pagesFrom page 1 n))

/-- A hasher kept for the next save is the one after the first `n` pages. -/
def Store.Hashed (s : Store H C) (n : Nat) : Prop :=
  ∀ m hasher, s.factPrefixCrc = some (m, hasher) →
    m = n ∧ hasher = crc.feed crc.new (pagesFrom s.dev.disk.page 1 n)

/-- A file nothing was ever saved to. -/
structure Store.Fresh (s : Store H C) : Prop where
  header : s.dev.header = FileHeader.new crc
  pages : s.committedFactPages = 0
  reader : s.storage.committedIndexReader = none

/-- A file with committed facts at `placed`: their pages, the four trees behind them and
the checksum over both. -/
structure Store.Committed (s : Store H C) (placed : List (Fact × FactRef)) : Prop where
  pages : 0 < s.committedFactPages
  counted : s.dev.header.factPageCount = s.committedFactPages
  indexed : Indexed postcard s.dev.disk.page (1 + s.committedFactPages) s.dev.header.pageCount
    s.dev.header.roots placed
  checksum : s.dev.header.indexChecksum =
    pagesChecksum crc s.dev.disk.page (s.dev.header.pageCount - 1)
  reader : s.storage.committedIndexReader = some s.dev.header.roots
  committed : s.storage.committed = true

/-- An open store in good order, with `placed` committed. -/
structure Store.Clean (s : Store H C) (placed : List (Fact × FactRef)) : Prop where
  okay : s.dev.Ok
  synced : s.dev.disk.header = s.dev.header
  limit : s.dev.header.pageCount ≤ PAGE_LIMIT
  checked : checkHeader crc s.dev.header = .ok ()
  facts : readPageList postcard.fact 1 (pagesFrom s.dev.disk.page 1 s.committedFactPages) =
    .ok placed
  fits : IndexFits postcard placed
  nodes : s.dev.header.nodeCount = placed.length
  state : s.Fresh crc ∨ s.Committed crc postcard placed
  hashed : s.Hashed crc s.committedFactPages
  pending : s.storage.Ok
  last : s.lastCheckpointedTxCount = s.dev.header.lastCheckpointedTxCount

variable {crc postcard} {s : Store H C} {placed : List (Fact × FactRef)}

/-- Good order does not depend on which facts are pending. -/
theorem Store.Clean.withStorage (h : s.Clean crc postcard placed) {storage : FactStorage}
    (committed : storage.committed = s.storage.committed)
    (reader : storage.committedIndexReader = s.storage.committedIndexReader) (pending : storage.Ok)
    (dirty : Bool) : Store.Clean crc postcard { s with storage := storage, dirty := dirty } placed := by
  refine ⟨h.okay, h.synced, h.limit, h.checked, h.facts, h.fits, h.nodes, ?_, h.hashed, pending, h.last⟩
  refine h.state.imp (fun fresh => ⟨fresh.header, fresh.pages, reader.trans fresh.reader⟩) fun old => ?_
  exact ⟨old.pages, old.counted, old.indexed, old.checksum, reader.trans old.reader,
    committed.trans old.committed⟩

/-- Nor does it depend on the cache, as long as that mirrors the disk. -/
theorem Store.Clean.withDev (h : s.Clean crc postcard placed) {d : Dev C} (okay : d.Ok)
    (disk : d.disk = s.dev.disk) (header : d.header = s.dev.header) :
    Store.Clean crc postcard { s with dev := d } placed := by
  refine ⟨okay, by rw [disk, header]; exact h.synced, by rw [header]; exact h.limit,
    by rw [header]; exact h.checked, by rw [disk]; exact h.facts, h.fits, by rw [header]; exact h.nodes,
    ?_, fun m hasher same => ?_, h.pending, by rw [header]; exact h.last⟩
  · refine h.state.imp (fun fresh => ⟨header.trans fresh.header, fresh.pages, fresh.reader⟩) fun old => ?_
    exact ⟨old.pages, by rw [header]; exact old.counted, by rw [disk, header]; exact old.indexed,
      by rw [disk, header]; exact old.checksum, by rw [header]; exact old.reader, old.committed⟩
  · rw [disk]
    exact h.hashed m hasher same

theorem Store.Clean.inside (h : s.Clean crc postcard placed) :
    1 + s.committedFactPages ≤ s.dev.header.pageCount := by
  obtain fresh | committed := h.state
  · rw [fresh.header, fresh.pages]
    exact le_rfl
  · have := committed.indexed.bounds
    omega

theorem Store.Clean.placed_nil (h : s.Clean crc postcard placed) (none_ : s.committedFactPages = 0) :
    placed = [] := by
  have := h.facts
  rw [none_] at this
  exact (Except.ok.inj this).symm

/-- The old leaves are collected whether or not there are trees. -/
theorem Store.Clean.wp_collectOldLeaves (h : s.Clean crc postcard placed) :
    Wp (collectOldLeaves crc s.dev.header) s.dev
      (fun old t => Reads s.dev t ∧ old.Of postcard placed) (fun _ _ => False) := by
  obtain fresh | committed := h.state
  · rw [h.placed_nil fresh.pages]
    exact wp_collectOldLeaves_none crc h.okay (by rw [fresh.header]; rfl)
  · exact committed.indexed.wp_collectOldLeaves crc h.okay (by omega) le_rfl h.limit

omit [DecidableEq C] in
theorem wp_currentHeader {d : Dev C} (okay : d.Ok) (synced : d.disk.header = d.header)
    (counted : 0 < d.header.pageCount) :
    Wp (currentHeader crc) d (fun header t => header = d.header ∧ t = d) (fun _ _ => False) := by
  have len := okay.inside
  have read : readPage crc 0 d = .ok (d.disk.header.toPage crc) d := by
    simp only [readPage, bind, EStateM.bind, get, getThe, MonadStateOf.get, EStateM.get_at,
      if_neg (by omega : ¬ d.header.pageCount ≤ 0), if_neg (by omega : ¬ d.disk.len ≤ 0)]
    rfl
  rw [currentHeader, wp_bind, wp_get, read]
  exact ⟨synced, rfl⟩

theorem Store.Clean.wp_currentHeader (h : s.Clean crc postcard placed) :
    Wp (currentHeader crc) s.dev (fun header t => header = s.dev.header ∧ t = s.dev)
      (fun _ _ => False) := by
  have inside := h.inside
  exact Minigraf.wp_currentHeader h.okay h.synced (by omega)

end Clean

/-! ## Saving -/

section Save

variable {H C : Type} (crc : Crc H C) (postcard : Postcard) [DecidableEq C]

/-- A page that `save` writes over `n` committed fact pages. -/
def SaveAt (n : Nat) (pages : List Page) (id : Nat) (p : Page) : Prop :=
  PageAt (1 + n) pages id p ∨ IndexAt (1 + n + pages.length) id p

/-- The store after a save. -/
structure Saved (s : Store H C) (placed : List (Fact × FactRef)) (t : Store H C) : Prop where
  clean : t.Clean crc postcard (placed ++ s.pendingAt postcard)
  committed : t.Committed crc postcard (placed ++ s.pendingAt postcard)
  facts : t.storage.facts = []
  counter : t.storage.txCounter = s.storage.txCounter
  dirty : t.dirty = false
  pages : t.committedFactPages =
    s.committedFactPages + (packGroups postcard.fact s.storage.facts).length
  kept : ∀ i, i ≤ s.committedFactPages → t.dev.disk.page i = s.dev.disk.page i
  last : t.dev.header.lastCheckpointedTxCount = s.storage.txCounter
  calm : s.dev.faults = none → t.dev.faults = none

/-- The file of a save that was cut short: untouched, overwritten behind the committed
fact pages, or saved but not synced. -/
inductive Torn (s : Store H C) (placed : List (Fact × FactRef)) (t : Dev C) : Prop
  | untouched (header : t.header = s.dev.header) (disk : t.disk = s.dev.disk)
  | overwritten (pages : List Page) (refs : List FactRef)
      (packed : packFacts postcard.fact s.storage.facts (1 + s.committedFactPages) =
        .ok (pages, refs))
      (writes : Writes crc (SaveAt s.committedFactPages pages) s.dev t)
  | unsynced (u : Store H C) (saved : Saved crc postcard s placed u) (header : t.header = u.dev.header)
      (disk : t.disk = u.dev.disk)

/-- Why a save fails, other than by a fault. -/
def SaveLimits (s : Store H C) (placed : List (Fact × FactRef)) : Prop :=
  (∃ f ∈ s.storage.facts, ¬ f.Fits postcard.fact) ∨
    PAGE_LIMIT < 5 + s.committedFactPages + (packGroups postcard.fact s.storage.facts).length +
      12 * (placed.length + s.storage.facts.length) ∨
    2 ^ 64 ≤ placed.length + s.storage.facts.length

/-- The store after a save that failed. -/
structure SaveFailed (s : Store H C) (placed : List (Fact × FactRef)) (t : Store H C) : Prop where
  torn : Torn crc postcard s placed t.dev
  mirrors : t.dev.Mirrors s.dev.header.pageCount ∨ t.dev.Ok
  storage : t.storage = s.storage
  dirty : t.dirty = s.dirty
  pages : t.committedFactPages = s.committedFactPages
  last : t.lastCheckpointedTxCount = s.lastCheckpointedTxCount
  hashed : t.factPrefixCrc = s.factPrefixCrc ∨ t.factPrefixCrc = none
  refused : (∃ f ∈ s.storage.facts, ¬ f.Fits postcard.fact) →
    t.Clean crc postcard placed ∧ (s.dev.faults = none → t.dev.faults = none)
  why : s.dev.faults ≠ none ∨ SaveLimits postcard s placed

theorem packedRefs_append (start : Nat) (groups groups' : List (List Fact)) :
    packedRefs start (groups ++ groups') =
      packedRefs start groups ++ packedRefs (start + groups.length) groups' := by
  induction groups generalizing start with
  | nil => rfl
  | cons group groups ih =>
      rw [List.cons_append, packedRefs, ih, packedRefs, List.append_assoc, List.length_cons,
        show start + 1 + groups.length = start + (groups.length + 1) by omega]

variable {crc postcard} {s : Store H C} {placed : List (Fact × FactRef)}

/-- The pages of a packing and what is read from them. -/
theorem packFacts_read {facts : List Fact} {start : Nat} {pages : List Page} {refs : List FactRef}
    (h : packFacts postcard.fact facts start = .ok (pages, refs)) :
    readPageList postcard.fact start pages = .ok (facts.zip refs) ∧
      refs = packedRefs start (packGroups postcard.fact facts) ∧
      pages.length = (packGroups postcard.fact facts).length := by
  obtain ⟨_, hpages, rfl⟩ := packFacts_ok postcard.fact h
  have read := readPageList_packed postcard.fact start hpages
  rw [packGroups_flatten] at read
  exact ⟨read, rfl, hpages.length_eq.symm⟩

/-- The facts on the old and the new fact pages. -/
theorem readPageList_saved {page page' : Nat → Page} {n k : Nat} {new : List (Fact × FactRef)}
    (old : readPageList postcard.fact 1 (pagesFrom page 1 n) = .ok placed)
    (kept : ∀ i, i ≤ n → page' i = page i)
    (added : readPageList postcard.fact (1 + n) (pagesFrom page' (1 + n) k) = .ok new) :
    readPageList postcard.fact 1 (pagesFrom page' 1 (n + k)) = .ok (placed ++ new) := by
  rw [pagesFrom_add, pagesFrom_congr fun i _ high => kept i (by omega),
    readPageList_append postcard.fact 1 _ _ old, length_pagesFrom, added]
  rfl

theorem checkHeader_sealed (header : FileHeader C) : checkHeader crc (header.sealed crc) = .ok () :=
  if_neg fun bad => bad.2 rfl

/-- The header `save` writes. -/
def savedHeader (crc : Crc H C) (s : Store H C) (roots : Roots) (next newTotal : Nat) (checksum : C) :
    FileHeader C :=
  FileHeader.sealed crc { FileHeader.new crc with
    pageCount := next
    nodeCount := s.dev.header.nodeCount + s.storage.facts.length
    lastCheckpointedTxCount := s.storage.txCounter
    eavtRootPage := roots.eavt
    aevtRootPage := roots.aevt
    avetRootPage := roots.avet
    vaetRootPage := roots.vaet
    indexChecksum := checksum
    factPageCount := newTotal }

/-- The store `save` leaves when its last sync succeeds. -/
def savedStore (s : Store H C) (d : Dev C) (header : FileHeader C) (faults : Option Nat)
    (newTotal : Nat) (hasher : H) : Store H C where
  dev := { d with disk := d.disk.writeHeader header, header := header, faults := faults }
  storage := { s.storage with
    committed := true
    committedIndexReader := some header.roots
    facts := []
    pendingKeys := []
    pendingIndexes := .new }
  dirty := false
  lastCheckpointedTxCount := s.storage.txCounter
  committedFactPages := newTotal
  factPrefixCrc := some (newTotal, hasher)

theorem Store.Clean.saved (h : s.Clean crc postcard placed)
    (fits : IndexFits postcard (s.pendingAt postcard)) {pages : List Page} {refs : List FactRef}
    (packed : packFacts postcard.fact s.storage.facts (1 + s.committedFactPages) = .ok (pages, refs))
    {d : Dev C} (okay : d.Ok) (kept : ∀ i, i ≤ s.committedFactPages → d.disk.page i = s.dev.disk.page i)
    (written : pagesFrom d.disk.page (1 + s.committedFactPages) pages.length = pages)
    {roots : Roots} {next : Nat} (counted : next ≤ d.header.pageCount) (limit : next ≤ PAGE_LIMIT)
    (indexed : Indexed postcard d.disk.page (1 + (s.committedFactPages + pages.length)) next roots
      (placed ++ s.pendingAt postcard)) {faults : Option Nat}
    (calm : s.dev.faults = none → faults = none) :
    Saved crc postcard s placed (savedStore s d
      (savedHeader crc s roots next (s.committedFactPages + pages.length)
        (pagesChecksum crc d.disk.page (next - 1))) faults (s.committedFactPages + pages.length)
      (crc.feed crc.new (pagesFrom d.disk.page 1 (s.committedFactPages + pages.length)))) := by
  obtain ⟨read, hrefs, width⟩ := packFacts_read packed
  have new : s.storage.facts.zip refs = s.pendingAt postcard := by rw [hrefs]; rfl
  rw [new] at read
  have bounds := indexed.bounds
  have pos : 0 < pages.length := by
    rw [width]
    exact List.length_pos_iff.mpr (packGroups_ne_nil postcard.fact _)
  have committed : Store.Committed crc postcard (savedStore s d
      (savedHeader crc s roots next (s.committedFactPages + pages.length)
        (pagesChecksum crc d.disk.page (next - 1))) faults (s.committedFactPages + pages.length)
      (crc.feed crc.new (pagesFrom d.disk.page 1 (s.committedFactPages + pages.length))))
      (placed ++ s.pendingAt postcard) :=
    ⟨by simp only [savedStore]; omega, rfl, indexed, rfl, rfl, rfl⟩
  refine ⟨⟨okay.withHeader counted faults, rfl, limit, checkHeader_sealed _, ?_, h.fits.append fits, ?_,
    .inr committed, ?_, ?_, rfl⟩, committed, rfl, rfl, rfl, ?_, kept, rfl, calm⟩
  · rw [← written] at read
    exact readPageList_saved h.facts kept read
  · have := h.nodes
    rw [List.length_append, Store.length_pendingAt, ← this]
    rfl
  · intro m hasher same
    simp only [savedStore, Option.some.injEq, Prod.mk.injEq] at same
    exact ⟨same.1.symm, same.2.symm⟩
  · exact ⟨by simp [savedStore], rfl⟩
  · rw [← width]
    rfl

/-! ### The run of a save -/

variable (crc postcard) in
/-- What a save needs of a store: the trees of `placed` behind its roots, or no roots. -/
structure Store.Ready (s : Store H C) (placed : List (Fact × FactRef)) : Prop where
  okay : s.dev.Ok
  synced : s.dev.disk.header = s.dev.header
  limit : s.dev.header.pageCount ≤ PAGE_LIMIT
  inside : 1 + s.committedFactPages ≤ s.dev.header.pageCount
  fits : IndexFits postcard (placed ++ s.pendingAt postcard)
  leaves : Wp (collectOldLeaves crc s.dev.header) s.dev
    (fun old t => Reads s.dev t ∧ old.Of postcard placed) (fun _ _ => False)
  hashed : s.Hashed crc s.committedFactPages

variable (postcard) in
/-- The file when all its pages are written but the header. -/
structure Store.Filed (s : Store H C) (placed : List (Fact × FactRef)) (pages : List Page) (d : Dev C)
    (roots : Roots) (next : Nat) : Prop where
  packed : ∃ refs, packFacts postcard.fact s.storage.facts (1 + s.committedFactPages) = .ok (pages, refs)
  okay : d.Ok
  kept : ∀ i, i ≤ s.committedFactPages → d.disk.page i = s.dev.disk.page i
  written : pagesFrom d.disk.page (1 + s.committedFactPages) pages.length = pages
  counted : next ≤ d.header.pageCount
  limit : next ≤ PAGE_LIMIT
  indexed : Indexed postcard d.disk.page (1 + (s.committedFactPages + pages.length)) next roots
    (placed ++ s.pendingAt postcard)

variable (crc) in
/-- The store with the header that tells of such a file. -/
def Store.afterSave (s : Store H C) (pages : List Page) (d : Dev C) (roots : Roots) (next : Nat)
    (faults : Option Nat) : Store H C :=
  savedStore s d (savedHeader crc s roots next (s.committedFactPages + pages.length)
      (pagesChecksum crc d.disk.page (next - 1))) faults (s.committedFactPages + pages.length)
    (crc.feed crc.new (pagesFrom d.disk.page 1 (s.committedFactPages + pages.length)))

variable (crc postcard) in
/-- A save that returned. -/
structure Store.Finished (s : Store H C) (placed : List (Fact × FactRef)) (t : Store H C) : Prop where
  filed : ∃ pages d roots next faults, s.Filed postcard placed pages d roots next ∧
    t = s.afterSave crc pages d roots next faults
  calm : s.dev.faults = none → t.dev.faults = none

variable (crc postcard) in
/-- The file of a save that failed. -/
inductive Store.Cut (s : Store H C) (placed : List (Fact × FactRef)) (t : Dev C) : Prop
  | untouched (header : t.header = s.dev.header) (disk : t.disk = s.dev.disk)
  | overwritten (pages : List Page) (refs : List FactRef)
      (packed : packFacts postcard.fact s.storage.facts (1 + s.committedFactPages) = .ok (pages, refs))
      (writes : Writes crc (SaveAt s.committedFactPages pages) s.dev t)
  | unsynced (u : Store H C) (finished : s.Finished crc postcard placed u)
      (header : t.header = u.dev.header) (disk : t.disk = u.dev.disk)

variable (crc postcard) in
/-- A save that failed. -/
structure Store.CutShort (s : Store H C) (placed : List (Fact × FactRef)) (t : Store H C) : Prop where
  cut : s.Cut crc postcard placed t.dev
  mirrors : t.dev.Mirrors s.dev.header.pageCount ∨ t.dev.Ok
  storage : t.storage = s.storage
  dirty : t.dirty = s.dirty
  pages : t.committedFactPages = s.committedFactPages
  last : t.lastCheckpointedTxCount = s.lastCheckpointedTxCount
  hashed : t.factPrefixCrc = s.factPrefixCrc ∨ t.factPrefixCrc = none
  refused : (∃ f ∈ s.storage.facts, ¬ f.Fits postcard.fact) →
    ∃ d : Dev C, t = { s with dev := d } ∧ d.Ok ∧ d.disk = s.dev.disk ∧ d.header = s.dev.header ∧
      (s.dev.faults = none → d.faults = none)
  why : s.dev.faults ≠ none ∨ (∃ f ∈ s.storage.facts, ¬ f.Fits postcard.fact) ∨
    PAGE_LIMIT < 5 + s.committedFactPages + (packGroups postcard.fact s.storage.facts).length +
      12 * (placed.length + s.storage.facts.length) ∨
    2 ^ 64 ≤ s.dev.header.nodeCount + s.storage.facts.length

omit [DecidableEq C] in
theorem Store.Ready.wp_commitSave (h : s.Ready crc postcard placed) {pages : List Page}
    {refs : List FactRef}
    (packed : packFacts postcard.fact s.storage.facts (1 + s.committedFactPages) = .ok (pages, refs))
    {d : Dev C} (wrote : Wrote crc (SaveAt s.committedFactPages pages) s.dev d)
    (written : pagesFrom d.disk.page (1 + s.committedFactPages) pages.length = pages)
    {roots : Roots} {next : Nat} (counted : next ≤ d.header.pageCount) (limit : next ≤ PAGE_LIMIT)
    (indexed : Indexed postcard d.disk.page (1 + (s.committedFactPages + pages.length)) next roots
      (placed ++ s.pendingAt postcard)) :
    Wp (commitSave crc s s.dev.header pages.length roots next) { s with dev := d }
      (fun _ t => s.Finished crc postcard placed t) (fun _ t => s.CutShort crc postcard placed t) := by
  have bounds := indexed.bounds
  have kept : ∀ i, i ≤ s.committedFactPages → d.disk.page i = s.dev.disk.page i := by
    intro i low
    obtain same | ⟨at_, -⟩ | ⟨at_, -⟩ := wrote.writes.page i
    · exact same
    · omega
    · omega
  have filed : s.Filed postcard placed pages d roots next :=
    ⟨⟨refs, packed⟩, wrote.okay, kept, written, counted, limit, indexed⟩
  have torn (f : Option Nat) : s.Cut crc postcard placed { d with faults := f } :=
    .overwritten pages refs packed (wrote.writes.tail (.other d d.cache f))
  have mirrors (f : Option Nat) : Dev.Ok { d with faults := f } := wrote.okay.withFaults f
  have allFit {P : Prop} : (∃ f ∈ s.storage.facts, ¬ f.Fits postcard.fact) → P := by
    rintro ⟨f, hf, large⟩
    exact absurd ((packFacts_ok postcard.fact packed).1 f hf) large
  unfold commitSave
  simp only [takePrefix, onDev, wp_bind, wp_modifyGet, wp_zoom]
  refine (wp_hashFactPages crc wrote.okay ?_ (by omega) (by omega)).mono ?_ (fun _ _ no => no.elim)
  · intro hasher cached
    rw [(h.hashed _ hasher cached).2, pagesFrom_congr fun i _ high => kept i (by omega)]
  rintro factHash t ⟨same, rfl⟩
  subst t
  refine (wp_hashPages crc wrote.okay _ (by omega)).mono ?_ ?_
  · rintro hasher t ⟨same, hhasher⟩
    subst t
    have whole : crc.finalize hasher = pagesChecksum crc d.disk.page (next - 1) := by
      rw [hhasher, ← crc.feed_append, ← pagesFrom_add,
        show s.committedFactPages + pages.length + (next - (1 + (s.committedFactPages + pages.length))) =
          next - 1 by omega]
      rfl
    refine wp_ite (fun many => ?_) fun _ => ?_
    · exact ⟨torn d.faults, .inr (mirrors d.faults), rfl, rfl, rfl, rfl, .inr rfl, allFit,
        .inr (.inr (.inr many))⟩
    simp only [writeHeaderPage, sync, wp_bind, wp_zoom]
    apply wp_tick
    · intro f hf
      simp only [wp_modify]
      apply wp_tick
      · intro g hg
        rw [whole]
        exact ⟨⟨pages, d, roots, next, g, filed, rfl⟩, fun calm => hg (hf (wrote.calm calm))⟩
      · intro failed
        rw [whole]
        exact ⟨.unsynced (s.afterSave crc pages d roots next none) ⟨⟨pages, d, roots, next, none, filed, rfl⟩,
          fun _ => rfl⟩ rfl rfl, .inr (wrote.okay.withHeader counted none), rfl, rfl, rfl, rfl, .inr rfl,
          allFit, .inl fun calm => failed (hf (wrote.calm calm))⟩
    · intro failed
      exact ⟨torn none, .inr (mirrors none), rfl, rfl, rfl, rfl, .inr rfl, allFit,
        .inl fun calm => failed (wrote.calm calm)⟩
  · rintro _ _ ⟨rfl, why⟩
    omega

omit [DecidableEq C] in
theorem Store.Ready.wp_save (h : s.Ready crc postcard placed) (dirty : s.dirty = true) :
    Wp (save crc postcard) s (fun _ t => s.Finished crc postcard placed t)
      (fun _ t => s.CutShort crc postcard placed t) := by
  have inside := h.inside
  have room := h.limit
  rw [save, wp_bind, wp_get, dirty]
  simp only [Bool.not_true, Bool.false_eq_true, if_false, wp_bind, onDev, wp_zoom]
  refine (wp_currentHeader h.okay h.synced (by omega)).mono ?_ (fun _ _ no => no.elim)
  rintro header d ⟨rfl, rfl⟩
  refine h.leaves.mono ?_ (fun _ _ no => no.elim)
  rintro old d₁ ⟨reads, hold⟩
  simp only [wp_modify]
  -- The cache forgets the pages that are about to be overwritten.
  generalize hd₂ : ({ d₁ with cache := d₁.cache.invalidateFrom (1 + s.committedFactPages) } : Dev C) =
    d₂
  have header₂ : d₂.header = s.dev.header := by rw [← hd₂]; exact reads.header
  have disk₂ : d₂.disk = s.dev.disk := by rw [← hd₂]; exact reads.disk
  have okay₂ : d₂.Ok := by
    intro bound
    rw [← hd₂]
    refine ⟨reads.okay.inside, fun e he data _ => ?_, fun off => ?_⟩
    · exact reads.okay.cached e (List.mem_filter.mp he).1 data
    · simp only [PageCache.invalidateFrom, reads.okay.disabled off, List.filter_nil]
  have calm₂ : s.dev.faults = none → d₂.faults = none := by
    rw [← hd₂]
    obtain ⟨_, rfl, _⟩ := reads
    exact id
  have uncached : ∀ e ∈ d₂.cache.entries, e.1 < 1 + s.committedFactPages := by
    intro e he
    rw [← hd₂] at he
    simpa using (List.mem_filter.mp he).2
  have start₂ : ∀ ok, Wrote crc ok s.dev d₂ := by
    intro ok
    refine ⟨(reads.writes crc ok).trans ?_, okay₂, calm₂⟩
    rw [← hd₂]
    exact .single (.other d₁ _ _)
  cases hpacked : packFacts postcard.fact s.storage.facts (1 + s.committedFactPages) with
  | error e =>
      refine ⟨.untouched header₂ disk₂, .inr okay₂, rfl, rfl, rfl, rfl, .inl rfl,
        fun _ => ⟨d₂, rfl, okay₂, disk₂, header₂, calm₂⟩, .inr (.inl ?_)⟩
      by_contra none_
      push Not at none_
      obtain ⟨pages, hpages⟩ := packFacts_fits postcard.fact none_ (1 + s.committedFactPages)
      rw [hpages] at hpacked
      cases hpacked
  | ok result =>
      obtain ⟨pages, refs⟩ := result
      rw [ofResult, wp_pure]
      dsimp only
      obtain ⟨read, hrefs, width⟩ := packFacts_read hpacked
      have new : s.storage.facts.zip refs = s.pendingAt postcard := by rw [hrefs]; rfl
      have many := s.length_pendingAt postcard
      -- Wherever the writes stop, the store has failed in the same way.
      have failed {cause : Prop} {d : Dev C} {cached : Option (Nat × H)}
          (stopped : Stopped crc (SaveAt s.committedFactPages pages) cause s.dev d)
          (limits : cause → PAGE_LIMIT < 5 + s.committedFactPages +
            (packGroups postcard.fact s.storage.facts).length + 12 * (placed.length + s.storage.facts.length))
          (hashed : cached = s.factPrefixCrc ∨ cached = none) :
          s.CutShort crc postcard placed ⟨d, s.storage, s.dirty, s.lastCheckpointedTxCount,
            s.committedFactPages, cached⟩ :=
        ⟨.overwritten pages refs hpacked stopped.writes, .inl stopped.mirrors, rfl, rfl, rfl, rfl,
          hashed, fun ⟨f, hf, large⟩ => absurd ((packFacts_ok postcard.fact hpacked).1 f hf) large,
          stopped.why.imp_right fun cause => .inr (.inl (limits cause))⟩
      have facts₂ := start₂ (SaveAt s.committedFactPages pages)
      refine (wp_writeFactPages crc okay₂ (by rw [header₂]; exact inside) (by omega)
        uncached).mono ?_ ?_
      · rintro _ d₃ ⟨wrote₃, count₃, limit₃, written₃, -⟩
        have upTo₃ := facts₂.trans (wrote₃.mono fun _ _ => .inl)
        refine (wp_sync crc wrote₃.okay (SaveAt s.committedFactPages pages)).mono ?_ ?_
        · rintro _ d₄ ⟨wrote₄, f₄, rfl⟩
          have upTo₄ := upTo₃.trans wrote₄
          rw [new, show 1 + (s.committedFactPages + pages.length) =
            1 + s.committedFactPages + pages.length by omega]
          refine (wp_rebuildIndexes crc hold h.fits wrote₄.okay (by omega) count₃ limit₃).mono ?_ ?_
          · rintro ⟨roots, next⟩ d₅ built
            have upTo₅ := upTo₄.trans (built.wrote.mono fun _ _ => .inr)
            have bounds := built.indexed.bounds
            have nextCount := built.counted
            have nextLimit := built.limit
            simp only at bounds nextCount nextLimit
            refine (wp_sync crc built.wrote.okay (SaveAt s.committedFactPages pages)).mono ?_ ?_
            · rintro _ d₆ ⟨wrote₆, f₆, rfl⟩
              have upTo₆ := upTo₅.trans wrote₆
              refine h.wp_commitSave hpacked upTo₆ ?_ nextCount nextLimit ?_
              · refine Eq.trans (pagesFrom_congr fun i _ high => ?_) written₃
                obtain same | ⟨at_, -⟩ := built.wrote.writes.page i
                · exact same
                · omega
              · rw [← Nat.add_assoc]
                exact built.indexed
            · rintro _ d₆ ⟨stopped, -⟩
              exact failed (upTo₅.stopped stopped) False.elim (.inl rfl)
          · intro _ d₅ stopped
            refine failed (upTo₄.stopped (stopped.mono (fun _ _ => .inr) id)) (fun far => ?_)
              (.inl rfl)
            rw [List.length_append, many] at far
            omega
        · rintro _ d₄ ⟨stopped, -⟩
          exact failed (upTo₃.stopped stopped) False.elim (.inl rfl)
      · intro _ d₃ stopped
        exact failed (facts₂.stopped (stopped.mono (fun _ _ => .inl) id)) (by omega) (.inl rfl)

/-! ### Saving a store in good order -/

theorem Store.Clean.ready (h : s.Clean crc postcard placed)
    (fits : IndexFits postcard (s.pendingAt postcard)) : s.Ready crc postcard placed :=
  ⟨h.okay, h.synced, h.limit, h.inside, h.fits.append fits, h.wp_collectOldLeaves, h.hashed⟩

theorem Store.Clean.finished (h : s.Clean crc postcard placed)
    (fits : IndexFits postcard (s.pendingAt postcard)) {t : Store H C}
    (finished : s.Finished crc postcard placed t) : Saved crc postcard s placed t := by
  obtain ⟨⟨pages, d, roots, next, faults, ⟨⟨_, packed⟩, okay, kept, written, counted, limit, indexed⟩, rfl⟩,
    calm⟩ := finished
  exact h.saved fits packed okay kept written counted limit indexed calm

theorem Store.Clean.wp_save (h : s.Clean crc postcard placed) (dirty : s.dirty = true)
    (fits : IndexFits postcard (s.pendingAt postcard)) :
    Wp (save crc postcard) s (fun _ t => Saved crc postcard s placed t)
      (fun _ t => SaveFailed crc postcard s placed t) := by
  refine ((h.ready fits).wp_save dirty).mono (fun _ _ => h.finished fits) fun _ t short => ?_
  have torn : Torn crc postcard s placed t.dev := by
    cases short.cut with
    | untouched header disk => exact .untouched header disk
    | overwritten pages refs packed writes => exact .overwritten pages refs packed writes
    | unsynced u finished header disk => exact .unsynced u (h.finished fits finished) header disk
  refine ⟨torn, short.mirrors, short.storage, short.dirty, short.pages, short.last, short.hashed,
    fun large => ?_, short.why.imp_right fun why => ?_⟩
  · obtain ⟨d, rfl, okay, disk, header, calm⟩ := short.refused large
    exact ⟨h.withDev okay disk header, calm⟩
  · rw [h.nodes] at why
    exact why

end Save
end Minigraf
