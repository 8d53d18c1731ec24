import Minigraf.Storage.Sound

/-!
What `load` makes of a sound file: a store in good order with the same facts, or, when
it is cut short, a file that is as sound as before.
-/

namespace Minigraf

open Bytes EStateM

section Reading

variable {H C : Type} {crc : Crc H C}

theorem wp_readHeader {s : Dev C} (counted : 0 < s.header.pageCount) (inside : 0 < s.disk.len) :
    Wp (readHeader crc) s (fun h t => h = s.disk.header ∧ t = s) (fun _ _ => False) := by
  simp only [readHeader, readPage, wp_bind, wp_get]
  refine wp_ite (fun none_ => by omega) fun _ => ?_
  refine wp_ite (fun far => by simp at far) fun _ => ?_
  refine wp_ite (fun none_ => by omega) fun _ => ?_
  exact ⟨rfl, rfl⟩

theorem wp_fullChecksum {s : Dev C} (h : s.Ok) {header : FileHeader C} {n : Nat}
    (within : 1 + n ≤ header.pageCount) (counted : header.pageCount ≤ s.header.pageCount)
    (limit : header.pageCount ≤ PAGE_LIMIT) :
    Wp (fullChecksum crc header n) s
      (fun r t => t = s ∧ r = (pagesChecksum crc s.disk.page (header.pageCount - 1),
        some (crc.feed crc.new (pagesFrom s.disk.page 1 n)))) (fun _ _ => False) := by
  rw [fullChecksum, if_pos (by omega), wp_bind]
  refine (wp_hashPages crc h crc.new (by omega)).mono ?_ ?_
  · rintro factHash t ⟨same, rfl⟩
    subst t
    rw [wp_bind]
    refine (wp_hashPages crc h _ (by omega)).mono ?_ ?_
    · rintro hasher t ⟨same, rfl⟩
      subst t
      rw [wp_pure, ← crc.feed_append, Nat.add_comm n 1, ← pagesFrom_add,
        show n + (header.pageCount - 1 - n) = header.pageCount - 1 by omega]
      exact ⟨rfl, rfl⟩
    · rintro _ t ⟨same, why⟩
      omega
  · rintro _ t ⟨same, why⟩
    omega

end Reading

section Load

variable {H C : Type} (crc : Crc H C) (postcard : Postcard) [DecidableEq C]

/-- The store a load leaves. -/
structure Loaded (s : Store H C) (placed : List (Fact × FactRef)) (t : Store H C) : Prop where
  clean : t.Clean crc postcard placed
  facts : t.storage.facts = []
  counter : t.storage.txCounter = t.lastCheckpointedTxCount
  dirty : t.dirty = false
  last : t.lastCheckpointedTxCount =
    if s.dev.disk.rebuilds crc then maxTxCount (placed.map Prod.fst)
    else s.dev.disk.header.lastCheckpointedTxCount
  calm : s.dev.faults = none → t.dev.faults = none

/-- The file a load leaves that was cut short. -/
structure LoadFailed (s : Store H C) (placed : List (Fact × FactRef)) (t : Store H C) : Prop where
  sound : t.dev.disk.Sound crc postcard placed
  header : s.dev.disk.header.Grown crc t.dev.disk.header ∨
    t.dev.disk.header.lastCheckpointedTxCount = maxTxCount (placed.map Prod.fst)
  rebuilt : s.dev.disk.rebuilds crc = true
  why : s.dev.faults ≠ none ∨
    PAGE_LIMIT < 5 + s.dev.disk.header.factPages + 12 * placed.length

variable {crc postcard}

theorem wp_needsRebuild (s : Store H C) {placed : List (Fact × FactRef)} (okay : s.dev.Ok)
    (synced : s.dev.disk.header = s.dev.header) (sound : s.dev.disk.Sound crc postcard placed) :
    Wp (needsRebuild crc s.dev.disk.header s.dev.disk.header.factPages) s
      (fun r t => r = s.dev.disk.rebuilds crc ∧ ∃ cached, t = { s with factPrefixCrc := cached } ∧
        (cached = s.factPrefixCrc ∨ cached = some (s.dev.disk.header.factPages,
          crc.feed crc.new (pagesFrom s.dev.disk.page 1 s.dev.disk.header.factPages))))
      (fun _ _ => False) := by
  have within := sound.within
  have limit := sound.limit
  unfold needsRebuild Disk.rebuilds
  split
  · exact ⟨rfl, s.factPrefixCrc, rfl, .inl rfl⟩
  simp only [wp_bind, onDev, wp_zoom]
  refine (wp_fullChecksum okay within (by rw [synced]) limit).mono ?_ (fun _ _ no => no.elim)
  rintro _ t ⟨same, rfl⟩
  subst t
  refine wp_ite (fun matches_ => ?_) fun differs => ?_
  · refine ⟨?_, _, rfl, .inr rfl⟩
    simp only at matches_
    simp [matches_]
  · rw [wp_bind, wp_zoom]
    refine (wp_computePageChecksum crc okay (by omega)).mono ?_ ?_
    · rintro checksum t ⟨same, rfl⟩
      subst t
      refine ⟨?_, s.factPrefixCrc, rfl, .inl rfl⟩
      rw [decide_eq_true differs, Bool.true_and]
      rfl
    · rintro _ t ⟨same, why⟩
      rw [synced] at within why
      rw [synced] at limit
      omega

/-- The header of rebuilt trees. -/
def rebuiltHeader (crc : Crc H C) (n : Nat) (placed : List (Fact × FactRef)) (roots : Roots)
    (next : Nat) (checksum : C) : FileHeader C :=
  FileHeader.sealed crc { FileHeader.new crc with
    pageCount := next
    nodeCount := placed.length
    lastCheckpointedTxCount := maxTxCount (placed.map Prod.fst)
    eavtRootPage := roots.eavt
    aevtRootPage := roots.aevt
    avetRootPage := roots.avet
    vaetRootPage := roots.vaet
    indexChecksum := checksum
    factPageCount := n }

/-- The store a rebuild leaves. -/
def rebuiltStore (s : Store H C) (d : Dev C) (header : FileHeader C) (faults : Option Nat) :
    Store H C :=
  { s with
    dev := { d with disk := d.disk.writeHeader header, header := header, faults := faults }
    storage := { s.storage with
      txCounter := header.lastCheckpointedTxCount
      committedIndexReader := some header.roots }
    lastCheckpointedTxCount := header.lastCheckpointedTxCount }

theorem Store.Clean.rebuilt {s : Store H C} {placed : List (Fact × FactRef)} {d : Dev C}
    (okay : d.Ok) (some_ : 0 < s.committedFactPages)
    (facts : readPageList postcard.fact 1 (pagesFrom d.disk.page 1 s.committedFactPages) = .ok placed)
    (fits : IndexFits postcard placed) {roots : Roots} {next : Nat}
    (counted : next ≤ d.header.pageCount) (limit : next ≤ PAGE_LIMIT)
    (indexed : Indexed postcard d.disk.page (1 + s.committedFactPages) next roots placed)
    (hashed : ∀ m hasher, s.factPrefixCrc = some (m, hasher) → m = s.committedFactPages ∧
      hasher = crc.feed crc.new (pagesFrom d.disk.page 1 s.committedFactPages))
    (pending : s.storage.Ok) (reader : s.storage.committed = true) (faults : Option Nat) :
    (rebuiltStore s d (rebuiltHeader crc s.committedFactPages placed roots next
      (pagesChecksum crc d.disk.page (next - 1))) faults).Clean crc postcard placed :=
  ⟨okay.withHeader counted faults, rfl, limit, checkHeader_sealed _, facts, fits, rfl,
    .inr ⟨some_, rfl, indexed, rfl, rfl, reader⟩, hashed, ⟨pending.keys, pending.indexes⟩, rfl⟩

theorem wp_rebuildOnLoad (s : Store H C) {placed : List (Fact × FactRef)} (okay : s.dev.Ok)
    (synced : s.dev.disk.header = s.dev.header) (sound : s.dev.disk.Sound crc postcard placed)
    (some_ : 0 < s.dev.disk.header.factPages)
    (rebuilds : s.dev.disk.rebuilds crc = true)
    (pages : s.committedFactPages = s.dev.disk.header.factPages)
    (hashed : s.Hashed crc s.committedFactPages) (pending : s.storage.Ok)
    (reader : s.storage.committed = true) :
    Wp (rebuildOnLoad crc postcard s.committedFactPages) s
      (fun _ t => t.Clean crc postcard placed ∧ t.storage.facts = s.storage.facts ∧
        t.storage.txCounter = maxTxCount (placed.map Prod.fst) ∧
        t.lastCheckpointedTxCount = maxTxCount (placed.map Prod.fst) ∧
        (s.dev.faults = none → t.dev.faults = none))
      (fun _ t => LoadFailed crc postcard s placed t) := by
  have within := sound.within
  have limit := sound.limit
  have facts := sound.facts
  rw [← pages] at facts within
  simp only [rebuildOnLoad, wp_bind, onDev, onFacts, wp_zoom, restoreTxCounterFrom, wp_modify]
  refine (wp_readAllWithRefs crc postcard.fact okay.inside (by omega) facts).mono ?_ ?_
  · rintro found t ⟨same, same'⟩
    subst t found
    -- However far the index writes get, the file stays sound.
    have failed {d : Dev C} {storage : FactStorage}
        (writes : Writes crc (IndexAt (1 + s.committedFactPages)) s.dev d)
        (why : s.dev.faults ≠ none ∨ PAGE_LIMIT < 1 + s.committedFactPages + 12 * placed.length + 4) :
        LoadFailed crc postcard s placed { s with dev := d, storage := storage } := by
      rw [pages] at writes why
      exact ⟨sound.indexWrites synced writes, .inl (sound.grown synced writes).1, rebuilds,
        why.imp_right fun far => by omega⟩
    refine (wp_buildIndexes crc sound.fits okay (by omega) (by rw [← synced]; exact within)
      (by omega)).mono ?_ fun _ d stopped => failed stopped.writes stopped.why
    rintro ⟨roots, next⟩ d built
    have counted := built.counted
    have near := built.limit
    simp only at counted near
    have kept : pagesFrom d.disk.page 1 s.committedFactPages =
        pagesFrom s.dev.disk.page 1 s.committedFactPages := by
      refine pagesFrom_congr fun i _ high => ?_
      obtain same | ⟨at_, _⟩ := built.wrote.writes.page i
      · exact same
      · omega
    have clean (f : Option Nat) : (rebuiltStore s d (rebuiltHeader crc s.committedFactPages placed
        roots next (pagesChecksum crc d.disk.page (next - 1))) f).Clean crc postcard placed :=
      Store.Clean.rebuilt built.wrote.okay (by rw [pages]; exact some_)
      (by rw [kept]; exact facts) sound.fits counted near built.indexed
      (by rw [kept]; exact hashed) pending reader f
    refine (wp_computePageChecksum crc built.wrote.okay (by omega)).mono ?_ ?_
    · rintro checksum t ⟨same, rfl⟩
      subst t
      simp only [writeHeaderPage, sync, setCommittedIndexReader, wp_bind]
      apply wp_tick
      · intro f hf
        simp only [wp_modify]
        apply wp_tick
        · intro g hg
          exact ⟨clean g, trivial, trivial, trivial, fun calm => hg (hf (built.wrote.calm calm))⟩
        · intro fault
          exact ⟨(clean none).sound, .inr rfl, rebuilds,
            .inl fun calm => fault (hf (built.wrote.calm calm))⟩
      · intro fault
        exact failed (built.wrote.writes.tail (.other d d.cache none))
          (.inl fun calm => fault (built.wrote.calm calm))
    · rintro _ t ⟨same, why⟩
      have := built.indexed.bounds
      omega
  · rintro _ t ⟨same, why⟩
    rw [synced] at within limit
    omega

/-- A checksum that matches vouches for the trees. -/
def Disk.Trusted (crc : Crc H C) (postcard : Postcard) (d : Disk C) (placed : List (Fact × FactRef)) :
    Prop :=
  d.rebuilds crc = false → 0 < d.header.factPageCount →
    Indexed postcard d.page (1 + d.header.factPageCount) d.header.pageCount d.header.roots placed ∧
      d.header.indexChecksum = pagesChecksum crc d.page (d.header.pageCount - 1)

/-- Without collisions a checksum that matches is of the pages the trees were written
on. -/
theorem Disk.Sound.trusted {d : Disk C} {placed : List (Fact × FactRef)}
    (h : d.Sound crc postcard placed) (collisionless : crc.Collisionless) :
    d.Trusted crc postcard placed := by
  intro trusted pos
  obtain bare | ⟨_, image, size, indexed, checksum, counted⟩ := h.indexes
  · rw [bare.factPages.1] at pos
    omega
  have bounds := indexed.bounds
  have own := FileHeader.factPages_of_pos pos
  have root : d.header.eavtRootPage ≠ 0 := by
    have := bounds.1
    simp only [FileHeader.roots] at this
    omega
  have equal {n : Nat} (same : pagesChecksum crc d.page n = d.header.indexChecksum) :
      pagesFrom d.page 1 n = pagesFrom image 1 (size - 1) :=
    collisionless _ _ (same.trans checksum)
  have lengths {n : Nat} (same : pagesChecksum crc d.page n = d.header.indexChecksum) :
      n = size - 1 := by
    have := congrArg List.length (equal same)
    rwa [length_pagesFrom, length_pagesFrom] at this
  rw [Disk.rebuilds, if_neg (by rw [own]; omega), Bool.and_eq_false_iff, decide_eq_false_iff_not,
    decide_eq_false_iff_not, not_not, not_not] at trusted
  obtain whole | front := trusted
  · have width := lengths whole
    have size_eq : d.header.pageCount = size := by omega
    refine ⟨?_, whole.symm⟩
    rw [size_eq]
    refine indexed.agree fun i low high => ?_
    have same := equal whole
    rw [width] at same
    exact eq_of_pagesFrom_eq same (by omega) (by omega)
  · -- The fact pages alone are fewer than the pages under the checksum.
    have := lengths front
    omega

/-- The file of a store in good order is what its checksum was taken of. -/
theorem Store.Clean.trusted {s : Store H C} {placed : List (Fact × FactRef)}
    (h : s.Clean crc postcard placed) : s.dev.disk.Trusted crc postcard placed := by
  intro _ pos
  rw [h.synced] at pos ⊢
  obtain fresh | committed := h.state
  · rw [fresh.header] at pos
    exact absurd pos (lt_irrefl 0)
  · rw [committed.counted]
    exact ⟨committed.indexed, committed.checksum⟩

theorem Store.Clean.rebuilds {s : Store H C} {placed : List (Fact × FactRef)}
    (h : s.Clean crc postcard placed) : s.dev.disk.rebuilds crc = false := by
  rw [Disk.rebuilds, h.synced]
  obtain fresh | committed := h.state
  · rw [fresh.header]
    rfl
  · split
    · rename_i none_
      have bounds := committed.indexed.bounds.1
      have pages := h.factPages
      have pos := committed.pages
      simp only [FileHeader.roots] at bounds
      rw [h.synced] at pages
      omega
    · rw [committed.checksum]
      simp

/-- A file that is trusted without trees is a new one. -/
theorem Disk.Sound.new_of_trusted {d : Disk C} {placed : List (Fact × FactRef)}
    (h : d.Sound crc postcard placed) (trusted : d.rebuilds crc = false)
    (none_ : d.header.factPageCount = 0) : FileHeader.new crc = d.header ∧ placed = [] := by
  obtain bare | ⟨pos, _⟩ := h.indexes
  · obtain ⟨_, roots, pages, _⟩ := bare.factPages
    have root : d.header.eavtRootPage = 0 := congrArg Roots.eavt roots
    rw [Disk.rebuilds, if_pos (.inr root), decide_eq_false_iff_not] at trusted
    have none_ : d.header.factPages = 0 := by omega
    have facts := h.facts
    rw [none_] at facts
    refine ⟨?_, (Except.ok.inj facts).symm⟩
    obtain same | ⟨n, large, same⟩ := bare
    · exact same.symm
    · rw [same] at pages none_
      have large : 1 < n := large
      have : n = 1 := by rw [none_] at pages; exact pages.symm
      omega
  · omega

theorem wp_recheckHeader {s : Dev C} (counted : 0 < s.header.pageCount) (inside : 0 < s.disk.len)
    (checked : checkHeader crc s.disk.header = .ok ()) :
    Wp (recheckHeader crc s.disk.header) s (fun _ t => t = s) (fun _ _ => False) := by
  unfold recheckHeader
  refine wp_ite (fun summed => ?_) fun _ => rfl
  rw [wp_bind]
  refine (wp_readHeader counted inside).mono ?_ (fun _ _ no => no.elim)
  rintro header t ⟨rfl, rfl⟩
  refine wp_ite (fun bad => ?_) fun _ => rfl
  rw [checkHeader, if_pos ⟨summed, bad⟩] at checked
  cases checked

theorem FactStorage.Ok.new : FactStorage.new.Ok :=
  ⟨fun k => by simp [FactStorage.new], rfl⟩

/-- What `load` makes of a sound file. -/
theorem Disk.Sound.wp_load {s : Store H C} {placed : List (Fact × FactRef)}
    (sound : s.dev.disk.Sound crc postcard placed)
    (trusted : s.dev.disk.Trusted crc postcard placed) (okay : s.dev.Ok)
    (synced : s.dev.disk.header = s.dev.header)
    (hashed : s.Hashed crc s.dev.disk.header.factPages) :
    Wp (load crc postcard) s (fun _ t => Loaded crc postcard s placed t)
      (fun _ t => LoadFailed crc postcard s placed t) := by
  have within := sound.within
  have counted : 0 < s.dev.header.pageCount := by
    rw [← synced]
    omega
  have inside : 0 < s.dev.disk.len := by
    have := sound.inside
    omega
  simp only [load, onDev, onFacts, wp_bind, wp_zoom, wp_modify, clear, wp_set, setCommittedReader,
    restoreTxCounterFrom]
  refine (wp_readHeader counted inside).mono ?_ (fun _ _ no => no.elim)
  rintro header d ⟨rfl, same⟩
  subst d
  rw [sound.validated, ofResult, wp_pure, sound.checked, ofResult, wp_pure]
  refine (wp_needsRebuild { s with
    storage := FactStorage.new
    lastCheckpointedTxCount := s.dev.disk.header.lastCheckpointedTxCount
    committedFactPages := s.dev.disk.header.factPages } okay synced sound).mono ?_
    (fun _ _ no => no.elim)
  rintro rebuild _ ⟨rfl, cached, rfl, from_⟩
  have hashed' : ∀ m hasher, cached = some (m, hasher) → m = s.dev.disk.header.factPages ∧
      hasher = crc.feed crc.new (pagesFrom s.dev.disk.page 1 s.dev.disk.header.factPages) := by
    intro m hasher same
    obtain rfl | rfl := from_
    · exact hashed m hasher same
    · simp only [Option.some.injEq, Prod.mk.injEq] at same
      exact ⟨same.1.symm, same.2.symm⟩
  cases rebuild : s.dev.disk.rebuilds crc with
  | true =>
      have some_ : 0 < s.dev.disk.header.factPages := by
        by_contra none_
        rw [Disk.rebuilds, if_pos (.inl (by omega)), decide_eq_true_iff] at rebuild
        omega
      simp only [if_true, wp_bind, wp_modify]
      refine (wp_rebuildOnLoad { s with
        storage := { FactStorage.new with
          committed := true
          txCounter := s.dev.disk.header.lastCheckpointedTxCount }
        lastCheckpointedTxCount := s.dev.disk.header.lastCheckpointedTxCount
        committedFactPages := s.dev.disk.header.factPages
        factPrefixCrc := cached } okay synced sound some_ rebuild rfl hashed' ?_ rfl).mono ?_ ?_
      · exact ⟨FactStorage.Ok.new.keys, FactStorage.Ok.new.indexes⟩
      · rintro _ t ⟨clean, facts, counter, last, calm⟩
        exact ⟨clean.withStorage rfl rfl clean.pending false, facts, counter.trans last.symm, rfl,
          by rw [last, rebuild, if_pos rfl], calm⟩
      · intro _ t failed
        exact ⟨failed.sound, failed.header, failed.rebuilt, failed.why⟩
  | false =>
      simp only [Bool.false_eq_true, if_false, trustOnLoad, wp_bind, onDev, wp_zoom]
      refine (wp_recheckHeader counted inside sound.checked).mono ?_ (fun _ _ no => no.elim)
      rintro _ d same
      subst d
      have last : s.dev.disk.header.lastCheckpointedTxCount =
          if s.dev.disk.rebuilds crc then maxTxCount (placed.map Prod.fst)
          else s.dev.disk.header.lastCheckpointedTxCount := by
        rw [rebuild, if_neg Bool.false_ne_true]
      have pending : ({ FactStorage.new with
          committed := true
          txCounter := s.dev.disk.header.lastCheckpointedTxCount } : FactStorage).Ok :=
        ⟨FactStorage.Ok.new.keys, FactStorage.Ok.new.indexes⟩
      have checked := sound.checked
      have limit := sound.limit
      have facts := sound.facts
      obtain none_ | pos := Nat.eq_zero_or_pos s.dev.disk.header.factPageCount
      · obtain ⟨new, empty⟩ := sound.new_of_trusted rebuild none_
        have root : ¬ s.dev.disk.header.eavtRootPage ≠ 0 := by simp [← new, FileHeader.new]
        simp only [root, if_false, wp_pure, wp_modify]
        rw [synced] at checked limit
        refine ⟨⟨okay, synced, limit, checked, facts, sound.fits, ?_, .inl ⟨?_, ?_, rfl⟩, hashed',
          ⟨pending.keys, pending.indexes⟩, ?_⟩, rfl, rfl, rfl, last, id⟩
        · rw [← synced, ← new, empty]
          rfl
        · rw [← synced, ← new]
        · simp only [← new]
          rfl
        · simp only [synced]
      · obtain ⟨indexed, checksum⟩ := trusted rebuild pos
        have own := FileHeader.factPages_of_pos pos
        have root : s.dev.disk.header.eavtRootPage ≠ 0 := by
          have := indexed.bounds.1
          simp only [FileHeader.roots] at this
          omega
        simp only [root, ne_eq, not_false_eq_true, if_true, onFacts, wp_zoom, setCommittedIndexReader,
          wp_modify]
        refine ⟨⟨okay, synced, ?_, ?_, facts, sound.fits, ?_, .inr ⟨?_, ?_, ?_, ?_, ?_, rfl⟩, hashed',
          ⟨pending.keys, pending.indexes⟩, ?_⟩, rfl, rfl, rfl, last, id⟩
        · exact synced ▸ limit
        · exact synced ▸ checked
        · exact synced ▸ sound.nodes pos
        · exact own ▸ pos
        · simp only [own, ← synced]
        · simp only [own, ← synced]
          exact indexed
        · simp only [← synced]
          exact checksum
        · simp only [← synced]
        · simp only [synced]

/-! ## Opening -/

theorem Store.Clean.create (capacity : Nat) (faults : Option Nat) :
    (Store.init (Dev.create crc capacity faults) : Store H C).Clean crc postcard [] := by
  refine ⟨fun bound => ⟨le_rfl, nofun, fun _ => rfl⟩, rfl, ?_, if_neg fun bad => bad.1 rfl, rfl,
    ⟨nofun, nofun, nofun, nofun⟩, rfl, .inl ⟨rfl, rfl, rfl⟩, nofun, .new, rfl⟩
  change 1 ≤ 2 ^ 52
  decide

/-- A file that is new or sound is opened as a store in good order. -/
theorem Disk.Sound.wp_openFile {disk : Disk C} {placed : List (Fact × FactRef)}
    (sound : disk.Sound crc postcard placed) (trusted : disk.Trusted crc postcard placed)
    (capacity : Nat) (faults : Option Nat) :
    Wp (openFile crc postcard) (Store.init (Dev.found disk capacity faults) : Store H C)
      (fun _ t => Loaded crc postcard (Store.init (Dev.found disk capacity faults)) placed t)
      (fun _ t => LoadFailed crc postcard (Store.init (Dev.found disk capacity faults)) placed t) := by
  have okay : (Dev.found disk capacity faults).Ok := fun bound => ⟨sound.inside, fun _ no => absurd no List.not_mem_nil, fun _ => rfl⟩
  simp only [openFile, wp_bind, wp_get, Store.init, Dev.found, Bool.false_eq_true, if_false]
  rw [sound.validated, ofResult, wp_pure, openStore, wp_bind, wp_get]
  simp only [Bool.not_false, Bool.true_or, if_true]
  exact sound.wp_load (s := Store.init (Dev.found disk capacity faults)) trusted okay rfl (by intro _ _ no; cases no)

theorem wp_openFile_new (capacity : Nat) (faults : Option Nat) :
    Wp (openFile crc postcard) (Store.init (Dev.create crc capacity faults) : Store H C)
      (fun _ t => Loaded crc postcard (Store.init (Dev.create crc capacity faults)) [] t)
      (fun _ _ => False) := by
  simp only [openFile, openStore, wp_bind, wp_get, Store.init, Dev.create, if_true]
  exact ⟨.create capacity faults, rfl, rfl, rfl, rfl, id⟩

end Load
end Minigraf
