import Minigraf.Storage.Frame
import Minigraf.Storage.Load

/-!
What opening does to any file, sound or not: the counter and the header it ends with,
and the fact pages it leaves alone.
-/

namespace Minigraf

open EStateM

/-! ## Reading -/

section Reading

variable {H C : Type} (crc : Crc H C)

theorem wp_readPage_any (s : Dev C) {id : Nat} (data : id ≠ 0) :
    Wp (readPage crc id) s (fun p t => p = s.disk.page id ∧ t = s) (fun _ t => t = s) := by
  unfold readPage
  simp only [wp_bind, wp_get]
  refine wp_ite (fun _ => rfl) fun _ => ?_
  refine wp_ite (fun _ => rfl) fun _ => ?_
  refine wp_ite (fun _ => rfl) fun _ => ?_
  rw [if_neg data]
  exact ⟨rfl, rfl⟩

theorem wp_hashPages_any (s : Dev C) (hasher : H) {first : Nat} (data : first ≠ 0) (n : Nat) :
    Wp (hashPages crc hasher first n) s
      (fun r t => r = crc.feed hasher (pagesFrom s.disk.page first n) ∧ t = s) (fun _ t => t = s) := by
  induction n generalizing hasher first with
  | zero => exact ⟨rfl, rfl⟩
  | succ n ih =>
      rw [hashPages, wp_bind]
      refine (wp_readPage_any crc s data).mono ?_ fun _ _ same => same
      rintro p t ⟨rfl, rfl⟩
      refine (ih _ (Nat.succ_ne_zero first)).mono ?_ fun _ _ same => same
      rintro r u ⟨rfl, rfl⟩
      rw [pagesFrom_succ]
      exact ⟨rfl, rfl⟩

theorem wp_computePageChecksum_any (s : Dev C) (n : Nat) :
    Wp (computePageChecksum crc 1 n) s (fun r t => r = pagesChecksum crc s.disk.page n ∧ t = s)
      (fun _ t => t = s) := by
  rw [computePageChecksum, wp_bind]
  refine (wp_hashPages_any crc s crc.new (by decide) n).mono ?_ fun _ _ same => same
  rintro r t ⟨rfl, rfl⟩
  exact ⟨rfl, rfl⟩

theorem wp_readAllWithRefs_any (postcard : Codec Fact) (s : Dev C) {first : Nat} (data : first ≠ 0)
    (n : Nat) :
    Wp (readAllWithRefs postcard crc first n) s
      (fun r t => readPageList postcard first (pagesFrom s.disk.page first n) = .ok r ∧ t = s)
      (fun _ t => t = s) := by
  induction n generalizing first with
  | zero => exact ⟨rfl, rfl⟩
  | succ n ih =>
      rw [readAllWithRefs, wp_bind]
      refine (wp_readPage_any crc s data).mono ?_ fun _ _ same => same
      rintro p t ⟨rfl, rfl⟩
      rw [wp_bind]
      refine wp_ofResult (fun here hhere => ?_) fun _ _ => rfl
      rw [wp_bind]
      refine (ih (Nat.succ_ne_zero first)).mono ?_ fun _ _ same => same
      rintro r u ⟨hrest, rfl⟩
      refine ⟨?_, rfl⟩
      rw [pagesFrom_succ, readPageList, hhere]
      simp only [bind, Except.bind, hrest]
      rfl

theorem wp_readHeader_any (s : Dev C) :
    Wp (readHeader crc) s (fun header t => t = s ∧ header = s.disk.header) (fun _ t => t = s) := by
  simp only [readHeader, readPage, wp_bind, wp_get]
  refine wp_ite (fun _ => rfl) fun _ => ?_
  refine wp_ite (fun _ => rfl) fun _ => ?_
  refine wp_ite (fun _ => rfl) fun _ => ?_
  exact wp_ite (fun _ => ⟨rfl, rfl⟩) fun _ => ⟨rfl, rfl⟩

theorem wp_fullChecksum_any (s : Dev C) (header : FileHeader C) (n : Nat) :
    Wp (fullChecksum crc header n) s
      (fun r t => r.1 = pagesChecksum crc s.disk.page (header.pageCount - 1) ∧ t = s)
      (fun _ t => t = s) := by
  rw [fullChecksum]
  refine wp_ite (fun within => ?_) fun _ => ?_
  · rw [wp_bind]
    refine (wp_hashPages_any crc s crc.new (by decide) n).mono ?_ fun _ _ same => same
    rintro factHash t ⟨rfl, rfl⟩
    rw [wp_bind]
    refine (wp_hashPages_any crc t _ (Nat.succ_ne_zero n) _).mono ?_ fun _ _ same => same
    rintro hasher u ⟨rfl, rfl⟩
    refine ⟨?_, rfl⟩
    rw [← crc.feed_append, Nat.succ_eq_one_add, ← pagesFrom_add,
      show n + (header.pageCount - 1 - n) = header.pageCount - 1 by omega]
    rfl
  · rw [wp_bind]
    refine (wp_computePageChecksum_any crc s _).mono ?_ fun _ _ same => same
    rintro checksum t ⟨rfl, rfl⟩
    exact ⟨rfl, rfl⟩

variable [DecidableEq C]

theorem wp_needsRebuild_any (s : Store H C) :
    Wp (needsRebuild crc s.dev.disk.header s.dev.disk.header.factPages) s
      (fun r t => r = s.dev.disk.rebuilds crc ∧ ∃ cached, t = { s with factPrefixCrc := cached })
      (fun _ t => t = s) := by
  unfold needsRebuild Disk.rebuilds
  split
  · exact ⟨rfl, s.factPrefixCrc, rfl⟩
  simp only [wp_bind, onDev, wp_zoom]
  refine (wp_fullChecksum_any crc s.dev _ _).mono ?_ fun _ _ same => by rw [same]
  rintro r d ⟨checksum, rfl⟩
  refine wp_ite (fun matches_ => ?_) fun differs => ?_
  · refine ⟨?_, _, rfl⟩
    rw [← checksum, matches_]
    simp
  · rw [wp_bind, wp_zoom]
    refine (wp_computePageChecksum_any crc s.dev _).mono ?_ fun _ _ same => by rw [same]
    rintro facts d ⟨rfl, rfl⟩
    refine ⟨?_, s.factPrefixCrc, rfl⟩
    rw [← checksum, decide_eq_true differs, Bool.true_and]

end Reading

/-! ## Opening -/

section Opening

variable {H C : Type} (crc : Crc H C) (postcard : Postcard)

/-- The file under the header of rebuilt indexes. -/
structure Dev.Rebuilt (n : Nat) (placed : List (Fact × FactRef)) (s t : Dev C) : Prop where
  header : t.header = t.disk.header
  last : t.disk.header.lastCheckpointedTxCount = maxTxCount (placed.map Prod.fst)
  count : t.disk.header.factPageCount = n
  page : ∀ i, i < 1 + n → t.disk.page i = s.disk.page i

/-- The facts on the pages a header counts. -/
def Disk.Reads (d : Disk C) (placed : List (Fact × FactRef)) : Prop :=
  readPageList postcard.fact 1 (pagesFrom d.page 1 d.header.factPages) = .ok placed

/-- The store of a file that was taken as it is. -/
structure Store.Taken (s t : Store H C) : Prop where
  kept : ∀ n, Dev.Kept n s.dev t.dev
  pages : t.committedFactPages = s.dev.disk.header.factPages
  counter : t.storage.txCounter = s.dev.disk.header.lastCheckpointedTxCount
  last : t.lastCheckpointedTxCount = s.dev.disk.header.lastCheckpointedTxCount

/-- The store of a file whose indexes were rebuilt. -/
structure Store.Rebuilt (s : Store H C) (placed : List (Fact × FactRef)) (t : Store H C) : Prop where
  read : s.dev.disk.Reads postcard placed
  dev : Dev.Rebuilt s.dev.disk.header.factPages placed s.dev t.dev
  pages : t.committedFactPages = s.dev.disk.header.factPages
  counter : t.storage.txCounter = maxTxCount (placed.map Prod.fst)
  last : t.lastCheckpointedTxCount = maxTxCount (placed.map Prod.fst)

variable [DecidableEq C]

/-- The store an open gives. -/
structure Store.Restored (s t : Store H C) : Prop where
  file : (s.dev.disk.rebuilds crc = false ∧ s.Taken t) ∨
    (s.dev.disk.rebuilds crc = true ∧ ∃ placed, s.Rebuilt postcard placed t)
  facts : t.storage.facts = []
  okay : t.storage.Ok
  dirty : t.dirty = false

/-- The file an open leaves that failed. -/
def Store.Unrestored (s t : Store H C) : Prop :=
  Dev.Kept (1 + s.dev.disk.header.factPages) s.dev t.dev ∨
    (s.dev.disk.rebuilds crc = true ∧ ∃ placed, s.dev.disk.Reads postcard placed ∧
      Dev.Rebuilt s.dev.disk.header.factPages placed s.dev t.dev)

theorem wp_rebuildOnLoad_any (s : Store H C) (rebuilds : s.dev.disk.rebuilds crc = true)
    (okay : s.storage.Ok) :
    Wp (rebuildOnLoad crc postcard s.dev.disk.header.factPages) s
      (fun _ t => (∃ placed, s.dev.disk.Reads postcard placed ∧
        Dev.Rebuilt s.dev.disk.header.factPages placed s.dev t.dev ∧
        t.storage.txCounter = maxTxCount (placed.map Prod.fst) ∧
        t.lastCheckpointedTxCount = maxTxCount (placed.map Prod.fst)) ∧
        t.storage.facts = s.storage.facts ∧ t.storage.Ok ∧ t.committedFactPages = s.committedFactPages)
      (fun _ t => s.Unrestored crc postcard t) := by
  simp only [rebuildOnLoad, wp_bind, onDev, onFacts, wp_zoom, restoreTxCounterFrom, wp_modify]
  refine (wp_readAllWithRefs_any crc postcard.fact s.dev (by decide) _).mono ?_ ?_
  · rintro placed d ⟨read, rfl⟩
    refine ((moves_buildIndexes crc postcard placed (le_refl _)).wp s.dev).mono ?_ fun _ _ => .inl
    rintro ⟨roots, next⟩ d kept
    refine ((keepsFront_computePageChecksum crc 1 (next - 1)).wp d).mono ?_ fun _ _ kept' =>
      .inl (trans_of _ kept kept')
    intro checksum d₂ kept'
    have kept₂ := trans_of _ kept kept'
    simp only [writeHeaderPage, sync, setCommittedIndexReader, wp_bind]
    have rebuilt {header : FileHeader C} (f : Option Nat)
        (last : header.lastCheckpointedTxCount = maxTxCount (placed.map Prod.fst))
        (count : header.factPageCount = s.dev.disk.header.factPages) :
        Dev.Rebuilt s.dev.disk.header.factPages placed s.dev
          { d₂ with disk := d₂.disk.writeHeader header, header := header, faults := f } :=
      ⟨rfl, last, count, kept₂.page⟩
    apply wp_tick
    · intro f _
      simp only [wp_modify]
      apply wp_tick
      · intro g _
        exact ⟨⟨placed, read, rebuilt g rfl rfl, rfl, rfl⟩, trivial, ⟨okay.keys, okay.indexes⟩, trivial⟩
      · intro _
        exact .inr ⟨rebuilds, placed, read, rebuilt none rfl rfl⟩
    · intro _
      refine .inl (trans_of _ kept₂ ?_)
      exact .mem rfl rfl
  · rintro _ d rfl
    exact .inl (refl_of _ _)

theorem wp_trustOnLoad_any (s : Store H C) (header : FileHeader C) (okay : s.storage.Ok) :
    Wp (trustOnLoad crc header) s
      (fun _ t => t.dev = s.dev ∧ t.storage.facts = s.storage.facts ∧ t.storage.Ok ∧
        t.storage.txCounter = s.storage.txCounter ∧ t.committedFactPages = s.committedFactPages ∧
        t.lastCheckpointedTxCount = s.lastCheckpointedTxCount)
      (fun _ t => t.dev = s.dev) := by
  have recheck : Wp (recheckHeader crc header) s.dev (fun _ d => d = s.dev) (fun _ d => d = s.dev) := by
    unfold recheckHeader
    refine wp_ite (fun _ => ?_) fun _ => rfl
    rw [wp_bind]
    refine (wp_readHeader_any crc s.dev).mono ?_ fun _ _ same => same
    rintro current d ⟨rfl, rfl⟩
    exact wp_ite (fun _ => rfl) fun _ => rfl
  simp only [trustOnLoad, wp_bind, onDev, onFacts, wp_zoom, setCommittedIndexReader]
  refine recheck.mono ?_ fun _ _ same => same
  rintro _ d rfl
  refine wp_ite (fun _ => ?_) fun _ => ?_
  · exact ⟨rfl, rfl, ⟨okay.keys, okay.indexes⟩, rfl, rfl, rfl⟩
  · exact ⟨rfl, rfl, okay, rfl, rfl, rfl⟩

theorem wp_load_any (s : Store H C) :
    Wp (load crc postcard) s (fun _ t => s.Restored crc postcard t)
      (fun _ t => s.Unrestored crc postcard t) := by
  have same {t : Store H C} (same : t.dev = s.dev) : s.Unrestored crc postcard t :=
    .inl (.mem (congrArg Dev.disk same) (congrArg Dev.header same))
  rw [load, wp_bind, onDev, wp_zoom]
  refine (wp_readHeader_any crc s.dev).mono ?_ fun _ _ h => same h
  rintro header d ⟨rfl, rfl⟩
  rw [wp_bind]
  refine wp_ofResult (fun _ _ => ?_) fun _ _ => same rfl
  rw [wp_bind]
  refine wp_ofResult (fun _ _ => ?_) fun _ _ => same rfl
  rw [wp_bind, wp_modify, wp_bind, onFacts, wp_zoom, clear, wp_set, wp_bind, wp_modify, wp_bind]
  refine (wp_needsRebuild_any crc { s with
    storage := .new
    lastCheckpointedTxCount := s.dev.disk.header.lastCheckpointedTxCount
    committedFactPages := s.dev.disk.header.factPages }).mono ?_ ?_
  · rintro rebuild t ⟨rfl, cached, rfl⟩
    simp only [setCommittedReader, restoreTxCounterFrom, onFacts, wp_bind, wp_zoom, wp_modify]
    refine wp_ite (fun rebuilds => ?_) fun trusted => ?_
    · rw [wp_bind]
      refine (wp_rebuildOnLoad_any crc postcard { s with
        storage := { FactStorage.new with
          committed := true
          txCounter := s.dev.disk.header.lastCheckpointedTxCount }
        lastCheckpointedTxCount := s.dev.disk.header.lastCheckpointedTxCount
        committedFactPages := s.dev.disk.header.factPages
        factPrefixCrc := cached } rebuilds ⟨FactStorage.Ok.new.keys, rfl⟩).mono ?_ fun _ _ h => h
      rintro _ t ⟨⟨placed, read, dev, counter, last⟩, facts, okay, pages⟩
      exact ⟨.inr ⟨rebuilds, placed, read, dev, pages, counter, last⟩, facts, ⟨okay.keys, okay.indexes⟩,
        rfl⟩
    · rw [wp_bind]
      refine (wp_trustOnLoad_any crc { s with
        storage := { FactStorage.new with
          committed := true
          txCounter := s.dev.disk.header.lastCheckpointedTxCount }
        lastCheckpointedTxCount := s.dev.disk.header.lastCheckpointedTxCount
        committedFactPages := s.dev.disk.header.factPages
        factPrefixCrc := cached } s.dev.disk.header ⟨FactStorage.Ok.new.keys, rfl⟩).mono ?_
        fun _ _ h => same h
      rintro _ t ⟨dev, facts, okay, counter, pages, last⟩
      refine ⟨.inl ⟨Bool.eq_false_iff.mpr trusted, fun n => ?_, pages, counter, last⟩, facts,
        ⟨okay.keys, okay.indexes⟩, rfl⟩
      exact .mem (congrArg Dev.disk dev) (congrArg Dev.header dev)
  · intro _ t h
    refine same ?_
    rw [h]

/-- What an open makes of any file that is there, or of a new one. -/
theorem wp_openFile_any (s : Store H C) (start : s.storage = .new)
    (new : s.dev.isNew = true → s.dev.disk.header = FileHeader.new crc ∧ s = .init s.dev) :
    Wp (openFile crc postcard) s (fun _ t => s.Restored crc postcard t)
      (fun _ t => s.Unrestored crc postcard t) := by
  rw [openFile, wp_bind, wp_get, wp_bind]
  refine wp_ofResult (fun _ _ => ?_) fun _ _ => .inl (refl_of _ _)
  rw [openStore, wp_bind, wp_get]
  refine wp_ite (fun _ => wp_load_any crc postcard s) fun plain => ?_
  have fresh : s.dev.isNew = true := by
    cases isNew : s.dev.isNew with
    | true => rfl
    | false =>
        rw [isNew] at plain
        exact absurd rfl plain
  obtain ⟨header, whole⟩ := new fresh
  refine ⟨.inl ⟨?_, fun n => refl_of _ _, ?_, ?_, ?_⟩, ?_, ?_, ?_⟩
  · rw [Disk.rebuilds, header]
    rfl
  · rw [header, whole]
    rfl
  · rw [header, start]
    rfl
  · rw [header, whole]
    rfl
  · rw [start]
    rfl
  · rw [start]
    exact .new
  · rw [whole]
    rfl

end Opening
end Minigraf
