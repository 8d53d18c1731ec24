import Minigraf.Storage.Answers
import Minigraf.Storage.LegacyFacts

/-!
What opening makes of a file with one fact a page: its facts are read and saved, or the save
is cut short. A file that such a save finished is opened with the facts it saved.
-/

namespace Minigraf

open Bytes EStateM

section Legacy

variable {H C : Type} (crc : Crc H C) (postcard : Postcard) (v1 : Codec FactV1) (blobs : BlobCodecs)

/-- What the data pages of a file hold. -/
def Disk.held {α : Type} (decode : List UInt8 → Option α) (d : Disk C) : List α :=
  decodedPages decode d.page 1 (d.header.pageCount - 1)

/-- The facts that are loaded from a file of this version. -/
def Disk.legacyFacts (version : Nat) (d : Disk C) : List Fact :=
  if version < 2 then assignTxCounts 0 none (sortByTxId (d.held v1.decode)) else d.held postcard.fact.decode

/-- A header without trees, over pages that are there. -/
structure Disk.Bare (d : Disk C) : Prop where
  counted : 0 < d.header.pageCount
  inside : d.header.pageCount ≤ d.len
  limit : d.header.pageCount ≤ PAGE_LIMIT
  roots : d.header.roots = ⟨0, 0, 0, 0⟩
  none_ : d.header.factPageCount = 0
  nodes : d.header.nodeCount < 2 ^ 63

/-- A store that has read the facts of a file and is about to save them. -/
structure ReadFrom (version : Nat) (d : Disk C) (capacity : Nat) (faults : Option Nat) (s : Store H C) : Prop where
  dev : s.dev = Dev.found d capacity faults
  facts : s.storage.facts = freshFacts [] (d.legacyFacts postcard v1 version)
  ok : s.storage.Ok
  dirty : s.dirty = true
  pages : s.committedFactPages = 0
  unhashed : s.factPrefixCrc = none

variable {postcard v1} {d : Disk C} {capacity version : Nat} {faults : Option Nat}

theorem Disk.Bare.validated (bare : d.Bare) : d.header.validate = .ok () := by
  have counted := bare.counted
  have root : d.header.eavtRootPage = 0 := congrArg Roots.eavt bare.roots
  simp only [FileHeader.validate, if_neg (by omega : ¬ d.header.pageCount = 0), root, bare.none_,
    if_neg (by omega : ¬ 0 > d.header.pageCount), ne_eq, not_true_eq_false, false_and, if_false]
  rfl

theorem Dev.found_ok (inside : d.header.pageCount ≤ d.len) : (Dev.found d capacity faults).Ok :=
  fun _ => ⟨inside, fun _ no => absurd no List.not_mem_nil, fun _ => rfl⟩

section Read

variable {s : Store H C} (read : ReadFrom postcard v1 version d capacity faults s)

include read

theorem ReadFrom.disk : s.dev.disk = d := by
  rw [read.dev]
  rfl

theorem ReadFrom.header : s.dev.header = d.header := by
  rw [read.dev]
  rfl

theorem ReadFrom.okay (inside : d.header.pageCount ≤ d.len) : s.dev.Ok := by
  rw [read.dev]
  exact Dev.found_ok inside

theorem ReadFrom.length_le : s.storage.facts.length ≤ (d.legacyFacts postcard v1 version).length := by
  rw [read.facts]
  exact (freshFacts_sublist [] _).length_le

end Read

theorem FactStorage.Ok.recount {s : FactStorage} (h : s.Ok) (count : UInt64) :
    FactStorage.Ok { s with txCounter := count } := ⟨h.keys, h.indexes⟩

variable [DecidableEq C]

/-- A file of versions 1 to 4 is read without a write. -/
theorem wp_openVersion_legacy (old : version ≤ 4) (valid : d.header.validate = .ok ())
    (inside : d.header.pageCount ≤ d.len) (limit : d.header.pageCount ≤ PAGE_LIMIT)
    (few : (d.legacyFacts postcard v1 version).length ≤ 2 ^ 32)
    {Q : Unit → Store H C → Prop} {E : ErrorCode → Store H C → Prop}
    (saves : ∀ s, ReadFrom postcard v1 version d capacity faults s → Wp (save crc postcard) s Q E) :
    Wp (openVersion crc postcard v1 blobs version) (Store.init (Dev.found d capacity faults)) Q E := by
  have counted : 0 < d.header.pageCount := by
    by_contra none_
    rw [FileHeader.validate, if_pos (by omega)] at valid
    cases valid
  have okay : (Dev.found d capacity faults).Ok := Dev.found_ok inside
  simp only [openVersion, wp_bind, wp_get]
  rw [show (Store.init (Dev.found d capacity faults) : Store H C).dev.header = d.header from rfl, valid, ofResult,
    wp_pure, loadVersion, if_neg (by omega)]
  simp only [onDev, wp_bind, wp_zoom]
  refine (@wp_readHeader H C crc (Dev.found d capacity faults) counted (by
    show 0 < d.len
    omega)).mono ?_ (fun _ _ no => no.elim)
  rintro header dev ⟨rfl, rfl⟩
  rw [show (Dev.found d capacity faults).disk.header = d.header from rfl, valid, ofResult, wp_pure]
  have saved {storage : FactStorage} (last : UInt64)
      (loaded : Appended .new (freshFacts [] (d.legacyFacts postcard v1 version)) storage) :
      Wp (saveLoaded crc postcard) { Store.init (Dev.found d capacity faults) with
        storage := storage, lastCheckpointedTxCount := last } Q E := by
    simp only [saveLoaded, onFacts, wp_bind, wp_zoom, restoreTxCounter, markDirty, wp_modify]
    exact saves _ ⟨rfl, loaded.facts, (loaded.ok .new).recount _, rfl, rfl, rfl⟩
  by_cases first : version < 2
  · rw [if_pos first, migrateV1ToV2]
    simp only [onDev, onFacts, wp_bind, wp_zoom]
    refine (@wp_readHeader H C crc (Dev.found d capacity faults) counted (by
      show 0 < d.len
      omega)).mono ?_ (fun _ _ no => no.elim)
    rintro header dev ⟨rfl, rfl⟩
    refine (wp_readV1Facts crc v1 okay (by decide : 1 ≠ 0)
      (by show 1 + (d.header.pageCount - 1) ≤ d.header.pageCount; omega)
      (by show 1 + (d.header.pageCount - 1) ≤ PAGE_LIMIT; omega)).mono ?_ (fun _ _ no => no.elim)
    rintro facts dev ⟨rfl, rfl⟩
    have whole : d.legacyFacts postcard v1 version =
        assignTxCounts 0 none (sortByTxId (d.held v1.decode)) := if_pos first
    rw [whole] at few saved
    simp only [clear, wp_set]
    refine (wp_loadEach FactStorage.new .new _ ?_).mono ?_ (fun _ _ no => no.elim)
    · show 0 + (assignTxCounts 0 none (sortByTxId (d.held v1.decode))).length ≤ 2 ^ 32
      omega
    · intro _ storage loaded
      exact saved 0 loaded
  · have whole : d.legacyFacts postcard v1 version = d.held postcard.fact.decode := if_neg first
    rw [whole] at few saved
    rw [if_neg first, if_neg (by omega)]
    simp only [onFacts, wp_bind, wp_zoom, wp_modify, clear, wp_set]
    have loads := @wp_loadOnePerPageLegacy H C crc postcard { Store.init (Dev.found d capacity faults) with
      lastCheckpointedTxCount := d.header.lastCheckpointedTxCount } okay .new 1 (d.header.pageCount - 1)
      (by decide) (by show 1 + (d.header.pageCount - 1) ≤ d.header.pageCount; omega) (by omega)
      (by show 0 + (d.held postcard.fact.decode).length ≤ 2 ^ 32; omega)
    refine loads.mono ?_ (fun _ _ no => no.elim)
    rintro _ _ ⟨storage, rfl, loaded⟩
    exact saved _ loaded

/-! ## Saving what was read -/

/-- A fact that fits the pages of the current format, wherever it is placed. -/
structure Fact.FitsPages (postcard : Postcard) (f : Fact) : Prop where
  packed : f.Fits postcard.fact
  indexed : ∀ r : FactRef, r.pageId ≤ 2 ^ 33 → r.slotIndex ≤ 2 ^ 32 → IndexFits postcard [(f, r)]

theorem IndexFits.of_each {placed : List (Fact × FactRef)} (each : ∀ p ∈ placed, IndexFits postcard [p]) :
    IndexFits postcard placed := by
  have one {K : Type} {key : Fact → Option K} {e : K × FactRef} (he : e ∈ entriesOf key placed) :
      ∃ p ∈ placed, e ∈ entriesOf key [p] := by
    obtain ⟨p, hp, same⟩ := List.mem_filterMap.mp he
    exact ⟨p, hp, List.mem_filterMap.mpr ⟨p, List.mem_singleton_self p, same⟩⟩
  constructor
  · intro e he
    obtain ⟨p, hp, own⟩ := one he
    exact (each p hp).eavt e own
  · intro e he
    obtain ⟨p, hp, own⟩ := one he
    exact (each p hp).aevt e own
  · intro e he
    obtain ⟨p, hp, own⟩ := one he
    exact (each p hp).avet e own
  · intro e he
    obtain ⟨p, hp, own⟩ := one he
    exact (each p hp).vaet e own

variable {crc blobs}

omit [DecidableEq C] in
theorem ReadFrom.ready {s : Store H C} (read : ReadFrom postcard v1 version d capacity faults s) (bare : d.Bare)
    (few : (d.legacyFacts postcard v1 version).length ≤ 2 ^ 32)
    (fits : ∀ f ∈ d.legacyFacts postcard v1 version, f.FitsPages postcard) : s.Ready crc postcard [] := by
  have limit := bare.limit
  have counted := bare.counted
  have okay := read.okay bare.inside
  have header := read.header
  refine ⟨okay, by rw [read.dev]; rfl, ?_, ?_, ?_, ?_, ?_⟩
  · rw [header]
    exact limit
  · rw [header, read.pages]
    omega
  · rw [List.nil_append]
    refine .of_each fun p hp => ?_
    obtain ⟨hfact, href⟩ := List.of_mem_zip hp
    have bound := mem_packedRefs href
    have groups := length_packGroups_le postcard.fact s.storage.facts
    have count := read.length_le
    rw [packGroups_flatten, read.pages] at bound
    rw [read.facts] at hfact
    exact (fits p.1 ((freshFacts_sublist [] _).subset hfact)).indexed p.2 (by omega) (by omega)
  · rw [header]
    exact wp_collectOldLeaves_none crc okay bare.roots
  · intro m hasher cached
    rw [read.unhashed] at cached
    cases cached

/-- Its facts are read and saved, or the save is cut short. -/
theorem Disk.Bare.wp_openVersion (bare : d.Bare) (old : version ≤ 4)
    (few : (d.legacyFacts postcard v1 version).length ≤ 2 ^ 32)
    (fits : ∀ f ∈ d.legacyFacts postcard v1 version, f.FitsPages postcard) :
    Wp (openVersion crc postcard v1 blobs version) (Store.init (Dev.found d capacity faults))
      (fun _ u => ∃ s, ReadFrom postcard v1 version d capacity faults s ∧ s.Finished crc postcard [] u)
      (fun _ u => ∃ s, ReadFrom postcard v1 version d capacity faults s ∧ s.CutShort crc postcard [] u) :=
  wp_openVersion_legacy crc blobs old bare.validated bare.inside bare.limit few fun s read =>
    ((read.ready bare few fits).wp_save read.dirty).mono (fun _ _ done => ⟨s, read, done⟩) fun _ _ short => ⟨s, read, short⟩

omit [DecidableEq C] in
/-- Without faults the save is not cut short. -/
theorem ReadFrom.not_cutShort {s u : Store H C} (read : ReadFrom postcard v1 version d capacity none s)
    (bare : d.Bare) (few : (d.legacyFacts postcard v1 version).length ≤ 2 ^ 32)
    (fits : ∀ f ∈ d.legacyFacts postcard v1 version, f.FitsPages postcard) : ¬ s.CutShort crc postcard [] u := by
  intro short
  have nodes := bare.nodes
  have count := read.length_le
  have groups := length_packGroups_le postcard.fact s.storage.facts
  obtain fault | ⟨f, hf, large⟩ | far | many := short.why
  · rw [read.dev] at fault
    exact fault rfl
  · rw [read.facts] at hf
    exact large (fits f ((freshFacts_sublist [] _).subset hf)).packed
  · rw [read.pages, List.length_nil, PAGE_LIMIT] at far
    omega
  · rw [read.header] at many
    omega

/-! ## A file that was saved -/

variable (crc postcard) in
/-- A file of the current format whose checksum is that of its pages. -/
structure Disk.Whole (d : Disk C) (placed : List (Fact × FactRef)) : Prop where
  checked : checkHeader crc d.header = .ok ()
  inside : d.header.pageCount ≤ d.len
  limit : d.header.pageCount ≤ PAGE_LIMIT
  pos : 0 < d.header.factPageCount
  within : 1 + d.header.factPageCount ≤ d.header.pageCount
  root : d.header.eavtRootPage ≠ 0
  rooted : d.header.eavtRootPage < d.header.pageCount
  facts : readPageList postcard.fact 1 (pagesFrom d.page 1 d.header.factPageCount) = .ok placed
  checksum : pagesChecksum crc d.page (d.header.pageCount - 1) = d.header.indexChecksum

theorem Store.Finished.whole {s u : Store H C} (fin : s.Finished crc postcard [] u) (none_ : s.committedFactPages = 0) :
    u.dev.disk.Whole crc postcard (s.pendingAt postcard) := by
  obtain ⟨pages, e, roots, next, f, filed, rfl⟩ := fin.filed
  obtain ⟨refs, packed⟩ := filed.packed
  obtain ⟨read, hrefs, width⟩ := packFacts_read packed
  have bounds := filed.indexed.bounds
  have counted := filed.counted
  have inside := filed.okay.inside
  have written := filed.written
  have pos : 0 < pages.length := by
    rw [width]
    exact List.length_pos_iff.mpr (packGroups_ne_nil postcard.fact _)
  have new : s.storage.facts.zip refs = s.pendingAt postcard := by rw [hrefs]; rfl
  rw [none_] at read written bounds
  rw [← written, new] at read
  refine ⟨checkHeader_sealed _, counted.trans inside, filed.limit, ?_, ?_, ?_, ?_, ?_, rfl⟩
  · show 0 < s.committedFactPages + pages.length
    omega
  · show 1 + (s.committedFactPages + pages.length) ≤ next
    omega
  · show roots.eavt ≠ 0
    omega
  · exact bounds.2.2.2.2.1
  · show readPageList postcard.fact 1 (pagesFrom e.disk.page 1 (s.committedFactPages + pages.length)) = _
    rw [none_, Nat.zero_add]
    exact read

theorem Store.Finished.readable {s u : Store H C} (fin : s.Finished crc postcard [] u)
    (none_ : s.committedFactPages = 0) :
    u.Readable postcard (s.pendingAt postcard) ∧ u.storage.facts = [] := by
  have whole := fin.whole none_
  obtain ⟨pages, e, roots, next, f, filed, rfl⟩ := fin.filed
  exact ⟨⟨whole.inside, whole.within, whole.within.trans whole.limit, whole.facts, fun no => by cases no⟩, rfl⟩

theorem Disk.Whole.validated {placed : List (Fact × FactRef)} (whole : d.Whole crc postcard placed) :
    d.header.validate = .ok () := by
  have within := whole.within
  have rooted := whole.rooted
  simp only [FileHeader.validate, if_neg (by omega : ¬ d.header.pageCount = 0),
    if_neg (by omega : ¬ (d.header.eavtRootPage ≠ 0 ∧ d.header.eavtRootPage ≥ d.header.pageCount)),
    if_neg (by omega : ¬ d.header.factPageCount > d.header.pageCount)]
  rfl

theorem Disk.Whole.wp_openVersion {placed : List (Fact × FactRef)} (whole : d.Whole crc postcard placed) :
    Wp (openVersion crc postcard v1 blobs 7) (Store.init (Dev.found d capacity none) : Store H C)
      (fun _ u => u.Readable postcard placed ∧ u.storage.facts = []) (fun _ _ => False) := by
  have within := whole.within
  have pos := whole.pos
  have inside := whole.inside
  have own := FileHeader.factPages_of_pos pos
  have okay : (Dev.found d capacity none).Ok := Dev.found_ok inside
  have readsHeader : Wp (readHeader crc) (Dev.found d capacity none)
      (fun h t => h = d.header ∧ t = Dev.found d capacity none) (fun _ _ => False) :=
    @wp_readHeader H C crc (Dev.found d capacity none) (by show 0 < d.header.pageCount; omega)
      (by show 0 < d.len; omega)
  have rechecks : Wp (recheckHeader crc d.header) (Dev.found d capacity none)
      (fun _ t => t = Dev.found d capacity none) (fun _ _ => False) :=
    @wp_recheckHeader H C crc _ (Dev.found d capacity none) (by show 0 < d.header.pageCount; omega)
      (by show 0 < d.len; omega) whole.checked
  simp only [openVersion, wp_bind, wp_get]
  rw [show (Store.init (Dev.found d capacity none) : Store H C).dev.header = d.header from rfl, whole.validated,
    ofResult, wp_pure, loadVersion, if_pos (by decide)]
  simp only [load, onDev, onFacts, wp_bind, wp_zoom, wp_modify, clear, wp_set, setCommittedReader,
    restoreTxCounterFrom]
  refine readsHeader.mono ?_ (fun _ _ no => no.elim)
  rintro header dev ⟨rfl, rfl⟩
  rw [whole.validated, ofResult, wp_pure, whole.checked, ofResult, wp_pure, own, needsRebuild,
    if_neg (by have := whole.root; omega)]
  simp only [wp_bind, onDev, wp_zoom]
  refine (wp_fullChecksum okay within le_rfl whole.limit).mono ?_ (fun _ _ no => no.elim)
  rintro _ dev ⟨rfl, rfl⟩
  refine wp_ite (fun _ => ?_) fun differs => absurd whole.checksum differs
  simp only [wp_bind, wp_modify, wp_pure, Bool.false_eq_true, if_false, trustOnLoad, onDev, wp_zoom]
  refine rechecks.mono ?_ (fun _ _ no => no.elim)
  rintro _ dev rfl
  rw [if_pos whole.root]
  simp only [onFacts, wp_zoom, setCommittedIndexReader, wp_modify]
  exact ⟨⟨inside, within, within.trans whole.limit, whole.facts, fun no => by cases no⟩, rfl⟩

end Legacy
end Minigraf
