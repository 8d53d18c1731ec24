import Minigraf.Graph.FactStorage
import Minigraf.Storage.Btree.Rebuild
import Minigraf.Storage.Btree.Scan

/-!
`PersistentFactStorage` of `src/storage/persistent_facts.rs` on a file of the current
format: opening, loading with its choice between trusting and rebuilding the indexes,
and saving.
-/

namespace Minigraf

open Bytes EStateM

/-- `PersistentFactStorage`. The fact pages a committed reader streams are the counter
it shares with this, `committedFactPages`. -/
structure Store (H C : Type) where
  dev : Dev C
  storage : FactStorage
  dirty : Bool
  lastCheckpointedTxCount : UInt64
  committedFactPages : Nat
  factPrefixCrc : Option (Nat × H)

abbrev StoreM (H C : Type) := EStateM ErrorCode (Store H C)

/-- The number of fact pages a header tells of. -/
def FileHeader.factPages {C : Type} (h : FileHeader C) : Nat :=
  if h.factPageCount > 0 then h.factPageCount
  else
    let roots := [h.eavtRootPage, h.aevtRootPage, h.avetRootPage, h.vaetRootPage]
    ((roots.filter (· > 0)).min?.getD h.pageCount) - 1

def FileHeader.roots {C : Type} (h : FileHeader C) : Roots :=
  ⟨h.eavtRootPage, h.aevtRootPage, h.avetRootPage, h.vaetRootPage⟩

section Programs

variable {H C : Type} (crc : Crc H C) (postcard : Postcard)

def onDev {α : Type} (x : Io C α) : StoreM H C α :=
  zoom Store.dev (fun dev s => { s with dev := dev }) x

def onFacts {α : Type} (x : FactM α) : StoreM H C α :=
  zoom Store.storage (fun storage s => { s with storage := storage }) x

/-! ## Index trees -/

/-- The four trees, one behind the other. -/
def chainTrees (eavt aevt avet vaet : Nat → Io C (Nat × Nat)) (start : Nat) : Io C (Roots × Nat) := do
  let (eavtRoot, next1) ← eavt start
  let (aevtRoot, next2) ← aevt next1
  let (avetRoot, next3) ← avet next2
  let (vaetRoot, next4) ← vaet next3
  pure (⟨eavtRoot, aevtRoot, avetRoot, vaetRoot⟩, next4)

/-- The trees `load` builds for facts at their places. -/
def buildIndexes (placed : List (Fact × FactRef)) : Nat → Io C (Roots × Nat) :=
  chainTrees
    (buildBtree crc postcard.eavt (indexEntries (some ∘ Fact.eavtKey) placed))
    (buildBtree crc postcard.aevt (indexEntries (some ∘ Fact.aevtKey) placed))
    (buildBtree crc postcard.avet (indexEntries (some ∘ Fact.avetKey) placed))
    (buildBtree crc postcard.vaet (indexEntries Fact.vaetKey placed))

/-- The old leaves of each tree. -/
structure OldLeaves where
  eavt : List Page
  aevt : List Page
  avet : List Page
  vaet : List Page

def oldLeaves (root : Nat) : Io C (List Page) :=
  if root = 0 then pure [] else collectLeafPages crc root

def collectOldLeaves (header : FileHeader C) : Io C OldLeaves := do
  let eavt ← oldLeaves crc header.eavtRootPage
  let aevt ← oldLeaves crc header.aevtRootPage
  let avet ← oldLeaves crc header.avetRootPage
  let vaet ← oldLeaves crc header.vaetRootPage
  pure ⟨eavt, aevt, avet, vaet⟩

/-- The trees `save` rebuilds from the old leaves and the pending facts at their new
places. -/
def rebuildIndexes (old : OldLeaves) (placed : List (Fact × FactRef)) : Nat → Io C (Roots × Nat) :=
  chainTrees
    (rebuildBtreeIncremental crc postcard.eavt old.eavt
      (indexEntries (some ∘ Fact.eavtKey) placed))
    (rebuildBtreeIncremental crc postcard.aevt old.aevt
      (indexEntries (some ∘ Fact.aevtKey) placed))
    (rebuildBtreeIncremental crc postcard.avet old.avet
      (indexEntries (some ∘ Fact.avetKey) placed))
    (rebuildBtreeIncremental crc postcard.vaet old.vaet (indexEntries Fact.vaetKey placed))

/-- A header under its checksum. -/
def FileHeader.sealed (h : FileHeader C) : FileHeader C :=
  { h with headerChecksum := computeHeaderChecksum crc h }

/-! ## Loading -/

variable [DecidableEq C]

/-- `backend.read_page(0)` and `FileHeader::from_bytes`. -/
def readHeader : Io C (FileHeader C) := do
  let _ ← readPage crc 0
  let s ← get
  pure s.disk.header

/-- A header without a checksum is not checked. -/
def checkHeader (h : FileHeader C) : Except ErrorCode Unit :=
  if h.headerChecksum ≠ crc.zero ∧ h.headerChecksum ≠ computeHeaderChecksum crc h then throw .int053
  else pure ()

/-- The checksum over all data pages and, where it can be had, the hasher after the fact
pages. -/
def fullChecksum (header : FileHeader C) (numFactPages : Nat) : Io C (C × Option H) := do
  let total := header.pageCount - 1
  if numFactPages ≤ total then do
    let factHash ← hashPages crc crc.new 1 numFactPages
    let hasher ← hashPages crc factHash (numFactPages + 1) (total - numFactPages)
    pure (crc.finalize hasher, some factHash)
  else do
    let checksum ← computePageChecksum crc 1 total
    pure (checksum, none)

/-- Whether `load` rebuilds the indexes. A matching checksum leaves the hasher after the
fact pages for the next save; a match on the fact pages alone is an old file. -/
def needsRebuild (header : FileHeader C) (numFactPages : Nat) : StoreM H C Bool :=
  if numFactPages = 0 ∨ header.eavtRootPage = 0 then pure (decide (numFactPages > 0))
  else do
    let (checksum, factHash) ← onDev (fullChecksum crc header numFactPages)
    if checksum = header.indexChecksum then do
      modify fun s => { s with factPrefixCrc := factHash.map (numFactPages, ·) }
      pure false
    else do
      let facts ← onDev (computePageChecksum crc 1 numFactPages)
      pure (decide (facts ≠ header.indexChecksum))

/-- The rebuilding branch of `load`. -/
def rebuildOnLoad (numFactPages : Nat) : StoreM H C Unit := do
  let placed ← onDev (readAllWithRefs postcard.fact crc 1 numFactPages)
  let maxTx := maxTxCount (placed.map Prod.fst)
  onFacts (restoreTxCounterFrom maxTx)
  let (roots, next) ← onDev (buildIndexes crc postcard placed (1 + numFactPages))
  let checksum ← onDev (computePageChecksum crc 1 (next - 1))
  let header : FileHeader C := { FileHeader.new crc with
    pageCount := next
    nodeCount := placed.length
    lastCheckpointedTxCount := maxTx
    eavtRootPage := roots.eavt
    aevtRootPage := roots.aevt
    avetRootPage := roots.avet
    vaetRootPage := roots.vaet
    indexChecksum := checksum
    factPageCount := numFactPages }
  onDev (writeHeaderPage (header.sealed crc))
  onDev sync
  modify fun s => { s with lastCheckpointedTxCount := maxTx }
  onFacts (setCommittedIndexReader roots)

/-- A header that has a checksum is read and checked once more. -/
def recheckHeader (header : FileHeader C) : Io C Unit :=
  if header.headerChecksum ≠ crc.zero then do
    let current ← readHeader crc
    if current.headerChecksum ≠ computeHeaderChecksum crc current then throw .int053 else pure ()
  else pure ()

/-- The trusting branch of `load`. -/
def trustOnLoad (header : FileHeader C) : StoreM H C Unit := do
  onDev (recheckHeader crc header)
  if header.eavtRootPage ≠ 0 then onFacts (setCommittedIndexReader header.roots) else pure ()

def load : StoreM H C Unit := do
  let header ← onDev (readHeader crc)
  let _ ← ofResult header.validate
  let _ ← ofResult (checkHeader crc header)
  modify fun s => { s with lastCheckpointedTxCount := header.lastCheckpointedTxCount }
  onFacts clear
  let numFactPages := header.factPages
  modify fun s => { s with committedFactPages := numFactPages }
  let rebuild ← needsRebuild crc header numFactPages
  onFacts setCommittedReader
  onFacts (restoreTxCounterFrom header.lastCheckpointedTxCount)
  if rebuild then rebuildOnLoad crc postcard numFactPages else trustOnLoad crc header
  modify fun s => { s with dirty := false }

/-- `PersistentFactStorage::new` over a backend that is open. -/
def Store.init (dev : Dev C) : Store H C where
  dev := dev
  storage := .new
  dirty := false
  lastCheckpointedTxCount := 0
  committedFactPages := 0
  factPrefixCrc := none

/-- A file the backend has just created. -/
def Dev.create (capacity : Nat) (faults : Option Nat) : Dev C where
  disk := ⟨FileHeader.new crc, 1, fun _ => Block.zeros PAGE_SIZE⟩
  header := FileHeader.new crc
  isNew := true
  cache := .new capacity
  faults := faults

/-- The backend on a file that was there. -/
def Dev.found (disk : Disk C) (capacity : Nat) (faults : Option Nat) : Dev C where
  disk := disk
  header := disk.header
  isNew := false
  cache := .new capacity
  faults := faults

/-- A backend that found a file is loaded; a new one has nothing to load. -/
def openStore : StoreM H C Unit := do
  let s ← get
  if !s.dev.isNew || decide (s.dev.header.pageCount > 1) then load crc postcard else pure ()

/-- `FileBackend::open_with`, which validates the header of a file that was there, and
then `PersistentFactStorage::new`. -/
def openFile : StoreM H C Unit := do
  let s ← get
  let _ ← ofResult (if s.dev.isNew then pure () else s.dev.header.validate)
  openStore crc postcard

/-! ## Saving -/

/-- The current header; a new file may not have one yet. -/
def currentHeader : Io C (FileHeader C) := do
  let s ← get
  match readPage crc 0 s with
  | .ok _ _ => pure s.disk.header
  | .error _ _ => if s.isNew then pure (FileHeader.new crc) else throw .stg010

def writeFactPages (id : Nat) : List Page → Io C Unit
  | [] => pure ()
  | page :: pages => do
      writePage crc id page
      writeFactPages (id + 1) pages

/-- `self.fact_prefix_crc.take()`. -/
def takePrefix : StoreM H C (Option (Nat × H)) :=
  modifyGet fun s => (s.factPrefixCrc, { s with factPrefixCrc := none })

/-- The hasher after all fact pages: the cached one goes on where it stands behind the
old fact pages. -/
def hashFactPages (cached : Option (Nat × H)) (oldCount newPages : Nat) : Io C H :=
  match cached with
  | some (n, factHash) =>
      if n = oldCount then hashPages crc factHash (1 + oldCount) newPages
      else hashPages crc crc.new 1 (oldCount + newPages)
  | none => hashPages crc crc.new 1 (oldCount + newPages)

/-- The end of `save` on the handle `s`: with the new pages on disk, the header that
tells of them is written, and then the handle goes over to it. -/
def commitSave (s : Store H C) (curr : FileHeader C) (newPages : Nat) (roots : Roots) (next : Nat) :
    StoreM H C Unit := do
  let oldCount := s.committedFactPages
  let newTotal := oldCount + newPages
  let cached ← takePrefix
  let factHash ← onDev (hashFactPages crc cached oldCount newPages)
  let hasher ← onDev (hashPages crc factHash (1 + newTotal) (next - (1 + newTotal)))
  if curr.nodeCount + s.storage.facts.length ≥ 2 ^ 64 then throw .int048
  else do
    let header : FileHeader C := { FileHeader.new crc with
      pageCount := next
      nodeCount := curr.nodeCount + s.storage.facts.length
      lastCheckpointedTxCount := s.storage.txCounter
      eavtRootPage := roots.eavt
      aevtRootPage := roots.aevt
      avetRootPage := roots.avet
      vaetRootPage := roots.vaet
      indexChecksum := crc.finalize hasher
      factPageCount := newTotal }
    onDev (writeHeaderPage (header.sealed crc))
    onDev sync
    modify fun s => { s with
      committedFactPages := newTotal
      factPrefixCrc := some (newTotal, factHash)
      lastCheckpointedTxCount := s.storage.txCounter
      dirty := false }
    onFacts (publish roots)

def save : StoreM H C Unit := do
  let s ← get
  if !s.dirty then pure ()
  else do
    let oldCount := s.committedFactPages
    let curr ← onDev (currentHeader crc)
    let old ← onDev (collectOldLeaves crc curr)
    onDev (modify fun d => { d with cache := d.cache.invalidateFrom (1 + oldCount) })
    let (pages, refs) ← ofResult (packFacts postcard.fact s.storage.facts (1 + oldCount))
    onDev (writeFactPages crc (1 + oldCount) pages)
    onDev sync
    let newTotal := oldCount + pages.length
    let (roots, next) ←
      onDev (rebuildIndexes crc postcard old (s.storage.facts.zip refs) (1 + newTotal))
    onDev sync
    commitSave crc s curr pages.length roots next

def markDirty : StoreM H C Unit := modify fun s => { s with dirty := true }

end Programs
end Minigraf
