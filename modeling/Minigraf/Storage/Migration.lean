import Minigraf.Graph.Lookups
import Minigraf.Storage.Btree.Ranges

/-!
The migration of a version 5 file: `migrate_v5_to_v6` of `src/storage/persistent_facts.rs`
and the reader of the old index blobs in `src/storage/btree.rs`.

The facts stay on their pages. Where the old indexes are trusted their references go over
into the new trees; where they are rebuilt, the references are made up while the facts are
counted, as if all of them were on the first page.
-/

namespace Minigraf

open Bytes EStateM

/-! ## Old index blobs -/

def PAGE_TYPE_INDEX : UInt8 := 0x11

/-- The type, the length of the blob, the length of the chunk and the flag of the last page. -/
def BLOB_HEADER_SIZE : Nat := 10

/-- How postcard writes the entries of an old index. -/
structure BlobCodecs where
  eavt : Codec (List (EavtKey × FactRef))
  aevt : Codec (List (AevtKey × FactRef))
  avet : Codec (List (AvetKey × FactRef))
  vaet : Codec (List (VaetKey × FactRef))

/-- Each as a list of keys with their references. -/
def BlobCodecs.standard : BlobCodecs where
  eavt := (Postcard.eavtKey.pair Postcard.factRef).list.codec
  aevt := (Postcard.aevtKey.pair Postcard.factRef).list.codec
  avet := (Postcard.avetKey.pair Postcard.factRef).list.codec
  vaet := (Postcard.vaetKey.pair Postcard.factRef).list.codec

section Programs

variable {H C : Type} (crc : Crc H C) (postcard : Postcard) (blobs : BlobCodecs)

/-- The loop of `read_blob`. It ends at a last page or where the file does, so the pages of
the file are fuel enough. -/
def readChunks : Nat → Nat → Io C (List UInt8)
  | 0, _ => throw .int049
  | room + 1, id => do
      let page ← readPage crc id
      if page.type ≠ PAGE_TYPE_INDEX then throw .stg012
      else do
        let chunkLen ← ofResult (orError .int049 (readNat page.val 5 4))
        let isLast ← ofResult (orError .int049 (readNat page.val 9 1))
        let chunk ← ofResult (orError .int049 (readAt page.val BLOB_HEADER_SIZE chunkLen))
        if isLast = 1 then pure chunk
        else do
          let rest ← readChunks room (id + 1)
          pure (chunk ++ rest)

def readBlob (startPageId : Nat) : Io C (List UInt8) := do
  let firstPage ← readPage crc startPageId
  if firstPage.type ≠ PAGE_TYPE_INDEX then throw .int049
  else do
    let s ← get
    readChunks crc (s.header.pageCount - startPageId) startPageId

def readIndexGeneric {K : Type} [LinearOrder K] (codec : Codec (List (K × FactRef))) (rootPageId : Nat) :
    Io C (OrdMap K FactRef) := do
  let blob ← readBlob crc rootPageId
  let entries ← ofResult (decodeOr codec blob)
  pure (.ofEntries entries)

/-- An old index; root 0 is none. -/
def oldIndex {K : Type} [LinearOrder K] (codec : Codec (List (K × FactRef))) (root : Nat) :
    Io C (OrdMap K FactRef) :=
  if root > 0 then readIndexGeneric crc codec root else pure .empty

def oldIndexes (header : FileHeader C) : Io C Indexes := do
  let eavt ← oldIndex crc blobs.eavt header.eavtRootPage
  let aevt ← oldIndex crc blobs.aevt header.aevtRootPage
  let avet ← oldIndex crc blobs.avet header.avetRootPage
  let vaet ← oldIndex crc blobs.vaet header.vaetRootPage
  pure ⟨eavt, aevt, avet, vaet⟩

/-! ## The migration -/

/-- The fact pages end where the first index begins. -/
def FileHeader.pagesBeforeIndexes (h : FileHeader C) : Nat :=
  let roots := [h.eavtRootPage, h.aevtRootPage, h.avetRootPage, h.vaetRootPage]
  ((roots.filter (· > 0)).min?.getD h.pageCount) - 1

/-- None where the first of them cannot be read. -/
def validatedFactPages (header : FileHeader C) : Io C Nat := do
  let s ← get
  if header.pagesBeforeIndexes > 0 then
    match readPage crc 1 s with
    | .ok _ _ => pure header.pagesBeforeIndexes
    | .error _ _ => pure 0
  else pure header.pagesBeforeIndexes

section

variable [DecidableEq C]

/-- The checksum may be over all data pages or, in older files, over the fact pages. -/
def useOldIndexes (header : FileHeader C) (numFactPages : Nat) : Io C Bool :=
  if numFactPages > 0 ∧ header.indexChecksum ≠ crc.zero then do
    let full ← computePageChecksum crc 1 (header.pageCount - 1)
    if full = header.indexChecksum then pure true
    else do
      let factOnly ← computePageChecksum crc 1 numFactPages
      pure (decide (factOnly = header.indexChecksum))
  else pure false

end

/-- The references the rebuilding branch makes up: page 1 and the number of the fact. -/
def madeUpRefs (facts : List Fact) : Except ErrorCode (List (Fact × FactRef)) :=
  facts.zipIdx.mapM fun (f, i) => if i < 2 ^ 16 then .ok (f, ⟨1, i⟩) else .error .stg020

/-- The maps of facts at their places. -/
def indexesOf (placed : List (Fact × FactRef)) : Indexes := placed.foldl (fun idx p => idx.insert p.1 p.2) .new

def rebuiltIndexes (numFactPages : Nat) : Io C Indexes := do
  let facts ← readAllFromPages postcard.fact crc 1 numFactPages
  let placed ← ofResult (madeUpRefs facts)
  pure (indexesOf placed)

/-- The four maps as trees. -/
def buildMaps (idx : Indexes) : Nat → Io C (Roots × Nat) :=
  chainTrees (buildBtree crc postcard.eavt idx.eavt.entries) (buildBtree crc postcard.aevt idx.aevt.entries)
    (buildBtree crc postcard.avet idx.avet.entries) (buildBtree crc postcard.vaet idx.vaet.entries)

variable [DecidableEq C]

def migrateV5ToV6 (header : FileHeader C) : StoreM H C Unit := do
  let numFactPages ← onDev (validatedFactPages crc header)
  modify fun s => { s with committedFactPages := numFactPages }
  let trusted ← onDev (useOldIndexes crc header numFactPages)
  let idx ← onDev (if trusted then oldIndexes crc blobs header else rebuiltIndexes crc postcard numFactPages)
  let (roots, next) ← onDev (buildMaps crc postcard idx (1 + numFactPages))
  let checksum ← onDev (computePageChecksum crc 1 (next - 1))
  let newHeader : FileHeader C := { FileHeader.new crc with
    pageCount := next
    nodeCount := header.nodeCount
    lastCheckpointedTxCount := header.lastCheckpointedTxCount
    eavtRootPage := roots.eavt
    aevtRootPage := roots.aevt
    avetRootPage := roots.avet
    vaetRootPage := roots.vaet
    indexChecksum := checksum
    factPageCount := numFactPages }
  onDev (writeHeaderPage (newHeader.sealed crc))
  onDev sync
  modify fun s => { s with lastCheckpointedTxCount := header.lastCheckpointedTxCount }
  onFacts setCommittedReader
  onFacts (setCommittedIndexReader roots)
  onFacts (restoreTxCounterFrom header.lastCheckpointedTxCount)
  modify fun s => { s with dirty := false }

end Programs
end Minigraf
