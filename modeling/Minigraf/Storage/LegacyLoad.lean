import Minigraf.Storage.Migration
import Minigraf.Storage.Postcard

/-!
Opening a file of an older format: `load` of `src/storage/persistent_facts.rs` by the
version of the file, the reader of the one-fact-per-page formats and `migrate_v1_to_v2`.

These migrations read every fact into memory and save them, and the save writes its pages
from page 1 on, over the pages the facts were read from.
-/

namespace Minigraf

open Bytes EStateM

/-- A fact of version 1, without the fields of a bi-temporal fact. -/
structure FactV1 where
  entity : EntityId
  attr : Attribute
  value : Value
  txId : TxId
  asserted : Bool
  deriving DecidableEq, Repr

/-- Its bi-temporal fact: valid from the time of its transaction on. -/
def FactV1.migrated (v1 : FactV1) (txCount : UInt64) : Fact where
  entity := v1.entity
  attr := v1.attr
  value := v1.value
  txId := v1.txId
  txCount := txCount
  validFrom := v1.txId.toInt64
  validTo := VALID_TIME_FOREVER
  asserted := v1.asserted

theorem FactV1.migrated_inj {a b : FactV1} {c c' : UInt64} (same : a.migrated c = b.migrated c') : a = b := by
  cases a
  cases b
  simp only [FactV1.migrated, Fact.mk.injEq] at same
  obtain ⟨rfl, rfl, rfl, rfl, -, -, -, rfl⟩ := same
  rfl

/-- `sort_by_key(|f| f.tx_id)`, which is stable. -/
def sortByTxId (facts : List FactV1) : List FactV1 := facts.mergeSort fun a b => decide (a.txId ≤ b.txId)

/-- The loop that counts transactions: a new number where the time changes. -/
def assignTxCounts (txCount : UInt64) (prevTxId : Option TxId) : List FactV1 → List Fact
  | [] => []
  | v1 :: facts =>
      if prevTxId ≠ some v1.txId then
        v1.migrated (nextTxCount txCount) :: assignTxCounts (nextTxCount txCount) (some v1.txId) facts
      else v1.migrated txCount :: assignTxCounts txCount prevTxId facts

section Programs

variable {H C : Type} (crc : Crc H C) (postcard : Postcard) (v1 : Codec FactV1) (blobs : BlobCodecs)

/-- The loop of `load_one_per_page_legacy` from page `id` on: a page that does not decode is
skipped. -/
def loadOnePerPageLegacy (id : Nat) : Nat → StoreM H C Unit
  | 0 => pure ()
  | n + 1 => do
      let page ← onDev (readPage crc id)
      match postcard.fact.decode page.val with
      | some fact => do
          let _ ← onFacts (loadFact fact)
          loadOnePerPageLegacy (id + 1) n
      | none => loadOnePerPageLegacy (id + 1) n

def readV1Facts (id : Nat) : Nat → Io C (List FactV1)
  | 0 => pure []
  | n + 1 => do
      let page ← readPage crc id
      let facts ← readV1Facts (id + 1) n
      pure ((v1.decode page.val).toList ++ facts)

def loadEach : List Fact → FactM Unit
  | [] => pure ()
  | fact :: facts => do
      let _ ← loadFact fact
      loadEach facts

variable [DecidableEq C]

/-- How both migrations end. -/
def saveLoaded : StoreM H C Unit := do
  onFacts restoreTxCounter
  markDirty
  save crc postcard

def migrateV1ToV2 : StoreM H C Unit := do
  let header ← onDev (readHeader crc)
  let v1Facts ← onDev (readV1Facts crc v1 1 (header.pageCount - 1))
  onFacts clear
  onFacts (loadEach (assignTxCounts 0 none (sortByTxId v1Facts)))
  saveLoaded crc postcard

/-- `load` by the version of the file. Up to version 4 a file has one fact a page. -/
def loadVersion (version : Nat) : StoreM H C Unit :=
  if version ≥ 6 then load crc postcard
  else do
    let header ← onDev (readHeader crc)
    let _ ← ofResult header.validate
    if version < 2 then migrateV1ToV2 crc postcard v1
    else if version = 5 then migrateV5ToV6 crc postcard blobs header
    else do
      modify fun s => { s with lastCheckpointedTxCount := header.lastCheckpointedTxCount }
      onFacts clear
      loadOnePerPageLegacy crc postcard 1 (header.pageCount - 1)
      saveLoaded crc postcard

/-- A file that was there is opened. -/
def openVersion (version : Nat) : StoreM H C Unit := do
  let s ← get
  let _ ← ofResult s.dev.header.validate
  loadVersion crc postcard v1 blobs version

end Programs

/-- The version of a file that was `legacy` and may have been saved since. A header that a
save writes is of version 7 and counts at least one fact page; one of version 4 or below is
read with none, and keeps its version where it only grows. -/
def Disk.version {C : Type} (legacy : Nat) (d : Disk C) : Nat := if d.header.factPageCount = 0 then legacy else 7

end Minigraf
