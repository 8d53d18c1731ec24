import Minigraf.Graph.Lookups
import Minigraf.Wal.Run

/-!
The file-backed database handle of `src/db.rs`: opening with WAL replay, writing a
transaction, and checkpoints. Commands are taken after parsing and materializing, which
happen before anything is changed; the time of a transaction and the I/O steps that fail
are inputs.
-/

namespace Minigraf

open EStateM Wal

/-- The fields of `OpenOptions` that reads and writes of files depend on. -/
structure OpenOptions where
  walCheckpointThreshold : Nat
  pageCacheSize : Nat
  synchronous : SyncMode
  deriving DecidableEq, Repr

/-- `Inner` with its `WriteContext::File`, and the WAL file beside the database file. -/
structure Db (H C : Type) where
  store : Store H C
  walFile : Option (List UInt8)
  wal : Option WalWriter
  walEntryCount : Nat
  options : OpenOptions

abbrev DbM (H C : Type) := EStateM ErrorCode (Db H C)

/-- How `WalWriter::delete_file` ends. -/
inductive DeleteFault where
  | none
  /-- The file cannot be removed. -/
  | kept
  /-- The file is removed, then the sync of its directory fails. -/
  | unsynced
  deriving DecidableEq, Repr

/-- The I/O steps of one call that fail. -/
structure Faults where
  walOpen : OpenFault
  walAppend : AppendFault
  walDelete : DeleteFault
  pages : Option Nat

/-- A call in which nothing fails. -/
def Faults.never : Faults := ⟨.none, .none, .none, none⟩

/-- The assertion's marker for "valid from the time of its transaction" (`i64::MIN`). -/
def VALID_FROM_USE_TX_TIME : Int64 := Int64.minValue

/-- A materialized fact under the transaction that writes it. -/
def stamp (txId : TxId) (txCount : UInt64) (f : Fact) : Fact :=
  { f with
    txId := txId
    txCount := txCount
    validFrom :=
      if f.asserted = true ∧ f.validFrom = VALID_FROM_USE_TX_TIME then txId.toInt64 else f.validFrom }

section Programs

variable {H C : Type} (crc : Crc H C) (walCrc : List UInt8 → UInt32) (postcard : Postcard)

def onStore {α : Type} (x : StoreM H C α) : DbM H C α :=
  zoom Db.store (fun store db => { db with store := store }) x

def onFactStorage {α : Type} (x : FactM α) : DbM H C α := onStore (onFacts x)

/-! ## The WAL file -/

/-- The writer, opened where there is none yet. -/
def openWal (fault : OpenFault) : DbM H C Unit := do
  let db ← get
  match db.wal with
  | some _ => pure ()
  | none => do
      let opened := openOrCreate postcard.fact walCrc db.walFile db.options.synchronous fault
      set { db with walFile := some opened.1 }
      let writer ← ofResult opened.2
      modify fun db => { db with wal := some writer }

def appendWal (txCount : UInt64) (facts : List Fact) (fault : AppendFault) : DbM H C Unit := do
  let db ← get
  match db.wal with
  | none => throw .api009
  | some writer => do
      let appended :=
        appendEntry postcard.fact walCrc (db.walFile.getD []) writer txCount facts fault
      set { db with walFile := some appended.1, wal := some appended.2.1 }
      ofResult appended.2.2

/-- `WalWriter::delete_file`. -/
def deleteFile (fault : DeleteFault) : DbM H C Unit :=
  match fault with
  | .none => modify fun db => { db with walFile := none }
  | .kept => throw .wal006
  | .unsynced => do
      modify fun db => { db with walFile := none }
      throw .io

/-- The writer is closed first; a file that is not there is not deleted. -/
def deleteWal (fault : DeleteFault) : DbM H C Unit := do
  modify fun db => { db with wal := none }
  let db ← get
  if db.walFile.isSome then deleteFile fault else pure ()

/-! ## Checkpoints -/

/-- The branch of `do_checkpoint` with nothing to flush. -/
def skipCheckpoint (fault : DeleteFault) : DbM H C Unit := do
  let db ← get
  if db.walFile.isSome then deleteWal fault else pure ()

def doCheckpoint (faults : Faults) : DbM H C Unit := do
  let db ← get
  if db.walEntryCount = 0 ∧ db.store.dirty = false then skipCheckpoint faults.walDelete
  else do
    onStore markDirty
    onStore (save crc postcard)
    deleteWal faults.walDelete
    modify fun db => { db with walEntryCount := 0 }

/-! ## Writing -/

/-- `wal_write_stamped_batch`: whether an automatic checkpoint is due. -/
def walWriteStampedBatch (txCount : UInt64) (facts : List Fact) (faults : Faults) : DbM H C Bool := do
  openWal walCrc postcard faults.walOpen
  appendWal walCrc postcard txCount facts faults.walAppend
  onStore markDirty
  modify fun db => { db with walEntryCount := min (db.walEntryCount + 1) (2 ^ 64 - 1) }
  let db ← get
  pure (decide (db.walEntryCount ≥ db.options.walCheckpointThreshold))

/-- What `execute` and `commit` share: the WAL entry first, then the facts. -/
def writeFacts (facts : List Fact) (txId : TxId) (faults : Faults) : DbM H C Bool := do
  let txCount ← onFactStorage allocateTxCount
  let due ← walWriteStampedBatch walCrc postcard txCount (facts.map (stamp txId txCount)) faults
  let _ ← onFactStorage (loadFacts (facts.map (stamp txId txCount)))
  pure due

/-- `execute_inner` of a `transact` or a `retract`. -/
def execute (facts : List Fact) (txId : TxId) (faults : Faults) : DbM H C Unit := do
  let due ← writeFacts walCrc postcard facts txId faults
  if due then doCheckpoint crc postcard faults else pure ()

/-- `commit_inner`: a transaction without facts does nothing. -/
def commit (facts : List Fact) (txId : TxId) (faults : Faults) : DbM H C Unit :=
  if facts = [] then pure () else execute crc walCrc postcard facts txId faults

/-! ## Opening -/

/-- The loop of `replay_wal`. -/
def replayEntries (lastCheckpointed : UInt64) : List WalEntry → FactM Nat
  | [] => pure 0
  | entry :: entries =>
      if entry.txCount ≤ lastCheckpointed then replayEntries lastCheckpointed entries
      else do
        let _ ← loadFacts entry.facts
        let replayed ← replayEntries lastCheckpointed entries
        pure (replayed + 1)

def replayWal : DbM H C Nat := do
  let db ← get
  match db.walFile with
  | none => pure 0
  | some file => do
      let entries ← ofResult (readEntries postcard.fact walCrc file)
      let replayed ← onFactStorage (replayEntries db.store.lastCheckpointedTxCount entries)
      onFactStorage restoreTxCounter
      pure replayed

/-- The WAL writer is only opened when there is a file. -/
def openWalIfExists (fault : OpenFault) : DbM H C Unit := do
  let db ← get
  if db.walFile.isSome then openWal walCrc postcard fault else pure ()

variable [DecidableEq C] in
/-- `open_with_options_inner`, from the database file and the WAL file as they are. -/
def openWithOptions (faults : Faults) : DbM H C Unit := do
  onStore (openFile crc postcard)
  let replayed ← replayWal walCrc postcard
  modify fun db => { db with walEntryCount := replayed }
  openWalIfExists walCrc postcard faults.walOpen

/-- The backend on the database file, which is created when there is none. -/
def openDev (disk : Option (Disk C)) (capacity : Nat) (faults : Option Nat) : Dev C :=
  match disk with
  | none => Dev.create crc capacity faults
  | some disk => Dev.found disk capacity faults

/-- The state `open_with_options_inner` starts from. -/
def Db.init (disk : Option (Disk C)) (walFile : Option (List UInt8)) (options : OpenOptions)
    (faults : Faults) : Db H C where
  store := .init (openDev crc disk options.pageCacheSize faults.pages)
  walFile := walFile
  wal := none
  walEntryCount := 0
  options := options

/-- The handle before a call in which page writes fail as planned. -/
def Db.withFaults (db : Db H C) (faults : Faults) : Db H C :=
  { db with store := { db.store with dev := { db.store.dev with faults := faults.pages } } }

end Programs
end Minigraf
