import Minigraf.Db.Calls
import Minigraf.Storage.Postcard

/-!
Runs of a file-backed database: a process opens the files, writes, checkpoints and dies,
with every I/O step free to fail. The transactions that were attempted, and which of them
reached the log and the memory, are kept beside the state and only read by statements. A
process that dies inside a call is a call that fails and a crash behind it.
-/

namespace Minigraf

open EStateM Wal

/-- The process is down and leaves its files, or it is up with an open handle. -/
inductive Process (H C : Type) where
  | down (disk : Option (Disk C)) (walFile : Option (List UInt8))
  | up (db : Db H C)

structure World (H C : Type) where
  process : Process H C
  /-- The transactions with facts, in order; acknowledged when logged and in memory. -/
  attempts : List Attempt
  /-- A save of the open handle has failed. -/
  halted : Bool

inductive DbOp where
  | openWithOptions (options : OpenOptions) (faults : Faults)
  | execute (facts : Vec Fact) (txId : TxId) (faults : Faults)
  | commit (facts : Vec Fact) (txId : TxId) (faults : Faults)
  | checkpoint (faults : Faults)
  | crash

/-- The files as they are found when the process dies. -/
def Process.files {H C : Type} : Process H C → Option (Disk C) × Option (List UInt8)
  | .down disk walFile => (disk, walFile)
  | .up db => (some db.store.dev.disk, db.walFile)

def World.start {H C : Type} : World H C := ⟨.down none none, [], false⟩

/-- What is recorded of a write: nothing where there are no facts. -/
def attemptOf (entry : WalEntry) (acked : Bool) : List Attempt :=
  if entry.facts = [] then [] else [⟨entry, acked⟩]

section Steps

variable {H C : Type} (crc : Crc H C) (walCrc : List UInt8 → UInt32) (postcard : Postcard)

/-- `do_checkpoint` on the open handle. -/
def World.checkpoint (w : World H C) (db : Db H C) (faults : Faults) : World H C :=
  match doCheckpoint crc postcard faults db with
  | .ok _ t => { w with process := .up t }
  | .error _ t => { w with process := .up t, halted := w.halted || t.store.dirty }

/-- `execute` on the open handle: the write and the checkpoint it may trigger. -/
def World.write (w : World H C) (db : Db H C) (facts : List Fact) (txId : TxId) (faults : Faults) :
    World H C :=
  match writeFacts walCrc postcard facts txId faults db with
  | .ok due t =>
      let w := { w with
        process := .up t
        attempts := w.attempts ++ attemptOf (db.entry facts txId) true }
      if due then w.checkpoint crc postcard t faults else w
  | .error _ t =>
      { w with
        process := .up t
        attempts := w.attempts ++ attemptOf (db.entry facts txId) false }

variable [DecidableEq C]

def World.open (w : World H C) (disk : Option (Disk C)) (walFile : Option (List UInt8))
    (options : OpenOptions) (faults : Faults) : World H C :=
  match openWithOptions crc walCrc postcard faults (Db.init crc disk walFile options faults) with
  | .ok _ t => { w with process := .up t, halted := false }
  | .error _ t => { w with process := .down (some t.store.dev.disk) t.walFile }

/-- A call needs the process up, an open needs it down; otherwise nothing happens. -/
def World.step (w : World H C) (op : DbOp) : World H C :=
  match op, w.process with
  | .openWithOptions options faults, .down disk walFile =>
      w.open crc walCrc postcard disk walFile options faults
  | .execute facts txId faults, .up db =>
      w.write crc walCrc postcard (db.withFaults faults) facts.val txId faults
  | .commit facts txId faults, .up db =>
      if facts.val = [] then { w with process := .up (db.withFaults faults) }
      else w.write crc walCrc postcard (db.withFaults faults) facts.val txId faults
  | .checkpoint faults, .up db => w.checkpoint crc postcard (db.withFaults faults) faults
  | .crash, .up db => { w with process := .down (some db.store.dev.disk) db.walFile }
  | _, _ => w

/-- Steps that meet a condition, one after the other. -/
inductive Run (allowed : World H C → DbOp → Prop) (w : World H C) : World H C → Prop
  | refl : Run allowed w w
  | step {t : World H C} (earlier : Run allowed w t) (op : DbOp) (here : allowed t op) :
      Run allowed w (t.step crc walCrc postcard op)

variable {crc walCrc postcard} in
/-- What every step preserves holds all along a run. -/
theorem Run.invariant {allowed : World H C → DbOp → Prop} {P : World H C → Prop} {w t : World H C}
    (run : Run crc walCrc postcard allowed w t) (start : P w)
    (step : ∀ u op, P u → allowed u op → P (u.step crc walCrc postcard op)) : P t := by
  induction run with
  | refl => exact start
  | step _ op here ih => exact step _ op ih here

variable {crc walCrc postcard} {w : World H C} {db t : Db H C} {faults : Faults}

theorem World.step_execute {facts : Vec Fact} {txId : TxId} (up : w.process = .up db)
    (calm : db.withFaults faults = db)
    (run : writeFacts walCrc postcard facts.val txId faults db = .ok false t) :
    w.step crc walCrc postcard (.execute facts txId faults) =
      { w with process := .up t, attempts := w.attempts ++ attemptOf (db.entry facts.val txId) true } := by
  obtain ⟨process, attempts, halted⟩ := w
  subst up
  simp only [World.step, calm, World.write, run]
  rfl

theorem World.step_checkpoint {e : ErrorCode} (up : w.process = .up db)
    (run : doCheckpoint crc postcard faults (db.withFaults faults) = .error e t) :
    w.step crc walCrc postcard (.checkpoint faults) =
      { w with process := .up t, halted := w.halted || t.store.dirty } := by
  obtain ⟨process, attempts, halted⟩ := w
  subst up
  simp only [World.step, World.checkpoint, run]

end Steps

/-! ## Conditions on steps -/

section Conditions

variable {H C : Type} (crc : Crc H C) (walCrc : List UInt8 → UInt32) (postcard : Postcard)

/-- No transaction has facts on two pages. -/
def Unsplit (groups : List (List Fact)) : Prop :=
  groups.Pairwise fun g g' => ∀ f ∈ g, ∀ f' ∈ g', f.txCount ≠ f'.txCount

/-- A checkpoint may be cut short anywhere: the index entries of the pending facts fit the
pages, and where the file has no fact pages yet, no transaction is split over two. -/
structure Db.Ready (db : Db H C) : Prop where
  fits : IndexFits postcard (db.store.pendingAt postcard)
  unsplit : db.store.committedFactPages = 0 → Unsplit (packGroups postcard.fact db.store.storage.facts)

/-- The counter has room for another transaction. -/
def Db.Countable (db : Db H C) : Prop := db.store.storage.txCounter.toNat + 1 < 2 ^ 64

/-- A write can be counted, and the checkpoint it may trigger is ready. -/
structure World.Writes (w : World H C) (db : Db H C) (facts : List Fact) (txId : TxId)
    (faults : Faults) : Prop where
  count : db.Countable
  ready : ∀ t, writeFacts walCrc postcard facts txId faults db = .ok true t →
    w.halted = false ∧ t.Ready postcard

variable [DecidableEq C]

/-- A checksum that matches vouches for the pages under it. -/
def Vouched (d : Disk C) : Prop := ∀ placed, d.Sound crc postcard placed → d.Trusted crc postcard placed

variable {crc} in
theorem Crc.Collisionless.vouched (h : crc.Collisionless) (d : Disk C) : Vouched crc postcard d :=
  fun _ sound => sound.trusted h

/-- The steps after which nothing is lost. No checkpoint follows on one whose save failed. -/
def World.Allows (w : World H C) (op : DbOp) : Prop :=
  match op, w.process with
  | .openWithOptions _ _, .down disk _ => Vouched crc postcard (diskOf crc disk)
  | .execute facts txId faults, .up db =>
      w.Writes walCrc postcard (db.withFaults faults) facts.val txId faults
  | .commit facts txId faults, .up db =>
      w.Writes walCrc postcard (db.withFaults faults) facts.val txId faults
  | .checkpoint _, .up db => w.halted = false ∧ db.Ready postcard
  | _, _ => True

/-- The steps in which no entry is left in the log that was not acknowledged: no append
stops part way, and the facts find a place in memory. -/
def World.Intact (w : World H C) (op : DbOp) : Prop :=
  match op, w.process with
  | .execute facts _ faults, .up db | .commit facts _ faults, .up db =>
      faults.walAppend = .none ∧ db.store.storage.facts.length + facts.val.length ≤ 2 ^ 32
  | _, _ => True

end Conditions

/-! ## New files -/

section Fresh

/-- A handle on new files that checkpoints once the log has `threshold` entries. -/
def Db.fresh (threshold : Nat) : Db (List UInt8) (List UInt8) :=
  Db.init Crc.lossless none none ⟨threshold, 64, .full⟩ .never

def World.fresh (threshold : Nat) : World (List UInt8) (List UInt8) := ⟨.up (Db.fresh threshold), [], false⟩

theorem World.fresh_run (threshold : Nat)
    {allowed : World (List UInt8) (List UInt8) → DbOp → Prop}
    (here : allowed World.start (.openWithOptions ⟨threshold, 64, .full⟩ .never)) :
    Run Crc.lossless crc32 Postcard.standard allowed World.start (World.fresh threshold) :=
  Run.step .refl (.openWithOptions ⟨threshold, 64, .full⟩ .never) here

/-- One fact, as a command leaves it. -/
def oneFact : Fact :=
  ⟨0, ":a", .integer 1, 0, 0, VALID_FROM_USE_TX_TIME, VALID_TIME_FOREVER, true⟩

end Fresh
end Minigraf
