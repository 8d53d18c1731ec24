import Mathlib.Data.List.Forall2
import Minigraf.Wal.Format

/-!
Runs of the WAL writer of `src/wal.rs`: reopening, appending and crashing, with
every step free to fail part way. The file outlives the writer; the log of what
was attempted, and which attempts were acknowledged, outlives both and is only
read by the statements below.
-/

namespace Minigraf
namespace Wal

open Bytes

/-- `SyncMode` of `src/db.rs`. -/
inductive SyncMode where
  | full
  | normal
  deriving DecidableEq, Repr

/-- The open file's cursor, the sync mode and the sticky failure flag. -/
structure WalWriter where
  pos : Nat
  syncMode : SyncMode
  failed : Bool
  deriving DecidableEq, Repr

/-- How far `open_or_create` gets before it fails or the process dies. -/
inductive OpenFault where
  | none
  /-- The header write stops after `n` bytes. -/
  | headerTorn (n : Nat)
  /-- The open stops before the tail is cut. -/
  | beforeCut
  /-- The open stops after the tail is cut. -/
  | afterCut

/-- How far the write of an entry gets. -/
inductive AppendFault where
  | none
  /-- The write stops after `n` bytes. -/
  | torn (n : Nat)
  /-- The entry is written whole, then the sync fails. -/
  | sync

section Writer

variable (postcard : Codec Fact) (crc : List UInt8 → UInt32)

/-- `validate_wal_header`, on a file of at least `WAL_HEADER_SIZE` bytes. -/
def validateWalHeader (file : List UInt8) : Except ErrorCode Unit :=
  if file.take 4 ≠ WAL_MAGIC then throw .wal001
  else if leNat ((file.drop 4).take 4) ≠ WAL_VERSION then throw .wal002
  else pure ()

/-- `write_wal_header`: the file afterwards. -/
def writeWalHeader (file : List UInt8) (fault : OpenFault) : List UInt8 :=
  match fault with
  | .headerTorn n => writeAt file 0 (walHeader.take n)
  | _ => writeAt file 0 walHeader

/-- The branches of `open_or_create` for a new file and for one whose creation was
cut short: write the header and seek to the end. -/
def createWal (file : List UInt8) (mode : SyncMode) (fault : OpenFault) :
    List UInt8 × Except ErrorCode WalWriter :=
  let file := writeWalHeader file fault
  match fault with
  | .none => (file, .ok ⟨file.length, mode, false⟩)
  | _ => (file, .error .io)

/-- `WalWriter::open_or_create`: the file afterwards and the writer, unless the open
failed. -/
def openOrCreate (file : Option (List UInt8)) (mode : SyncMode) (fault : OpenFault) :
    List UInt8 × Except ErrorCode WalWriter :=
  match file with
  | none => createWal [] mode fault
  | some file =>
      if file.length < WAL_HEADER_SIZE then createWal file mode fault
      else
        match validateWalHeader file with
        | .error e => (file, .error e)
        | .ok () =>
            let validEnd := (scanEntries postcard crc file).2
            let cut := if file.length > validEnd then file.take validEnd else file
            match fault with
            | .none => (cut, .ok ⟨cut.length, mode, false⟩)
            | .afterCut => (cut, .error .io)
            | _ => (file, .error .io)

/-- `WalReader::open` and then `read_entries`: a file too short for a header is not
validated, since there is nothing in it to replay. -/
def readEntries (file : List UInt8) : Except ErrorCode (List WalEntry) := do
  if file.length ≥ WAL_HEADER_SIZE then validateWalHeader file
  pure (scanEntries postcard crc file).1

/-- `write_entry`: the file, the cursor and whether the call succeeded. -/
def writeEntry (file : List UInt8) (w : WalWriter) (bytes : List UInt8) (fault : AppendFault) :
    List UInt8 × WalWriter × Except ErrorCode Unit :=
  match fault with
  | .torn n =>
      (writeAt file w.pos (bytes.take n), { w with pos := w.pos + (bytes.take n).length },
        .error .io)
  | .none => (writeAt file w.pos bytes, { w with pos := w.pos + bytes.length }, .ok ())
  | .sync =>
      (writeAt file w.pos bytes, { w with pos := w.pos + bytes.length },
        match w.syncMode with
        | .full => .error .io
        | .normal => .ok ())

/-- `WalWriter::append_entry`. -/
def appendEntry (file : List UInt8) (w : WalWriter) (txCount : UInt64) (facts : List Fact)
    (fault : AppendFault) : List UInt8 × WalWriter × Except ErrorCode Unit :=
  if w.failed then (file, w, .error .wal007)
  else
    match serializeEntry postcard crc txCount facts with
    | .error e => (file, w, .error e)
    | .ok bytes =>
        match writeEntry file w bytes fault with
        | (file, w, .ok ()) => (file, w, .ok ())
        | (file, w, .error e) => (file, { w with failed := true }, .error e)

/-! ## Runs -/

/-- One call of `append_entry` and whether it returned `Ok`. -/
structure Attempt where
  entry : WalEntry
  acked : Bool
  deriving DecidableEq, Repr

structure WalState where
  file : Option (List UInt8)
  writer : Option WalWriter
  attempts : List Attempt

inductive WalOp where
  | openOrCreate (mode : SyncMode) (fault : OpenFault)
  | append (txCount : UInt64) (facts : Vec Fact) (fault : AppendFault)
  /-- The process dies: the writer is gone, the file stays. -/
  | crash

def WalState.start : WalState := ⟨none, none, []⟩

def WalState.step (s : WalState) : WalOp → WalState
  | .openOrCreate mode fault =>
      let (file, writer) := Wal.openOrCreate postcard crc s.file mode fault
      { s with file := some file, writer := writer.toOption }
  | .append txCount facts fault =>
      match s.file, s.writer with
      | some file, some w =>
          let (file, w, result) := appendEntry postcard crc file w txCount facts.val fault
          { file := some file
            writer := some w
            attempts := s.attempts ++ [⟨⟨txCount, facts.val⟩, result.isOk⟩] }
      | _, _ => s
  | .crash => { s with writer := none }

def WalState.run (ops : List WalOp) : WalState :=
  ops.foldl (WalState.step postcard crc) WalState.start

/-! ## The invariant -/

/-- What the file and the writer look like when the file holds `stored`: no file, a
header cut short, or a header with the stored entries and at most one torn entry
behind them. A writer stands at the end, and behind whole entries unless it failed. -/
inductive Holds (stored : List WalEntry) : Option (List UInt8) → Option WalWriter → Prop
  | absent (empty : stored = []) : Holds stored none none
  | short (empty : stored = []) (n : Nat) (cut : n < WAL_HEADER_SIZE) :
      Holds stored (some (walHeader.take n)) none
  | entries (encodings : List (List UInt8)) (tail : List UInt8) (writer : Option WalWriter)
      (whole : List.Forall₂ (Encodes postcard crc) stored encodings)
      (torn : TornTail postcard crc tail)
      (ready : ∀ w ∈ writer, w.pos = (walHeader ++ (encodings.flatten ++ tail)).length ∧
        (w.failed = false → tail = [])) :
      Holds stored (some (walHeader ++ (encodings.flatten ++ tail))) writer

theorem Holds.scan {stored : List WalEntry} {file : List UInt8} {writer : Option WalWriter}
    (h : Holds postcard crc stored (some file) writer) :
    (scanEntries postcard crc file).1 = stored := by
  cases h with
  | short empty n cut =>
      rw [scanEntries_short, empty]
      rw [List.length_take, length_walHeader]
      omega
  | entries encodings tail _ whole torn _ =>
      rw [scanEntries_file postcard crc whole torn]

theorem Holds.crash {stored : List WalEntry} {file : Option (List UInt8)}
    {writer : Option WalWriter} (h : Holds postcard crc stored file writer) :
    Holds postcard crc stored file none := by
  cases h with
  | absent empty => exact .absent empty
  | short empty n cut => exact .short empty n cut
  | entries encodings tail _ whole torn _ =>
      exact .entries encodings tail none whole torn (by simp)

/-- A header, whole or cut short, behind which nothing was ever written. -/
theorem Holds.of_header_take (n : Nat) :
    Holds postcard crc [] (some (walHeader.take n)) none := by
  by_cases cut : n < WAL_HEADER_SIZE
  · exact .short rfl n cut
  · have whole : walHeader.take n = walHeader ++ ([].flatten ++ []) := by
      rw [List.take_of_length_le (by rw [length_walHeader]; omega)]
      simp
    rw [whole]
    exact .entries [] [] none .nil (.inl rfl) (by simp)

theorem writeAt_header_take (m n : Nat) :
    writeAt (walHeader.take m) 0 (walHeader.take n) = walHeader.take (max m n) := by
  have widths : (walHeader.take n).length = min n WAL_HEADER_SIZE := by
    rw [List.length_take, length_walHeader]
  simp only [writeAt, List.take_zero, List.nil_append, Nat.zero_add, widths]
  by_cases h : n ≤ WAL_HEADER_SIZE
  · rw [Nat.min_eq_left h, List.drop_take, ← List.take_add]
    congr 1
    omega
  · rw [Nat.min_eq_right (by omega), List.drop_of_length_le, List.append_nil,
      List.take_of_length_le, List.take_of_length_le] <;>
    simp only [List.length_take, length_walHeader] <;> omega

theorem writeWalHeader_take (m : Nat) (fault : OpenFault) :
    ∃ n, writeWalHeader (walHeader.take m) fault = walHeader.take n ∧
      (fault = .none → WAL_HEADER_SIZE ≤ n) := by
  have whole : walHeader = walHeader.take WAL_HEADER_SIZE := by decide
  cases fault with
  | headerTorn n => exact ⟨max m n, writeAt_header_take m n, nofun⟩
  | none | beforeCut | afterCut =>
      refine ⟨max m WAL_HEADER_SIZE, ?_, fun _ => by omega⟩
      rw [← writeAt_header_take, ← whole]
      rfl

theorem Holds.createWal (m : Nat) (mode : SyncMode) (fault : OpenFault) :
    Holds postcard crc [] (some (Wal.createWal (walHeader.take m) mode fault).1)
      (Wal.createWal (walHeader.take m) mode fault).2.toOption := by
  obtain ⟨n, hn, full⟩ := writeWalHeader_take m fault
  simp only [Wal.createWal, hn]
  cases fault with
  | none =>
      have whole : walHeader.take n = walHeader ++ ([].flatten ++ []) := by
        rw [List.take_of_length_le (by rw [length_walHeader]; exact full rfl)]
        simp
      rw [whole]
      refine .entries [] [] _ .nil (.inl rfl) ?_
      intro w hw
      cases hw
      exact ⟨rfl, fun _ => rfl⟩
  | headerTorn _ | beforeCut | afterCut => exact .of_header_take postcard crc n

theorem validateWalHeader_header (rest : List UInt8) :
    validateWalHeader (walHeader ++ rest) = .ok () := by
  have magic : (walHeader ++ rest).take 4 = WAL_MAGIC := by
    rw [List.take_append_of_le_length (by decide)]; decide
  have version : leNat (((walHeader ++ rest).drop 4).take 4) = WAL_VERSION := by
    rw [List.drop_append_of_le_length (by decide), List.take_append_of_le_length (by decide)]
    decide
  simp only [validateWalHeader, magic, version, ne_eq, not_true_eq_false, if_false]
  rfl

/-- A log the invariant describes is never refused by the reader. -/
theorem Holds.readEntries {stored : List WalEntry} {file : List UInt8}
    {writer : Option WalWriter} (h : Holds postcard crc stored (some file) writer) :
    Wal.readEntries postcard crc file = .ok stored := by
  have scanned := h.scan postcard crc
  simp only [Wal.readEntries, scanned]
  cases h with
  | short empty n cut =>
      have isShort : ¬ (walHeader.take n).length ≥ WAL_HEADER_SIZE := by
        rw [List.length_take, length_walHeader]
        omega
      rw [if_neg isShort]
      rfl
  | entries encodings tail _ _ _ _ =>
      rw [validateWalHeader_header]
      split <;> rfl

/-- Reopening keeps the stored entries, and a writer it returns stands behind whole
entries: the torn tail, if any, is cut off first. -/
theorem Holds.openOrCreate {stored : List WalEntry} {file : Option (List UInt8)}
    {writer : Option WalWriter} (h : Holds postcard crc stored file writer) (mode : SyncMode)
    (fault : OpenFault) :
    Holds postcard crc stored (some (Wal.openOrCreate postcard crc file mode fault).1)
      (Wal.openOrCreate postcard crc file mode fault).2.toOption := by
  cases h with
  | absent empty =>
      subst empty
      exact .createWal postcard crc 0 mode fault
  | short empty n cut =>
      subst empty
      have isShort : (walHeader.take n).length < WAL_HEADER_SIZE := by
        rw [List.length_take, length_walHeader]
        omega
      simp only [Wal.openOrCreate, if_pos isShort]
      exact .createWal postcard crc n mode fault
  | entries encodings tail writer whole torn ready =>
      have present : ¬ (walHeader ++ (encodings.flatten ++ tail)).length < WAL_HEADER_SIZE := by
        rw [List.length_append, length_walHeader]
        omega
      -- Either way the file ends where its whole entries end.
      have cut : (if (walHeader ++ (encodings.flatten ++ tail)).length >
            (walHeader ++ encodings.flatten).length then
          (walHeader ++ (encodings.flatten ++ tail)).take (walHeader ++ encodings.flatten).length
          else walHeader ++ (encodings.flatten ++ tail)) =
          walHeader ++ (encodings.flatten ++ []) := by
        rw [← List.append_assoc, List.append_nil]
        split
        · rw [List.take_left]
        · rename_i long
          rw [List.length_append] at long
          rw [List.length_eq_zero_iff.mp (by omega : tail.length = 0), List.append_nil]
      simp only [Wal.openOrCreate, if_neg present, validateWalHeader_header,
        scanEntries_file postcard crc whole torn, cut]
      cases fault with
      | none =>
          refine .entries encodings [] _ whole (.inl rfl) ?_
          intro w hw
          cases hw
          exact ⟨rfl, fun _ => rfl⟩
      | afterCut => exact .entries encodings [] none whole (.inl rfl) (by simp)
      | headerTorn _ | beforeCut => exact .entries encodings tail none whole torn (by simp)

/-- Without a fault a log the invariant describes is opened. -/
theorem Holds.openOrCreate_ok {stored : List WalEntry} {file : Option (List UInt8)}
    {writer : Option WalWriter} (h : Holds postcard crc stored file writer) (mode : SyncMode) :
    ∃ w, (Wal.openOrCreate postcard crc file mode .none).2 = .ok w := by
  cases h with
  | absent _ => exact ⟨_, rfl⟩
  | short _ n cut =>
      have isShort : (walHeader.take n).length < WAL_HEADER_SIZE := by
        rw [List.length_take, length_walHeader]
        omega
      simp only [Wal.openOrCreate, if_pos isShort, Wal.createWal]
      exact ⟨_, rfl⟩
  | entries encodings tail _ _ _ _ =>
      have present : ¬ (walHeader ++ (encodings.flatten ++ tail)).length < WAL_HEADER_SIZE := by
        rw [List.length_append, length_walHeader]
        omega
      simp only [Wal.openOrCreate, if_neg present, validateWalHeader_header]
      exact ⟨_, rfl⟩

/-- Writing at the end of a buffer appends. -/
theorem writeAt_end (buf bytes : List UInt8) : writeAt buf buf.length bytes = buf ++ bytes := by
  rw [writeAt, List.take_length, List.drop_of_length_le (by omega), List.append_nil]

/-- An entry written at the end stands behind the stored ones, whole or torn. -/
theorem Holds.append_bytes {stored : List WalEntry} {encodings : List (List UInt8)}
    (whole : List.Forall₂ (Encodes postcard crc) stored encodings) {entry : WalEntry}
    {bytes : List UInt8} (encoded : Encodes postcard crc entry bytes) (n : Nat) (w : WalWriter)
    (atEnd : w.pos = (walHeader ++ (encodings.flatten ++ bytes.take n)).length)
    (clean : w.failed = false → bytes.length ≤ n) :
    ∃ kept, (kept = [] ∨ kept = [entry]) ∧ (bytes.length ≤ n → kept = [entry]) ∧
      Holds postcard crc (stored ++ kept)
        (some (walHeader ++ (encodings.flatten ++ bytes.take n))) (some w) := by
  by_cases all : bytes.length ≤ n
  · have appended :
        List.Forall₂ (Encodes postcard crc) (stored ++ [entry]) (encodings ++ [bytes]) :=
      List.rel_append whole (.cons encoded .nil)
    have layout : encodings.flatten ++ bytes.take n = (encodings ++ [bytes]).flatten ++ [] := by
      rw [List.take_of_length_le all]
      simp
    rw [layout] at atEnd ⊢
    refine ⟨[entry], .inr rfl, fun _ => rfl, .entries _ [] _ appended (.inl rfl) ?_⟩
    intro w' hw
    cases hw
    exact ⟨atEnd, fun _ => rfl⟩
  · have torn : TornTail postcard crc (bytes.take n) := by
      refine .inr ⟨entry, bytes, bytes.drop n, encoded, (List.take_append_drop n bytes).symm, ?_⟩
      rw [ne_eq, List.drop_eq_nil_iff]
      exact all
    refine ⟨[], .inl rfl, fun h => absurd h all, ?_⟩
    rw [List.append_nil]
    refine .entries encodings _ _ whole torn ?_
    intro w' hw
    cases hw
    exact ⟨atEnd, fun ok => absurd (clean ok) all⟩

/-- What `write_entry` does: some first bytes of the entry reach the file, all of them
when it succeeds. -/
theorem writeEntry_cases (file : List UInt8) (w : WalWriter) (bytes : List UInt8)
    (fault : AppendFault) :
    ∃ n result, writeEntry file w bytes fault =
        (writeAt file w.pos (bytes.take n), { w with pos := w.pos + (bytes.take n).length },
          result) ∧
      (result.isOk → bytes.length ≤ n) := by
  cases fault with
  | torn n => exact ⟨n, .error .io, rfl, nofun⟩
  | none =>
      refine ⟨bytes.length, .ok (), ?_, fun _ => le_rfl⟩
      rw [List.take_length, writeEntry]
  | sync =>
      refine ⟨bytes.length, (writeEntry file w bytes .sync).2.2, ?_, fun _ => le_rfl⟩
      rw [List.take_length, writeEntry]

/-- What `append_entry` does to the stored entries: an acknowledged entry is stored
behind them, a failed one is stored whole or not at all. -/
theorem Holds.appendEntry {stored : List WalEntry} {file : List UInt8} {w : WalWriter}
    (h : Holds postcard crc stored (some file) (some w)) (txCount : UInt64) (facts : Vec Fact)
    (fault : AppendFault) {file' : List UInt8} {w' : WalWriter} {result : Except ErrorCode Unit}
    (happend : Wal.appendEntry postcard crc file w txCount facts.val fault =
      (file', w', result)) :
    ∃ kept, (kept = [] ∨ kept = [⟨txCount, facts.val⟩]) ∧
      (result.isOk → kept = [⟨txCount, facts.val⟩]) ∧
      Holds postcard crc (stored ++ kept) (some file') (some w') := by
  simp only [Wal.appendEntry] at happend
  split at happend
  · cases happend
    exact ⟨[], .inl rfl, nofun, by rwa [List.append_nil]⟩
  · rename_i working
    split at happend
    · cases happend
      exact ⟨[], .inl rfl, nofun, by rwa [List.append_nil]⟩
    · rename_i bytes hbytes
      cases h with
      | entries encodings tail _ whole torn ready =>
          obtain ⟨atEnd, clean⟩ := ready w rfl
          have noTail : tail = [] := clean (by simpa using working)
          subst noTail
          have encoded : Encodes postcard crc ⟨txCount, facts.val⟩ bytes :=
            ⟨facts.property, hbytes⟩
          obtain ⟨n, result', hwrite, full⟩ :=
            writeEntry_cases (walHeader ++ (encodings.flatten ++ [])) w bytes fault
          have written : writeAt (walHeader ++ (encodings.flatten ++ [])) w.pos (bytes.take n) =
              walHeader ++ (encodings.flatten ++ bytes.take n) := by
            rw [atEnd, writeAt_end, List.append_nil, List.append_assoc]
          have moved : w.pos + (bytes.take n).length =
              (walHeader ++ (encodings.flatten ++ bytes.take n)).length := by
            rw [atEnd]
            simp only [List.append_nil, List.length_append]
            omega
          rw [hwrite, written] at happend
          cases result' with
          | ok done =>
              cases happend
              obtain ⟨kept, hkept, hall, hholds⟩ := Holds.append_bytes postcard crc whole encoded n
                { w with pos := w.pos + (bytes.take n).length } moved (fun _ => full rfl)
              exact ⟨kept, hkept, fun _ => hall (full rfl), hholds⟩
          | error e =>
              cases happend
              obtain ⟨kept, hkept, hall, hholds⟩ := Holds.append_bytes postcard crc whole encoded n
                { w with pos := w.pos + (bytes.take n).length, failed := true } moved nofun
              exact ⟨kept, hkept, nofun, hholds⟩

/-! ## Whole runs -/

/-- The entries of `kept` are what the file holds, in the order of their appends, and
every acknowledged append is among them. -/
structure WalState.Durable (s : WalState) (kept : List Attempt) : Prop where
  holds : Holds postcard crc (kept.map Attempt.entry) s.file s.writer
  inOrder : kept.Sublist s.attempts
  acked : kept.filter Attempt.acked = s.attempts.filter Attempt.acked

theorem WalState.Durable.step {s : WalState} {kept : List Attempt}
    (h : s.Durable postcard crc kept) (op : WalOp) :
    ∃ kept', (s.step postcard crc op).Durable postcard crc kept' := by
  cases op with
  | openOrCreate mode fault =>
      exact ⟨kept, h.holds.openOrCreate postcard crc mode fault, h.inOrder, h.acked⟩
  | crash => exact ⟨kept, h.holds.crash postcard crc, h.inOrder, h.acked⟩
  | append txCount facts fault =>
      obtain ⟨file, writer, attempts⟩ := s
      cases file with
      | none => exact ⟨kept, h⟩
      | some file =>
          cases writer with
          | none => exact ⟨kept, h⟩
          | some w =>
              rcases happend : Wal.appendEntry postcard crc file w txCount facts.val fault with
                ⟨file', w', result⟩
              obtain ⟨added, hadded, hack, hholds⟩ :=
                Holds.appendEntry postcard crc h.holds txCount facts fault happend
              have stepped : (WalState.step postcard crc ⟨some file, some w, attempts⟩
                  (.append txCount facts fault)) =
                  ⟨some file', some w',
                    attempts ++ [⟨⟨txCount, facts.val⟩, result.isOk⟩]⟩ := by
                simp only [WalState.step, happend]
              rw [stepped]
              obtain rfl | rfl := hadded
              · -- The entry is not in the file, so it was not acknowledged.
                have refused : result.isOk = false := by
                  by_contra acked
                  exact absurd (hack (by simpa using acked)) (by simp)
                refine ⟨kept, by simpa using hholds, h.inOrder.trans (List.sublist_append_left _ _),
                  ?_⟩
                rw [List.filter_append, ← h.acked]
                simp [refused]
              · refine ⟨kept ++ [⟨⟨txCount, facts.val⟩, result.isOk⟩], by simpa using hholds,
                  h.inOrder.append (List.Sublist.refl _), ?_⟩
                rw [List.filter_append, List.filter_append, h.acked]

theorem WalState.durable_foldl (ops : List WalOp) {s : WalState} {kept : List Attempt}
    (h : s.Durable postcard crc kept) :
    ∃ kept', (ops.foldl (WalState.step postcard crc) s).Durable postcard crc kept' := by
  induction ops generalizing s kept with
  | nil => exact ⟨kept, h⟩
  | cons op ops ih =>
      obtain ⟨kept', h'⟩ := h.step postcard crc op
      exact ih h'

/-- After any run, the log is scanned as the appended entries in append order, with
every acknowledged one among them and each failed one whole or absent. -/
theorem WalState.scanEntries_run (ops : List WalOp) :
    ∃ kept : List Attempt,
      kept.Sublist (WalState.run postcard crc ops).attempts ∧
      kept.filter Attempt.acked =
        (WalState.run postcard crc ops).attempts.filter Attempt.acked ∧
      ∀ file, (WalState.run postcard crc ops).file = some file →
        (scanEntries postcard crc file).1 = kept.map Attempt.entry ∧
        readEntries postcard crc file = .ok (kept.map Attempt.entry) := by
  have start : WalState.start.Durable postcard crc [] := ⟨.absent rfl, .refl _, rfl⟩
  obtain ⟨kept, h⟩ := WalState.durable_foldl postcard crc ops start
  refine ⟨kept, h.inOrder, h.acked, fun file hfile => ?_⟩
  have holds := h.holds
  rw [show (ops.foldl (WalState.step postcard crc) WalState.start).file = some file from hfile]
    at holds
  exact ⟨holds.scan postcard crc, holds.readEntries postcard crc⟩

end Writer
end Wal
end Minigraf
