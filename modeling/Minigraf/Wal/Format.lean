import Minigraf.Storage.PackedPages

/-!
The write-ahead log of `src/wal.rs`: entry encoding, the scan that recovery and
reopening share, and the writer with its sticky failure flag.

A WAL file is its bytes. The postcard codec and the checksum are parameters; the
scan needs nothing of the checksum but that it is a function of the bytes, since a
torn entry runs out of bytes before its checksum is ever compared.
-/

namespace Minigraf
namespace Wal

open Bytes

def WAL_MAGIC : List UInt8 := [0x4D, 0x57, 0x41, 0x4C]

def WAL_VERSION : Nat := 1

def WAL_HEADER_SIZE : Nat := 32

/-- The cap `scan_entries` puts on a single fact, 10 MiB. -/
def MAX_FACT_SIZE : Nat := 10 * 1024 * 1024

/-- The bytes `write_wal_header` writes at offset 0. -/
def walHeader : List UInt8 := WAL_MAGIC ++ leBytes 4 WAL_VERSION ++ List.replicate 24 0

/-- One bit of CRC-32, lowest bit first. -/
def crc32Bit (c : UInt32) : UInt32 :=
  if c &&& 1 = 1 then (c >>> 1) ^^^ 0xEDB88320 else c >>> 1

/-- The checksum of `crc32fast`. Nothing below depends on which function it is. -/
def crc32 (bytes : List UInt8) : UInt32 :=
  ~~~ bytes.foldl (fun c b => crc32Bit^[8] (c ^^^ b.toUInt32)) 0xFFFFFFFF

/-- A Rust `Vec`: its length is a `usize`. -/
abbrev Vec (α : Type) := { l : List α // l.length < 2 ^ 64 }

structure WalEntry where
  txCount : UInt64
  facts : List Fact
  deriving DecidableEq, Repr

section Format

variable (postcard : Codec Fact) (crc : List UInt8 → UInt32)

/-! ## Entries -/

/-- One fact of the payload: its length and its bytes. -/
def factRecord (fact : Fact) : Except ErrorCode (List UInt8) :=
  let factBytes := postcard.encode fact
  if factBytes.length > MAX_FACT_BYTES then throw .wal003
  else if factBytes.length ≥ 2 ^ 32 then throw .wal004
  else pure (leBytes 4 factBytes.length ++ factBytes)

def serializeEntry (txCount : UInt64) (facts : List Fact) : Except ErrorCode (List UInt8) := do
  let records ← facts.mapM (factRecord postcard)
  let payload := leBytes 8 txCount.toNat ++ leBytes 8 facts.length ++ records.flatten
  pure (leBytes 4 (crc payload).toNat ++ payload)

/-- The fact loop of `scan_entries`: `payload` and `facts` accumulate, and `none` is
the `truncated` flag. -/
def readFacts : Nat → List UInt8 → List UInt8 → List Fact →
    Option (List UInt8 × List Fact × List UInt8)
  | 0, payload, bytes, facts => some (payload, facts, bytes)
  | n + 1, payload, bytes, facts => do
      let (lenBuf, bytes) ← readExact 4 bytes
      let factLen := leNat lenBuf
      if factLen > MAX_FACT_SIZE then none
      else
        let (factBytes, bytes) ← readExact factLen bytes
        let fact ← postcard.decode factBytes
        readFacts n (payload ++ lenBuf ++ factBytes) bytes (facts ++ [fact])

/-- One turn of the `scan_entries` loop, from the bytes after `validEnd`: the entry
and the bytes after it, or `none` where the loop breaks. -/
def readEntry (fileLen validEnd : Nat) (bytes : List UInt8) :
    Option (WalEntry × List UInt8) := do
  let (csumBuf, bytes) ← readExact 4 bytes
  let (txCountBuf, bytes) ← readExact 8 bytes
  let (numFactsBuf, bytes) ← readExact 8 bytes
  let numFacts := leNat numFactsBuf
  let left := fileLen - (validEnd + 20)
  if numFacts > left / 4 then none
  else
    let (payload, facts, bytes) ← readFacts postcard numFacts (txCountBuf ++ numFactsBuf) bytes []
    if leNat csumBuf ≠ (crc payload).toNat then none
    else some (⟨UInt64.ofNat (leNat txCountBuf), facts⟩, bytes)

/-- What an entry is scanned back as, when it was written whole. -/
def Encodes (entry : WalEntry) (bytes : List UInt8) : Prop :=
  entry.facts.length < 2 ^ 64 ∧ serializeEntry postcard crc entry.txCount entry.facts = .ok bytes

theorem factRecord_ok {fact : Fact} {record : List UInt8}
    (h : factRecord postcard fact = .ok record) :
    (postcard.encode fact).length ≤ MAX_FACT_BYTES ∧
      record = leBytes 4 (postcard.encode fact).length ++ postcard.encode fact := by
  simp only [factRecord] at h
  split at h
  · cases h
  · split at h
    · cases h
    · cases h
      exact ⟨by omega, rfl⟩

/-- Facts that fit a page can be logged. -/
theorem exists_records {facts : List Fact} (fits : ∀ f ∈ facts, f.Fits postcard) :
    ∃ records, facts.mapM (factRecord postcard) = .ok records := by
  refine List.exists_mapM_ok fun f hf => ?_
  have small := fits f hf
  have wide : ¬ (postcard.encode f).length > MAX_FACT_BYTES := Nat.not_lt.mpr small
  have narrow : ¬ (postcard.encode f).length ≥ 2 ^ 32 := by
    simp only [Fact.Fits, MAX_FACT_BYTES, PAGE_SIZE, PACKED_HEADER_SIZE] at small
    omega
  simp only [factRecord, if_neg wide, if_neg narrow]
  exact ⟨_, rfl⟩

/-- Reading the records of a fact list gives the list back and leaves the rest. -/
theorem readFacts_records {facts : List Fact} {records : List (List UInt8)}
    (h : facts.mapM (factRecord postcard) = .ok records) (payload rest : List UInt8)
    (before : List Fact) :
    readFacts postcard facts.length payload (records.flatten ++ rest) before =
      some (payload ++ records.flatten, before ++ facts, rest) := by
  induction facts generalizing records payload before with
  | nil =>
      cases h
      simp [readFacts]
  | cons fact facts ih =>
      simp only [List.mapM_cons, bind, Except.bind] at h
      split at h
      · cases h
      · rename_i record hrecord
        split at h
        · cases h
        · rename_i records' hrecords
          cases h
          obtain ⟨hlen, rfl⟩ := factRecord_ok postcard hrecord
          have small : (postcard.encode fact).length < 256 ^ 4 := by
            simp only [MAX_FACT_BYTES, PAGE_SIZE, PACKED_HEADER_SIZE] at hlen
            omega
          have capped : ¬ (postcard.encode fact).length > MAX_FACT_SIZE := by
            simp only [MAX_FACT_BYTES, PAGE_SIZE, PACKED_HEADER_SIZE, MAX_FACT_SIZE] at hlen ⊢
            omega
          simp only [List.length_cons, List.flatten_cons, List.append_assoc, readFacts]
          rw [readExact_append (length_leBytes 4 _)]
          simp only [Option.bind_eq_bind, Option.bind_some, leNat_leBytes 4 _ small, if_neg capped]
          rw [readExact_append rfl]
          simp only [Option.bind_some, postcard.decode_encode, ih hrecords, List.append_assoc,
            List.singleton_append]

/-- Reading facts from more bytes reads the same facts and leaves more bytes. -/
theorem readFacts_append {n : Nat} {payload bytes : List UInt8} {facts : List Fact}
    {payload' : List UInt8} {facts' : List Fact} {rest : List UInt8}
    (h : readFacts postcard n payload bytes facts = some (payload', facts', rest))
    (more : List UInt8) :
    readFacts postcard n payload (bytes ++ more) facts = some (payload', facts', rest ++ more) := by
  induction n generalizing payload bytes facts with
  | zero =>
      simp only [readFacts, Option.some.injEq, Prod.mk.injEq] at h ⊢
      obtain ⟨rfl, rfl, rfl⟩ := h
      exact ⟨rfl, rfl, rfl⟩
  | succ n ih =>
      simp only [readFacts, Option.bind_eq_bind, Option.bind_eq_some_iff] at h
      obtain ⟨⟨lenBuf, bytes₁⟩, hlen, h⟩ := h
      split at h
      · cases h
      · rename_i capped
        simp only [Option.bind_eq_some_iff] at h
        obtain ⟨⟨factBytes, bytes₂⟩, hfact, fact, hdecode, h⟩ := h
        obtain ⟨lenWidth, rfl⟩ := readExact_length hlen
        obtain ⟨factWidth, rfl⟩ := readExact_length hfact
        simp only [readFacts, List.append_assoc]
        rw [readExact_append lenWidth]
        simp only [Option.bind_eq_bind, Option.bind_some, if_neg capped]
        rw [readExact_append factWidth]
        simp only [Option.bind_some, hdecode]
        simpa only [List.append_assoc] using ih h

theorem serializeEntry_ok {txCount : UInt64} {facts : List Fact} {bytes : List UInt8}
    (h : serializeEntry postcard crc txCount facts = .ok bytes) :
    ∃ records, facts.mapM (factRecord postcard) = .ok records ∧
      bytes = leBytes 4 (crc (leBytes 8 txCount.toNat ++ leBytes 8 facts.length ++
          records.flatten)).toNat ++
        (leBytes 8 txCount.toNat ++ (leBytes 8 facts.length ++ records.flatten)) := by
  simp only [serializeEntry, bind, Except.bind] at h
  split at h
  · cases h
  · rename_i records hrecords
    cases h
    exact ⟨records, hrecords, by rw [List.append_assoc (leBytes 8 _)]⟩

/-- Every record carries at least its four length bytes. -/
theorem length_records_ge {facts : List Fact} {records : List (List UInt8)}
    (h : facts.mapM (factRecord postcard) = .ok records) :
    4 * facts.length ≤ records.flatten.length := by
  induction facts generalizing records with
  | nil => simp
  | cons fact facts ih =>
      simp only [List.mapM_cons, bind, Except.bind] at h
      split at h
      · cases h
      · rename_i record hrecord
        split at h
        · cases h
        · rename_i records' hrecords
          cases h
          have rest := ih hrecords
          obtain ⟨_, rfl⟩ := factRecord_ok postcard hrecord
          simp only [List.length_cons, List.flatten_cons, List.length_append, length_leBytes]
          omega

/-- A whole entry is read back, wherever it stands in a file that holds it. -/
theorem readEntry_encodes {entry : WalEntry} {bytes : List UInt8}
    (h : Encodes postcard crc entry bytes) (rest : List UInt8) (fileLen validEnd : Nat)
    (inside : validEnd + bytes.length ≤ fileLen) :
    readEntry postcard crc fileLen validEnd (bytes ++ rest) = some (entry, rest) := by
  obtain ⟨hcount, hser⟩ := h
  obtain ⟨records, hrecords, rfl⟩ := serializeEntry_ok postcard crc hser
  have enough := length_records_ge postcard hrecords
  simp only [List.length_append, length_leBytes] at inside
  have counted : ¬ entry.facts.length > (fileLen - (validEnd + 20)) / 4 := by omega
  have txSmall : entry.txCount.toNat < 256 ^ 8 := entry.txCount.toNat_lt
  have crcSmall : (crc (leBytes 8 entry.txCount.toNat ++ leBytes 8 entry.facts.length ++
      records.flatten)).toNat < 256 ^ 4 := UInt32.toNat_lt _
  unfold readEntry
  simp only [List.append_assoc]
  rw [readExact_append (length_leBytes 4 _)]
  simp only [Option.bind_eq_bind, Option.bind_some]
  rw [readExact_append (length_leBytes 8 _)]
  simp only [Option.bind_some]
  rw [readExact_append (length_leBytes 8 _)]
  simp only [Option.bind_some, leNat_leBytes 8 _ hcount, if_neg counted,
    readFacts_records postcard hrecords, leNat_leBytes 8 _ txSmall, List.nil_append]
  rw [List.append_assoc, leNat_leBytes 4 _ (by rw [← List.append_assoc]; exact crcSmall)]
  simp

/-- A torn entry is not read, whatever the length of the file says: its bytes run
out before its last fact does. -/
theorem readEntry_torn {entry : WalEntry} {bytes torn lost : List UInt8}
    (h : Encodes postcard crc entry bytes) (prefixed : bytes = torn ++ lost) (cut : lost ≠ [])
    (fileLen validEnd : Nat) : readEntry postcard crc fileLen validEnd torn = none := by
  obtain ⟨hcount, hser⟩ := h
  obtain ⟨records, hrecords, rfl⟩ := serializeEntry_ok postcard crc hser
  rw [Option.eq_none_iff_forall_ne_some]
  rintro ⟨other, rest⟩ hread
  simp only [readEntry, Option.bind_eq_bind, Option.bind_eq_some_iff] at hread
  obtain ⟨⟨csumBuf, bytes₁⟩, hcsum, ⟨txBuf, bytes₂⟩, htx, ⟨numBuf, bytes₃⟩, hnum, hread⟩ := hread
  obtain ⟨csumWidth, rfl⟩ := readExact_length hcsum
  obtain ⟨txWidth, rfl⟩ := readExact_length htx
  obtain ⟨numWidth, rfl⟩ := readExact_length hnum
  -- The fields read are the fields written: both sides split at the same widths.
  simp only [List.append_assoc] at prefixed
  obtain ⟨-, afterCsum⟩ := List.append_inj prefixed (by rw [length_leBytes, csumWidth])
  obtain ⟨-, afterTx⟩ := List.append_inj afterCsum (by rw [length_leBytes, txWidth])
  obtain ⟨rfl, body⟩ := List.append_inj afterTx (by rw [length_leBytes, numWidth])
  simp only [leNat_leBytes 8 _ hcount] at hread
  split at hread
  · cases hread
  · simp only [Option.bind_eq_some_iff] at hread
    obtain ⟨⟨payload, facts, bytes₄⟩, hfacts, -⟩ := hread
    have torn := readFacts_append postcard hfacts lost
    have whole := readFacts_records postcard hrecords (txBuf ++ leBytes 8 entry.facts.length) [] []
    rw [List.append_nil, body, torn] at whole
    simp only [Option.some.injEq, Prod.mk.injEq, List.append_eq_nil_iff] at whole
    exact cut whole.2.2.2

/-! ## The scan -/

theorem readFacts_length {n : Nat} {payload bytes : List UInt8} {facts : List Fact}
    {payload' : List UInt8} {facts' : List Fact} {rest : List UInt8}
    (h : readFacts postcard n payload bytes facts = some (payload', facts', rest)) :
    rest.length ≤ bytes.length := by
  induction n generalizing payload bytes facts with
  | zero =>
      simp only [readFacts, Option.some.injEq, Prod.mk.injEq] at h
      rw [h.2.2]
  | succ n ih =>
      simp only [readFacts, Option.bind_eq_bind, Option.bind_eq_some_iff] at h
      obtain ⟨⟨lenBuf, bytes₁⟩, hlen, h⟩ := h
      split at h
      · cases h
      · simp only [Option.bind_eq_some_iff] at h
        obtain ⟨⟨factBytes, bytes₂⟩, hfact, _, _, h⟩ := h
        obtain ⟨_, rfl⟩ := readExact_length hlen
        obtain ⟨_, rfl⟩ := readExact_length hfact
        have shorter : rest.length ≤ bytes₂.length := ih h
        simp only [List.length_append]
        omega

theorem readEntry_length {fileLen validEnd : Nat} {bytes rest : List UInt8} {entry : WalEntry}
    (h : readEntry postcard crc fileLen validEnd bytes = some (entry, rest)) :
    rest.length < bytes.length := by
  simp only [readEntry, Option.bind_eq_bind, Option.bind_eq_some_iff] at h
  obtain ⟨⟨csumBuf, bytes₁⟩, hcsum, ⟨txBuf, bytes₂⟩, htx, ⟨numBuf, bytes₃⟩, hnum, h⟩ := h
  obtain ⟨csumWidth, rfl⟩ := readExact_length hcsum
  obtain ⟨_, rfl⟩ := readExact_length htx
  obtain ⟨_, rfl⟩ := readExact_length hnum
  split at h
  · cases h
  · simp only [Option.bind_eq_some_iff] at h
    obtain ⟨⟨payload, facts, bytes₄⟩, hfacts, h⟩ := h
    split at h
    · cases h
    · simp only [Option.some.injEq, Prod.mk.injEq] at h
      have := readFacts_length postcard hfacts
      rw [← h.2]
      simp only [List.length_append]
      omega

/-- The loop of `scan_entries`, from the bytes after `validEnd`. The position of the
file after an entry is its length less the bytes still to read. -/
def scanLoop (fileLen validEnd : Nat) (bytes : List UInt8) : List WalEntry × Nat :=
  match _h : readEntry postcard crc fileLen validEnd bytes with
  | none => ([], validEnd)
  | some (entry, rest) =>
      let (entries, validEnd) := scanLoop fileLen (fileLen - rest.length) rest
      (entry :: entries, validEnd)
  termination_by bytes.length
  decreasing_by exact readEntry_length postcard crc _h

def scanEntries (file : List UInt8) : List WalEntry × Nat :=
  scanLoop postcard crc file.length WAL_HEADER_SIZE (file.drop WAL_HEADER_SIZE)

/-- The bytes an append can leave behind the whole entries: none, or a torn entry. -/
def TornTail (tail : List UInt8) : Prop :=
  tail = [] ∨ ∃ entry bytes lost, Encodes postcard crc entry bytes ∧
    bytes = tail ++ lost ∧ lost ≠ []

theorem readEntry_tornTail {tail : List UInt8} (h : TornTail postcard crc tail)
    (fileLen validEnd : Nat) : readEntry postcard crc fileLen validEnd tail = none := by
  obtain rfl | ⟨entry, bytes, lost, henc, hsplit, hcut⟩ := h
  · simp [readEntry, readExact]
  · exact readEntry_torn postcard crc henc hsplit hcut fileLen validEnd

/-- The scan reads the whole entries in order and stops at the torn one. -/
theorem scanLoop_entries {entries : List WalEntry} {encodings : List (List UInt8)}
    (h : List.Forall₂ (Encodes postcard crc) entries encodings) {tail : List UInt8}
    (torn : TornTail postcard crc tail) (validEnd : Nat) :
    scanLoop postcard crc (validEnd + (encodings.flatten ++ tail).length) validEnd
        (encodings.flatten ++ tail) =
      (entries, validEnd + encodings.flatten.length) := by
  induction h generalizing validEnd with
  | nil =>
      rw [scanLoop]
      split
      · simp
      · rename_i hread
        rw [List.flatten_nil, List.nil_append, readEntry_tornTail postcard crc torn] at hread
        cases hread
  | @cons entry bytes entries encodings hentry _ ih =>
      have hlen : validEnd + ((bytes :: encodings).flatten ++ tail).length =
          validEnd + bytes.length + (encodings.flatten ++ tail).length := by
        simp only [List.flatten_cons, List.length_append]
        omega
      have hread : readEntry postcard crc
          (validEnd + bytes.length + (encodings.flatten ++ tail).length) validEnd
          ((bytes :: encodings).flatten ++ tail) = some (entry, encodings.flatten ++ tail) := by
        rw [List.flatten_cons, List.append_assoc]
        exact readEntry_encodes postcard crc hentry _ _ _ (by omega)
      rw [scanLoop, hlen]
      split
      · rename_i hnone
        rw [hread] at hnone
        cases hnone
      · rename_i entry' rest hsome
        rw [hread] at hsome
        cases hsome
        rw [Nat.add_sub_cancel, ih]
        simp only [List.flatten_cons, List.length_append, Prod.mk.injEq, true_and]
        omega

theorem length_walHeader : walHeader.length = WAL_HEADER_SIZE := by decide

/-- Scanning a file of whole entries and at most one torn one. -/
theorem scanEntries_file {entries : List WalEntry} {encodings : List (List UInt8)}
    (h : List.Forall₂ (Encodes postcard crc) entries encodings) {tail : List UInt8}
    (torn : TornTail postcard crc tail) :
    scanEntries postcard crc (walHeader ++ (encodings.flatten ++ tail)) =
      (entries, (walHeader ++ encodings.flatten).length) := by
  have file : (walHeader ++ (encodings.flatten ++ tail)).length =
      WAL_HEADER_SIZE + (encodings.flatten ++ tail).length := by
    rw [List.length_append, length_walHeader]
  have valid : (walHeader ++ encodings.flatten).length =
      WAL_HEADER_SIZE + encodings.flatten.length := by
    rw [List.length_append, length_walHeader]
  rw [scanEntries, List.drop_left' length_walHeader, file, valid]
  exact scanLoop_entries postcard crc h torn WAL_HEADER_SIZE

/-- A file too short to hold a header holds no entries. -/
theorem scanEntries_short {file : List UInt8} (short : file.length < WAL_HEADER_SIZE) :
    scanEntries postcard crc file = ([], WAL_HEADER_SIZE) := by
  rw [scanEntries, List.drop_of_length_le (by omega), scanLoop]
  split
  · rfl
  · rename_i hread
    rw [readEntry_tornTail postcard crc (Or.inl rfl)] at hread
    cases hread

end Format
end Wal
end Minigraf
