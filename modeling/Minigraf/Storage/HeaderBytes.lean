import Minigraf.Storage.Header

/-!
The header of `src/storage/mod.rs` as bytes, in every version of the format. The files of the
other modules have a header of version 7 with packed pages for their page 0.
-/

namespace Minigraf

open Bytes

inductive HeaderError where
  | stg001 (len : Nat)
  | stg002
  | stg003 (len : Nat)
  | stg004 (len : Nat)
  | stg005 (len : Nat)
  | stg006 (version : UInt32)
  | int036 (start stop len : Nat)
  | int038 (field : String)
  | int039
  /-- The other checks of the header. -/
  | fields (error : ErrorCode)
  deriving DecidableEq

def MAGIC_NUMBER : Block 4 := ⟨[0x4D, 0x47, 0x52, 0x46], rfl⟩

def FORMAT_VERSION : UInt32 := 7

/-- `FileHeader` with all its fields. -/
structure HeaderRecord where
  magic : Block 4
  version : UInt32
  pageCount : UInt64
  nodeCount : UInt64
  lastCheckpointedTxCount : UInt64
  eavtRootPage : UInt64
  aevtRootPage : UInt64
  avetRootPage : UInt64
  vaetRootPage : UInt64
  indexChecksum : UInt32
  factPageFormat : UInt8
  padding : UInt8 × UInt8 × UInt8
  factPageCount : UInt64
  headerChecksum : UInt32
  deriving DecidableEq

/-! ## Reading -/

def readU32Le (bytes : List UInt8) (offset : Nat) : Except HeaderError UInt32 :=
  match readNat bytes offset 4 with
  | some n => pure (UInt32.ofNat n)
  | none => throw (.int036 offset (offset + 4) bytes.length)

def readU64Le (bytes : List UInt8) (offset : Nat) : Except HeaderError UInt64 :=
  match readNat bytes offset 8 with
  | some n => pure (UInt64.ofNat n)
  | none => throw (.int036 offset (offset + 8) bytes.length)

def headerByte (bytes : List UInt8) (offset : Nat) (field : String) : Except HeaderError UInt8 :=
  match bytes[offset]? with
  | some byte => pure byte
  | none => throw (.int038 field)

namespace HeaderRecord

def toBytes (h : HeaderRecord) : List UInt8 :=
  h.magic.val ++ leBytes 4 h.version.toNat ++ leBytes 8 h.pageCount.toNat ++ leBytes 8 h.nodeCount.toNat ++
    leBytes 8 h.lastCheckpointedTxCount.toNat ++ leBytes 8 h.eavtRootPage.toNat ++ leBytes 8 h.aevtRootPage.toNat ++
    leBytes 8 h.avetRootPage.toNat ++ leBytes 8 h.vaetRootPage.toNat ++ leBytes 4 h.indexChecksum.toNat ++
    [h.factPageFormat, h.padding.1, h.padding.2.1, h.padding.2.2] ++ leBytes 8 h.factPageCount.toNat ++
    leBytes 4 h.headerChecksum.toNat

/-- New in version 6. -/
def readFactPageCount (bytes : List UInt8) (version : UInt32) : Except HeaderError UInt64 :=
  if version ≥ 6 then
    if bytes.length < 80 then throw (.stg004 bytes.length) else readU64Le bytes 72
  else pure 0

/-- New in version 7. -/
def readHeaderChecksum (bytes : List UInt8) (version : UInt32) : Except HeaderError UInt32 :=
  if version ≥ 7 then
    if bytes.length < 84 then throw (.stg005 bytes.length) else readU32Le bytes 80
  else pure 0

/-- The fields behind the counts, from version 4 on. -/
def readIndexFields (bytes : List UInt8) (h : HeaderRecord) : Except HeaderError HeaderRecord :=
  if bytes.length < 72 then throw (.stg003 bytes.length)
  else do
    let factPageCount ← readFactPageCount bytes h.version
    let headerChecksum ← readHeaderChecksum bytes h.version
    let eavtRootPage ← readU64Le bytes 32
    let aevtRootPage ← readU64Le bytes 40
    let avetRootPage ← readU64Le bytes 48
    let vaetRootPage ← readU64Le bytes 56
    let indexChecksum ← readU32Le bytes 64
    let factPageFormat ← headerByte bytes 68 "fact_page_format"
    let padding₀ ← headerByte bytes 69 "padding[0]"
    let padding₁ ← headerByte bytes 70 "padding[1]"
    let padding₂ ← headerByte bytes 71 "padding[2]"
    pure { h with
      eavtRootPage, aevtRootPage, avetRootPage, vaetRootPage, indexChecksum, factPageFormat
      padding := (padding₀, padding₁, padding₂)
      factPageCount, headerChecksum }

def fromBytes (bytes : List UInt8) : Except HeaderError HeaderRecord :=
  if bytes.length < 64 then throw (.stg001 bytes.length)
  else
    match readAt bytes 0 4 with
    | none => throw (.int038 "magic bytes")
    | some magic =>
        if magic ≠ MAGIC_NUMBER.val then throw .stg002
        else do
          let version ← readU32Le bytes 4
          let pageCount ← readU64Le bytes 8
          let nodeCount ← readU64Le bytes 16
          let lastCheckpointedTxCount ← readU64Le bytes 24
          let h : HeaderRecord := ⟨MAGIC_NUMBER, version, pageCount, nodeCount, lastCheckpointedTxCount,
            0, 0, 0, 0, 0, 0, (0, 0, 0), 0, 0⟩
          if version ≤ 3 then pure h else readIndexFields bytes h

def validate (h : HeaderRecord) : Except HeaderError Unit := do
  if h.magic ≠ MAGIC_NUMBER then throw .int039
  if h.version < 1 ∨ h.version > FORMAT_VERSION then throw (.stg006 h.version)
  if h.pageCount = 0 then throw (.fields .stg007)
  if h.eavtRootPage ≠ 0 ∧ h.eavtRootPage ≥ h.pageCount then throw (.fields .stg008)
  if h.factPageCount > h.pageCount then throw (.fields .stg009)

/-- What the version of a header keeps of it. -/
def kept (h : HeaderRecord) : HeaderRecord :=
  if h.version ≤ 3 then
    ⟨h.magic, h.version, h.pageCount, h.nodeCount, h.lastCheckpointedTxCount, 0, 0, 0, 0, 0, 0, (0, 0, 0), 0, 0⟩
  else
    { h with
      factPageCount := if h.version ≥ 6 then h.factPageCount else 0
      headerChecksum := if h.version ≥ 7 then h.headerChecksum else 0 }

end HeaderRecord

/-! ## Reading behind a front -/

theorem readAt_skip {front back : List UInt8} {off len : Nat} (le : front.length ≤ off) :
    readAt (front ++ back) off len = readAt back (off - front.length) len := by
  have inside : off + len ≤ (front ++ back).length ↔ off - front.length + len ≤ back.length := by
    rw [List.length_append]
    omega
  have tail : (front ++ back).drop off = back.drop (off - front.length) := by
    rw [List.drop_append, List.drop_eq_nil_of_le le, List.nil_append]
  simp only [readAt, tail, inside]

theorem readAt_front {front back : List UInt8} {len : Nat} (width : front.length = len) :
    readAt (front ++ back) 0 len = some front := by
  subst width
  simp [readAt]

theorem readNat_skip {front back : List UInt8} {off w : Nat} (le : front.length ≤ off) :
    readNat (front ++ back) off w = readNat back (off - front.length) w := by
  rw [readNat, readNat, readAt_skip le]

theorem readNat_cons {byte : UInt8} {back : List UInt8} {off w : Nat} (pos : 0 < off) :
    readNat (byte :: back) off w = readNat back (off - 1) w :=
  @readNat_skip [byte] back off w pos

theorem readNat_front {back : List UInt8} {w n : Nat} (small : n < 256 ^ w) :
    readNat (leBytes w n ++ back) 0 w = some n := by
  rw [readNat, readAt_front (length_leBytes w n), Option.map_some, leNat_leBytes w n small]

theorem readNat_u32 (v : UInt32) (back : List UInt8) : readNat (leBytes 4 v.toNat ++ back) 0 4 = some v.toNat :=
  readNat_front v.toNat_lt

theorem readNat_u64 (v : UInt64) (back : List UInt8) : readNat (leBytes 8 v.toNat ++ back) 0 8 = some v.toNat :=
  readNat_front v.toNat_lt

theorem readU32Le_eq {bytes : List UInt8} {offset : Nat} {v : UInt32} (read : readNat bytes offset 4 = some v.toNat) :
    readU32Le bytes offset = .ok v := by
  rw [readU32Le, read]
  exact congrArg Except.ok v.ofNat_toNat

theorem readU64Le_eq {bytes : List UInt8} {offset : Nat} {v : UInt64} (read : readNat bytes offset 8 = some v.toNat) :
    readU64Le bytes offset = .ok v := by
  rw [readU64Le, read]
  exact congrArg Except.ok v.ofNat_toNat

theorem headerByte_eq {bytes : List UInt8} {offset : Nat} {field : String} {byte : UInt8}
    (read : bytes[offset]? = some byte) : headerByte bytes offset field = .ok byte := by
  rw [headerByte, read]
  rfl

namespace HeaderRecord

/-- Every field stands in the bytes at its own offset. -/
structure Written (h : HeaderRecord) (bytes : List UInt8) : Prop where
  length : 84 ≤ bytes.length
  magic : readAt bytes 0 4 = some h.magic.val
  version : readU32Le bytes 4 = .ok h.version
  pageCount : readU64Le bytes 8 = .ok h.pageCount
  nodeCount : readU64Le bytes 16 = .ok h.nodeCount
  lastCheckpointedTxCount : readU64Le bytes 24 = .ok h.lastCheckpointedTxCount
  eavtRootPage : readU64Le bytes 32 = .ok h.eavtRootPage
  aevtRootPage : readU64Le bytes 40 = .ok h.aevtRootPage
  avetRootPage : readU64Le bytes 48 = .ok h.avetRootPage
  vaetRootPage : readU64Le bytes 56 = .ok h.vaetRootPage
  indexChecksum : readU32Le bytes 64 = .ok h.indexChecksum
  factPageFormat : headerByte bytes 68 "fact_page_format" = .ok h.factPageFormat
  padding₀ : headerByte bytes 69 "padding[0]" = .ok h.padding.1
  padding₁ : headerByte bytes 70 "padding[1]" = .ok h.padding.2.1
  padding₂ : headerByte bytes 71 "padding[2]" = .ok h.padding.2.2
  factPageCount : readU64Le bytes 72 = .ok h.factPageCount
  headerChecksum : readU32Le bytes 80 = .ok h.headerChecksum

theorem written_toBytes (h : HeaderRecord) (rest : List UInt8) : h.Written (h.toBytes ++ rest) := by
  have width : h.magic.val.length = 4 := h.magic.property
  simp only [toBytes, List.append_assoc]
  refine ⟨?_, readAt_front width, readU32Le_eq ?_, readU64Le_eq ?_, readU64Le_eq ?_, readU64Le_eq ?_, readU64Le_eq ?_,
    readU64Le_eq ?_, readU64Le_eq ?_, readU64Le_eq ?_, readU32Le_eq ?_, headerByte_eq ?_, headerByte_eq ?_,
    headerByte_eq ?_, headerByte_eq ?_, readU64Le_eq ?_, readU32Le_eq ?_⟩
  · simp only [List.length_append, length_leBytes, width, List.length_cons, List.length_nil]
    omega
  all_goals
    simp (disch := simp [width]) [readNat_skip, readNat_cons, readNat_u32, readNat_u64, List.getElem?_append_right,
      width]

section Reading

variable {h : HeaderRecord} {bytes : List UInt8}

theorem Written.readFactPageCount (w : h.Written bytes) :
    readFactPageCount bytes h.version = .ok (if h.version ≥ 6 then h.factPageCount else 0) := by
  have long := w.length
  rw [HeaderRecord.readFactPageCount, if_neg (by omega : ¬ bytes.length < 80), w.factPageCount]
  split_ifs <;> rfl

theorem Written.readHeaderChecksum (w : h.Written bytes) :
    readHeaderChecksum bytes h.version = .ok (if h.version ≥ 7 then h.headerChecksum else 0) := by
  have long := w.length
  rw [HeaderRecord.readHeaderChecksum, if_neg (by omega : ¬ bytes.length < 84), w.headerChecksum]
  split_ifs <;> rfl

theorem Written.readIndexFields (w : h.Written bytes) {read : HeaderRecord} (version : read.version = h.version) :
    readIndexFields bytes read = .ok { h with
      magic := read.magic
      version := read.version
      pageCount := read.pageCount
      nodeCount := read.nodeCount
      lastCheckpointedTxCount := read.lastCheckpointedTxCount
      factPageCount := if h.version ≥ 6 then h.factPageCount else 0
      headerChecksum := if h.version ≥ 7 then h.headerChecksum else 0 } := by
  have long := w.length
  rw [HeaderRecord.readIndexFields, if_neg (by omega : ¬ bytes.length < 72)]
  simp only [version, w.readFactPageCount, w.readHeaderChecksum, w.eavtRootPage, w.aevtRootPage, w.avetRootPage,
    w.vaetRootPage, w.indexChecksum, w.factPageFormat, w.padding₀, w.padding₁, w.padding₂, bind, Except.bind]
  rfl

theorem Written.fromBytes (w : h.Written bytes) :
    fromBytes bytes = if h.magic = MAGIC_NUMBER then .ok h.kept else .error .stg002 := by
  have long := w.length
  rw [HeaderRecord.fromBytes, if_neg (by omega : ¬ bytes.length < 64), w.magic]
  by_cases magic : h.magic = MAGIC_NUMBER
  · have same : ¬ h.magic.val ≠ MAGIC_NUMBER.val := fun other => other (congrArg Subtype.val magic)
    simp only [if_neg same, if_pos magic, w.version, w.pageCount, w.nodeCount, w.lastCheckpointedTxCount, bind,
      Except.bind]
    by_cases old : h.version ≤ 3
    · rw [if_pos old, kept, if_pos old, magic]
      rfl
    · rw [if_neg old, kept, if_neg old, w.readIndexFields, magic]
      rfl
  · have other : h.magic.val ≠ MAGIC_NUMBER.val := fun same => magic (Subtype.ext same)
    simp only [if_pos other, if_neg magic]
    rfl

end Reading

/-- The bytes of a header are read back, whatever follows them, as far as its version goes. -/
theorem fromBytes_toBytes (h : HeaderRecord) (rest : List UInt8) :
    fromBytes (h.toBytes ++ rest) = if h.magic = MAGIC_NUMBER then .ok h.kept else .error .stg002 :=
  (h.written_toBytes rest).fromBytes

end HeaderRecord

end Minigraf
