import Mathlib.Data.Prod.Lex
import Mathlib.Data.String.Basic
import Mathlib.Data.List.Lex
import Mathlib.Data.List.Sort
import Mathlib.Order.Lex
import Minigraf.Graph.Types
import Minigraf.Lib.Codec
import Minigraf.Lib.Sorted

/-!
Index keys, fact references and the canonical value encoding of
`src/storage/index.rs`.
-/

namespace Minigraf

/-- Where a fact lives. For a pending fact `pageId` is zero and `slotIndex` its
position in the pending list. Page ids are numbers here: the backend refuses a page
whose byte offset leaves 64 bits. -/
structure FactRef where
  pageId : Nat
  slotIndex : Nat
  deriving DecidableEq, Repr

/-- `u64::to_be_bytes`. -/
def toBeBytes (w : UInt64) : List UInt8 :=
  [(w >>> 56).toUInt8, (w >>> 48).toUInt8, (w >>> 40).toUInt8, (w >>> 32).toUInt8,
    (w >>> 24).toUInt8, (w >>> 16).toUInt8, (w >>> 8).toUInt8, w.toUInt8]

/-- The sixteen bytes of a UUID, most significant first. -/
def uuidBytes (id : EntityId) : List UInt8 :=
  toBeBytes (UInt64.ofNat (id.val / 2 ^ 64)) ++ toBeBytes (UInt64.ofNat (id.val % 2 ^ 64))

/-- The bit pattern a float is encoded under: every NaN shares one pattern, which
is not sign-transformed. -/
def floatSortBits (f : F64) : UInt64 :=
  if f.isNaN then 0x7FF8000000000000
  else if f.bits >>> 63 = 0 then f.bits ^^^ 0x8000000000000000
  else ~~~ f.bits

def encodeValue : Value → List UInt8
  | .null => [0x00]
  | .boolean b => [0x01, if b then 1 else 0]
  | .integer n => 0x02 :: toBeBytes (n.toUInt64 ^^^ 0x8000000000000000)
  | .float f => 0x03 :: toBeBytes (floatSortBits f)
  | .string s => 0x04 :: s.toUTF8.toList
  | .keyword k => 0x05 :: k.toUTF8.toList
  | .ref id => 0x06 :: uuidBytes id

/-! ## Keys

The derived orders compare the fields in the order they are declared. -/

structure EavtKey where
  entity : EntityId
  attr : Attribute
  validFrom : Int64
  validTo : Int64
  txCount : UInt64
  deriving DecidableEq, Repr

structure AevtKey where
  attr : Attribute
  entity : EntityId
  validFrom : Int64
  validTo : Int64
  txCount : UInt64
  deriving DecidableEq, Repr

structure AvetKey where
  attr : Attribute
  valueBytes : List UInt8
  validFrom : Int64
  validTo : Int64
  entity : EntityId
  txCount : UInt64
  deriving DecidableEq, Repr

structure VaetKey where
  refTarget : EntityId
  attr : Attribute
  validFrom : Int64
  validTo : Int64
  sourceEntity : EntityId
  txCount : UInt64
  deriving DecidableEq, Repr

def EavtKey.fields (k : EavtKey) : EntityId ×ₗ Attribute ×ₗ Int64 ×ₗ Int64 ×ₗ UInt64 :=
  toLex (k.entity, toLex (k.attr, toLex (k.validFrom, toLex (k.validTo, k.txCount))))

def AevtKey.fields (k : AevtKey) : Attribute ×ₗ EntityId ×ₗ Int64 ×ₗ Int64 ×ₗ UInt64 :=
  toLex (k.attr, toLex (k.entity, toLex (k.validFrom, toLex (k.validTo, k.txCount))))

def AvetKey.fields (k : AvetKey) :
    Attribute ×ₗ List UInt8 ×ₗ Int64 ×ₗ Int64 ×ₗ EntityId ×ₗ UInt64 :=
  toLex (k.attr, toLex (k.valueBytes, toLex (k.validFrom, toLex (k.validTo,
    toLex (k.entity, k.txCount)))))

def VaetKey.fields (k : VaetKey) :
    EntityId ×ₗ Attribute ×ₗ Int64 ×ₗ Int64 ×ₗ EntityId ×ₗ UInt64 :=
  toLex (k.refTarget, toLex (k.attr, toLex (k.validFrom, toLex (k.validTo,
    toLex (k.sourceEntity, k.txCount)))))

instance : LinearOrder EavtKey := LinearOrder.lift' EavtKey.fields fun a b h => by
  cases a; cases b; simpa [EavtKey.fields] using h

instance : LinearOrder AevtKey := LinearOrder.lift' AevtKey.fields fun a b h => by
  cases a; cases b; simpa [AevtKey.fields] using h

instance : LinearOrder AvetKey := LinearOrder.lift' AvetKey.fields fun a b h => by
  cases a; cases b; simpa [AvetKey.fields] using h

instance : LinearOrder VaetKey := LinearOrder.lift' VaetKey.fields fun a b h => by
  cases a; cases b; simpa [VaetKey.fields] using h

def Fact.eavtKey (f : Fact) : EavtKey := ⟨f.entity, f.attr, f.validFrom, f.validTo, f.txCount⟩

def Fact.aevtKey (f : Fact) : AevtKey := ⟨f.attr, f.entity, f.validFrom, f.validTo, f.txCount⟩

def Fact.avetKey (f : Fact) : AvetKey :=
  ⟨f.attr, encodeValue f.value, f.validFrom, f.validTo, f.entity, f.txCount⟩

/-- Only facts whose value is a reference have a key in VAET. -/
def Fact.vaetKey (f : Fact) : Option VaetKey :=
  match f.value with
  | .ref target => some ⟨target, f.attr, f.validFrom, f.validTo, f.entity, f.txCount⟩
  | _ => none

/-! ## Postcard -/

/-- How postcard writes a key alone and a key with its reference. -/
structure IndexCodec (K : Type) where
  key : Codec K
  entry : Codec (K × FactRef)

/-- The postcard encodings the storage engine uses. -/
structure Postcard where
  fact : Codec Fact
  eavt : IndexCodec EavtKey
  aevt : IndexCodec AevtKey
  avet : IndexCodec AvetKey
  vaet : IndexCodec VaetKey

/-! ## Sorted entries -/

/-- Sort index entries by key. The source's sort is unstable: the order of entries
with equal keys is its own, and no statement here depends on it. -/
def sortEntries {K : Type} [LinearOrder K] (entries : List (K × FactRef)) : List (K × FactRef) :=
  entries.mergeSort fun a b => decide (a.1 ≤ b.1)

/-- One of the four lists of `build_sorted_index_entries`, from the facts with their
references: an entry for each fact that has a key in the index. -/
def indexEntries {K : Type} [LinearOrder K] (key : Fact → Option K)
    (placed : List (Fact × FactRef)) : List (K × FactRef) :=
  sortEntries (placed.filterMap fun (f, r) => (key f).map (·, r))

theorem sortEntries_perm {K : Type} [LinearOrder K] (entries : List (K × FactRef)) :
    (sortEntries entries).Perm entries := List.mergeSort_perm _ _

theorem sortEntries_sorted {K : Type} [LinearOrder K] (entries : List (K × FactRef)) :
    (sortEntries entries).Pairwise fun a b => a.1 ≤ b.1 :=
  List.pairwise_mergeSort_by Prod.fst entries

end Minigraf
