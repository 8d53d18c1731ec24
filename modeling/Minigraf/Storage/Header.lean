import Minigraf.Error
import Minigraf.Lib.Bytes

/-!
The file header of `src/storage/mod.rs` and the checksums kept in it.

A file here is of the current format: version 7 with packed fact pages. Page 0 is
the header itself rather than its bytes, so that checksums can be of any type: a
hasher whose results tell all byte strings apart exists then, and statements that
assume one are not empty. `toBytes` gives the bytes back where they are hashed or
read as a page.
-/

namespace Minigraf

open Bytes

def PAGE_SIZE : Nat := 4096

abbrev Page := Block PAGE_SIZE

/-- `crc32fast::Hasher`, with its checksums and their little-endian bytes. -/
structure Crc (H C : Type) where
  new : H
  update : H → List UInt8 → H
  finalize : H → C
  zero : C
  toLeBytes : C → List UInt8

section Checksums

variable {H C : Type} (crc : Crc H C)

/-- The hasher fed with pages in order. -/
def Crc.feed (h : H) (pages : List Page) : H :=
  pages.foldl (fun h page => crc.update h page.val) h

/-- Checksums of different pages differ. -/
def Crc.Collisionless : Prop :=
  ∀ pages pages', crc.finalize (crc.feed crc.new pages) = crc.finalize (crc.feed crc.new pages') →
    pages = pages'

theorem Crc.feed_append (h : H) (pages pages' : List Page) :
    crc.feed h (pages ++ pages') = crc.feed (crc.feed h pages) pages' :=
  List.foldl_append

end Checksums

/-- A hasher that keeps all it was fed. -/
def Crc.lossless : Crc (List UInt8) (List UInt8) where
  new := []
  update h bytes := h ++ bytes
  finalize := id
  zero := []
  toLeBytes := id

theorem Crc.lossless_feed (h : List UInt8) (pages : List Page) :
    Crc.lossless.feed h pages = h ++ pages.flatMap Subtype.val := by
  induction pages generalizing h with
  | nil => exact (List.append_nil h).symm
  | cons page pages ih =>
      show Crc.lossless.feed (h ++ page.val) pages = _
      rw [ih, List.flatMap_cons, List.append_assoc]

theorem Crc.lossless_collisionless : Crc.lossless.Collisionless := by
  intro pages pages' same
  simp only [Crc.lossless_feed] at same
  replace same : pages.flatMap Subtype.val = pages'.flatMap Subtype.val := same
  induction pages generalizing pages' with
  | nil =>
      cases pages' with
      | nil => rfl
      | cons page' pages' =>
          have width := page'.property
          rw [List.flatMap_nil, List.flatMap_cons, eq_comm, List.append_eq_nil_iff] at same
          rw [same.1] at width
          cases width
  | cons page pages ih =>
      cases pages' with
      | nil =>
          have width := page.property
          rw [List.flatMap_nil, List.flatMap_cons, List.append_eq_nil_iff] at same
          rw [same.1] at width
          cases width
      | cons page' pages' =>
          rw [List.flatMap_cons, List.flatMap_cons] at same
          obtain ⟨front, back⟩ := List.append_inj same (page.property.trans page'.property.symm)
          rw [Subtype.ext front, ih pages' back]

structure FileHeader (C : Type) where
  pageCount : Nat
  nodeCount : Nat
  lastCheckpointedTxCount : UInt64
  eavtRootPage : Nat
  aevtRootPage : Nat
  avetRootPage : Nat
  vaetRootPage : Nat
  indexChecksum : C
  factPageCount : Nat
  headerChecksum : C
  deriving DecidableEq

section Header

variable {H C : Type} (crc : Crc H C)

def FileHeader.new : FileHeader C where
  pageCount := 1
  nodeCount := 0
  lastCheckpointedTxCount := 0
  eavtRootPage := 0
  aevtRootPage := 0
  avetRootPage := 0
  vaetRootPage := 0
  indexChecksum := crc.zero
  factPageCount := 0
  headerChecksum := crc.zero

/-- The bytes before the header checksum: magic, version 7, the fields, the packed
page format and three bytes of padding. -/
def FileHeader.checkedBytes (h : FileHeader C) : List UInt8 :=
  [0x4D, 0x47, 0x52, 0x46] ++ leBytes 4 7 ++ leBytes 8 h.pageCount ++ leBytes 8 h.nodeCount ++
    leBytes 8 h.lastCheckpointedTxCount.toNat ++ leBytes 8 h.eavtRootPage ++
    leBytes 8 h.aevtRootPage ++ leBytes 8 h.avetRootPage ++ leBytes 8 h.vaetRootPage ++
    crc.toLeBytes h.indexChecksum ++ [0x02, 0, 0, 0] ++ leBytes 8 h.factPageCount

def FileHeader.toBytes (h : FileHeader C) : List UInt8 :=
  h.checkedBytes crc ++ crc.toLeBytes h.headerChecksum

/-- The header's page: its bytes, padded with zeros. -/
def FileHeader.toPage (h : FileHeader C) : Page :=
  ⟨(h.toBytes crc ++ List.replicate PAGE_SIZE 0).take PAGE_SIZE, by simp⟩

def computeHeaderChecksum (h : FileHeader C) : C :=
  crc.finalize (crc.update crc.new (h.checkedBytes crc))

def FileHeader.validate (h : FileHeader C) : Except ErrorCode Unit := do
  if h.pageCount = 0 then throw .stg007
  if h.eavtRootPage ≠ 0 ∧ h.eavtRootPage ≥ h.pageCount then throw .stg008
  if h.factPageCount > h.pageCount then throw .stg009

/-- The header with a new page count, under a fresh checksum. -/
def FileHeader.grown (h : FileHeader C) (pageCount : Nat) : FileHeader C :=
  { h with
    pageCount := pageCount
    headerChecksum := computeHeaderChecksum crc { h with pageCount := pageCount } }

end Header
end Minigraf
