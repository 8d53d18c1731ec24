import Mathlib.Logic.Function.Basic
import Minigraf.Lib.Wp
import Minigraf.Storage.Header

/-!
The file backend of `src/storage/backend/file.rs` and the page cache of
`src/storage/cache.rs`, as programs over the open file.

`faults` is the environment's plan for the writes and syncs to come: with
`some n`, the next `n` of them succeed and the one after fails without effect. A
crash is a failed write after which the process does not run on, so the disk a
crash leaves is the disk of a failed run.
-/

namespace Minigraf

open Bytes EStateM

/-- What is on disk: the header in page 0, the length of the file in pages, and the
data pages. A page never written reads as zeros. -/
structure Disk (C : Type) where
  header : FileHeader C
  len : Nat
  page : Nat → Page

/-- The LRU page cache. The dirty flag is left out: nothing but `flush` reads it, and
nothing calls `flush`. -/
structure PageCache where
  entries : List (Nat × Page)
  order : List Nat
  capacity : Nat

/-- The open file: the disk, the backend's copy of the header and the cache. -/
structure Dev (C : Type) where
  disk : Disk C
  header : FileHeader C
  isNew : Bool
  cache : PageCache
  faults : Option Nat

abbrev Io (C : Type) := EStateM ErrorCode (Dev C)

/-! ## The cache -/

namespace PageCache

def new (capacity : Nat) : PageCache := ⟨[], [], capacity⟩

def get (c : PageCache) (id : Nat) : Option Page := c.entries.lookup id

/-- The eviction loop: drop the pages at the front of the order while there are too
many. -/
def evict (capacity : Nat) : List Nat → List (Nat × Page) → List Nat × List (Nat × Page)
  | [], entries => ([], entries)
  | id :: order, entries =>
      if capacity ≤ entries.length then
        evict capacity order (entries.filter fun entry => entry.1 ≠ id)
      else (id :: order, entries)

/-- Insert a page that is not cached, evicting first. -/
def insertNew (c : PageCache) (id : Nat) (page : Page) : PageCache :=
  let (order, entries) := evict c.capacity c.order c.entries
  { c with entries := (id, page) :: entries, order := order ++ [id] }

def touch (order : List Nat) (id : Nat) : List Nat :=
  if order.contains id then
    if order.getLast? = some id then order else order.erase id ++ [id]
  else order ++ [id]

def putDirty (c : PageCache) (id : Nat) (page : Page) : PageCache :=
  if c.capacity = 0 then c
  else if (c.get id).isSome then
    { c with
      entries := c.entries.map fun entry => if entry.1 = id then (id, page) else entry
      order := touch c.order id }
  else c.insertNew id page

def invalidateFrom (c : PageCache) (fromPage : Nat) : PageCache :=
  { c with
    entries := c.entries.filter fun entry => entry.1 < fromPage
    order := c.order.filter (· < fromPage) }

end PageCache

/-! ## Pages -/

section Backend

variable {H C : Type} (crc : Crc H C)

/-- One write or sync, which fails when the plan says so. -/
def tick : Io C Unit := do
  match (← get).faults with
  | none => pure ()
  | some 0 => do
      modify fun s => { s with faults := none }
      throw .io
  | some (n + 1) => modify fun s => { s with faults := some n }

/-- `FileBackend::read_page`. -/
def readPage (id : Nat) : Io C Page := do
  let s ← get
  if s.header.pageCount ≤ id then throw .int049
  else if 2 ^ 64 ≤ id * PAGE_SIZE then throw .int048
  else if s.disk.len ≤ id then throw .io
  else if id = 0 then pure (s.disk.header.toPage crc)
  else pure (s.disk.page id)

/-- The disk after one data page is written. -/
def Disk.writePage (d : Disk C) (id : Nat) (page : Page) : Disk C :=
  { d with len := max d.len (id + 1), page := Function.update d.page id page }

def Disk.writeHeader (d : Disk C) (header : FileHeader C) : Disk C := { d with header := header }

/-- `FileBackend::write_page` for a data page: a write past the known pages raises
the page count, rewrites the header and syncs. -/
def writePage (id : Nat) (page : Page) : Io C Unit :=
  if 2 ^ 64 ≤ id * PAGE_SIZE then throw .int048
  else do
    tick
    modify fun s => { s with disk := s.disk.writePage id page }
    let s ← get
    if s.header.pageCount ≤ id then do
      modify fun s => { s with header := s.header.grown crc (id + 1) }
      tick
      modify fun s => { s with disk := s.disk.writeHeader s.header }
      tick
    else pure ()

/-- `FileBackend::write_page` for page 0. -/
def writeHeaderPage (header : FileHeader C) : Io C Unit := do
  tick
  modify fun s => { s with disk := s.disk.writeHeader header, header := header }

/-- `FileBackend::sync`. -/
def sync : Io C Unit := tick

/-- `PageCache::get_or_load`. -/
def getOrLoad (id : Nat) : Io C Page := do
  let s ← get
  if s.cache.capacity = 0 then readPage crc id
  else
    match s.cache.get id with
    | some page => pure page
    | none => do
        let page ← readPage crc id
        modify fun s => { s with cache := s.cache.insertNew id page }
        pure page

/-- A page written through the cache, as every index page is. -/
def writeCached (id : Nat) (page : Page) : Io C Unit := do
  writePage crc id page
  modify fun s => { s with cache := s.cache.putDirty id page }

/-- `hash_pages`. -/
def hashPages (h : H) (first : Nat) : Nat → Io C H
  | 0 => pure h
  | n + 1 => do
      let page ← readPage crc first
      hashPages (crc.update h page.val) (first + 1) n

def computePageChecksum (first n : Nat) : Io C C := do
  let h ← hashPages crc crc.new first n
  pure (crc.finalize h)

end Backend
end Minigraf
