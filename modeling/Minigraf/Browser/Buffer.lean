import Minigraf.Lib.Sorted
import Minigraf.Storage.Header

/-!
The page buffer of a database in the browser, `src/browser/buffer.rs`: the pages in memory,
and which of them were written since the last flush to IndexedDB.
-/

namespace Minigraf

inductive BufferError where
  | int051 (len : Nat)
  | int052 (pageId : Nat)
  deriving DecidableEq

/-- Pages by their ids. -/
abbrev Pages := OrdMap Nat (List UInt8)

/-- `put` of each page of a batch. -/
def Pages.putAll (pages : Pages) (batch : List (Nat × List UInt8)) : Pages :=
  batch.foldl (fun pages entry => pages.insert entry.1 entry.2) pages

structure BrowserBufferBackend where
  pages : Pages
  dirty : OrdMap Nat Unit

namespace BrowserBufferBackend

def new : BrowserBufferBackend := ⟨.empty, .empty⟩

def loadPages (pages : Pages) : BrowserBufferBackend := ⟨pages, .empty⟩

def loadPagesAllDirty (pages : Pages) : BrowserBufferBackend :=
  ⟨pages, pages.entries.foldl (fun dirty entry => dirty.insert entry.1 ()) .empty⟩

def takeDirty (b : BrowserBufferBackend) : List Nat × BrowserBufferBackend :=
  (b.dirty.entries.map Prod.fst, { b with dirty := .empty })

def writePage (b : BrowserBufferBackend) (pageId : Nat) (data : List UInt8) :
    Except BufferError BrowserBufferBackend :=
  if data.length ≠ PAGE_SIZE then throw (.int051 data.length)
  else pure ⟨b.pages.insert pageId data, b.dirty.insert pageId ()⟩

def readPage (b : BrowserBufferBackend) (pageId : Nat) : Except BufferError (List UInt8) :=
  match b.pages.get? pageId with
  | some data => pure data
  | none => throw (.int052 pageId)

def pageCount (b : BrowserBufferBackend) : Nat := b.pages.entries.length

def isNew (b : BrowserBufferBackend) : Bool := b.pages.isEmpty

/-- The pages a save writes, one by one. -/
def writePages (b : BrowserBufferBackend) : List (Nat × List UInt8) → Except BufferError BrowserBufferBackend
  | [] => pure b
  | (pageId, data) :: writes => do
      let b ← b.writePage pageId data
      b.writePages writes

/-- `take_dirty_pages`: the ids are taken even where a page cannot be read. -/
def takeDirtyPages (b : BrowserBufferBackend) :
    Except BufferError (List (Nat × List UInt8)) × BrowserBufferBackend :=
  let (ids, b) := b.takeDirty
  (ids.mapM fun pageId => do
    let data ← b.readPage pageId
    pure (pageId, data), b)

end BrowserBufferBackend

/-! ## Maps -/

@[simp] theorem OrdMap.get?_empty {K V : Type} [LinearOrder K] (key : K) : (OrdMap.empty : OrdMap K V).get? key = none := rfl

namespace Pages

theorem get?_putAll_of_not_mem {pages : Pages} {batch : List (Nat × List UInt8)} {id : Nat}
    (other : id ∉ batch.map Prod.fst) : (pages.putAll batch).get? id = pages.get? id := by
  induction batch generalizing pages with
  | nil => rfl
  | cons entry batch ih =>
      rw [List.map_cons, List.mem_cons, not_or] at other
      rw [putAll, List.foldl_cons]
      exact (ih other.2).trans ((OrdMap.get?_insert _ _ _ _).trans (if_neg other.1))

theorem get?_putAll_of_mem {pages : Pages} {batch : List (Nat × List UInt8)} (nodup : (batch.map Prod.fst).Nodup)
    {entry : Nat × List UInt8} (mem : entry ∈ batch) : (pages.putAll batch).get? entry.1 = some entry.2 := by
  induction batch generalizing pages with
  | nil => cases mem
  | cons first batch ih =>
      rw [List.map_cons, List.nodup_cons] at nodup
      rw [putAll, List.foldl_cons]
      rcases List.mem_cons.mp mem with rfl | mem
      · exact (get?_putAll_of_not_mem nodup.1).trans ((OrdMap.get?_insert _ _ _ _).trans (if_pos rfl))
      · exact ih nodup.2 mem

end Pages

/-! ## The buffer -/

namespace BrowserBufferBackend

variable {b b' : BrowserBufferBackend}

/-- The page was written since the last flush. -/
def IsDirty (b : BrowserBufferBackend) (id : Nat) : Prop := b.dirty.get? id = some ()

/-- Every dirty page is there. -/
def Sound (b : BrowserBufferBackend) : Prop := ∀ id, b.IsDirty id → (b.pages.get? id).isSome = true

theorem mem_dirty {id : Nat} : id ∈ b.dirty.entries.map Prod.fst ↔ b.IsDirty id := by
  rw [IsDirty, OrdMap.get?_eq_some, List.mem_map]
  constructor
  · rintro ⟨entry, mem, rfl⟩
    exact mem
  · intro mem
    exact ⟨_, mem, rfl⟩

theorem writePage_spec {pageId : Nat} {data : List UInt8} (wrote : b.writePage pageId data = .ok b') (id : Nat) :
    b'.pages.get? id = (if id = pageId then some data else b.pages.get? id) ∧
      (b'.IsDirty id ↔ id = pageId ∨ b.IsDirty id) := by
  unfold writePage at wrote
  by_cases wrong : data.length ≠ PAGE_SIZE
  · rw [if_pos wrong] at wrote
    cases wrote
  · rw [if_neg wrong] at wrote
    cases wrote
    refine ⟨OrdMap.get?_insert _ _ _ _, ?_⟩
    rw [IsDirty, OrdMap.get?_insert]
    by_cases same : id = pageId
    · simp [same]
    · simp [same, IsDirty]

/-- Writes leave the pages that are not dirty behind them as they were. -/
theorem writePages_spec {writes : List (Nat × List UInt8)} (wrote : b.writePages writes = .ok b') :
    (∀ id, b.IsDirty id → b'.IsDirty id) ∧ (∀ id, ¬ b'.IsDirty id → b'.pages.get? id = b.pages.get? id) ∧
      (b.Sound → b'.Sound) := by
  induction writes generalizing b with
  | nil =>
      cases wrote
      exact ⟨fun _ => id, fun _ _ => rfl, id⟩
  | cons write writes ih =>
      obtain ⟨pageId, data⟩ := write
      cases first : b.writePage pageId data with
      | error e =>
          simp only [writePages, first, bind, Except.bind] at wrote
          cases wrote
      | ok middle =>
          simp only [writePages, first, bind, Except.bind] at wrote
          have one := writePage_spec first
          obtain ⟨kept, clean, sound⟩ := ih wrote
          refine ⟨fun id dirty => kept id ((one id).2.mpr (.inr dirty)), fun id calm => ?_, fun before => sound ?_⟩
          · rw [clean id calm, (one id).1, if_neg]
            intro same
            exact calm (kept id ((one id).2.mpr (.inl same)))
          · intro id dirty
            rw [(one id).1]
            by_cases same : id = pageId
            · rw [if_pos same]
              rfl
            · rw [if_neg same]
              exact before id (((one id).2.mp dirty).resolve_left same)

/-- The pages of some ids, where all are there. -/
theorem mapM_readPage {ids : List Nat} (there : ∀ id ∈ ids, (b.pages.get? id).isSome = true) :
    (ids.mapM fun pageId => do
      let data ← b.readPage pageId
      pure (pageId, data) : Except BufferError _) = .ok (ids.map fun id => (id, (b.pages.get? id).getD [])) := by
  induction ids with
  | nil => rfl
  | cons id ids ih =>
      obtain ⟨data, found⟩ := Option.isSome_iff_exists.mp (there id List.mem_cons_self)
      have rest := ih fun other mem => there other (List.mem_cons_of_mem id mem)
      have read : b.readPage id = .ok data := by
        rw [readPage, found]
        rfl
      rw [List.mapM_cons, rest, read, List.map_cons, found]
      rfl

/-- The pages that are taken are the dirty ones, each as it is. -/
theorem takeDirtyPages_ok (sound : b.Sound) : ∃ batch, b.takeDirtyPages = (.ok batch, { b with dirty := .empty }) ∧
    (batch.map Prod.fst).Nodup ∧ (∀ id, id ∈ batch.map Prod.fst ↔ b.IsDirty id) ∧
      ∀ entry ∈ batch, b.pages.get? entry.1 = some entry.2 := by
  have there : ∀ id ∈ b.dirty.entries.map Prod.fst, (b.pages.get? id).isSome = true := fun id mem =>
    sound id (mem_dirty.mp mem)
  have ids : ((b.dirty.entries.map Prod.fst).map fun id => (id, (b.pages.get? id).getD [])).map Prod.fst =
      b.dirty.entries.map Prod.fst := by
    rw [List.map_map]
    exact List.map_id _
  refine ⟨(b.dirty.entries.map Prod.fst).map fun id => (id, (b.pages.get? id).getD []), ?_, ?_, fun id => ?_, ?_⟩
  · have read := mapM_readPage (b := { b with dirty := .empty }) there
    simp only [takeDirtyPages, takeDirty]
    rw [read]
  · rw [ids]
    exact List.pairwise_map.mpr (b.dirty.sorted.imp fun less => less.ne)
  · rw [ids, mem_dirty]
  · intro entry mem
    obtain ⟨id, hid, rfl⟩ := List.mem_map.mp mem
    obtain ⟨data, found⟩ := Option.isSome_iff_exists.mp (there id hid)
    rw [found]
    rfl

theorem loadPagesAllDirty_dirty (pages : Pages) (id : Nat) :
    (loadPagesAllDirty pages).IsDirty id ↔ (pages.get? id).isSome = true := by
  have each : ∀ (entries : List (Nat × List UInt8)) (dirty : OrdMap Nat Unit),
      (entries.foldl (fun dirty entry => dirty.insert entry.1 ()) dirty).get? id = some () ↔
        dirty.get? id = some () ∨ id ∈ entries.map Prod.fst := by
    intro entries
    induction entries with
    | nil => simp
    | cons entry entries ih =>
        intro dirty
        rw [List.foldl_cons, ih, OrdMap.get?_insert, List.map_cons, List.mem_cons, ← or_assoc]
        by_cases same : id = entry.1
        · simp [same]
        · simp [same]
  rw [IsDirty, loadPagesAllDirty, each, OrdMap.get?_empty, Option.isSome_iff_exists]
  simp only [OrdMap.get?_eq_some, List.mem_map, Prod.exists, exists_and_right, exists_eq_right, reduceCtorEq, false_or]

end BrowserBufferBackend
end Minigraf
