import Minigraf.Lib.Frame
import Minigraf.Storage.PersistentFacts

/-!
What saving does to any store, in good order or not. Whatever the entries are, and
wherever they stop, the programs that write trees from a page on touch no page before it
and commit nothing, so a save never touches a committed fact page.
-/

namespace Minigraf

open EStateM

section Trees

variable {H C : Type} (crc : Crc H C) {n : Nat}

/-- What only a header that commits something changes. -/
def FileHeader.marks (h : FileHeader C) : UInt64 × Nat × Roots :=
  (h.lastCheckpointedTxCount, h.factPageCount, h.roots)

/-- The data pages before page `n` and the marks of the header are kept. -/
structure Dev.Kept (n : Nat) (s t : Dev C) : Prop where
  header : t.header.marks = s.header.marks
  disk : s.disk.header.marks = s.header.marks → t.disk.header.marks = s.header.marks
  page : ∀ i, i < n → t.disk.page i = s.disk.page i

instance : IsPreorder (Dev C) (Dev.Kept n) where
  refl _ := ⟨rfl, id, fun _ _ => rfl⟩
  trans _ _ _ h h' := by
    refine ⟨h'.header.trans h.header, fun synced => ?_, fun i low => (h'.page i low).trans (h.page i low)⟩
    rw [← h.header]
    exact h'.disk (by rw [h.header]; exact h.disk synced)

/-- A step in memory. -/
theorem Dev.Kept.mem {s t : Dev C} (disk : t.disk = s.disk) (header : t.header = s.header) :
    Dev.Kept n s t :=
  ⟨by rw [header], fun synced => by rw [disk]; exact synced, fun _ _ => by rw [disk]⟩

/-- The front of the file and nothing about the value. -/
abbrev KeepsFront (n : Nat) {α : Type} (x : Io C α) : Prop := Moves (Dev.Kept n) x fun _ => True

theorem keepsFront_tick : KeepsFront n (tick : Io C Unit) := by
  intro s
  unfold tick
  simp only [wp_bind, wp_get]
  split
  · exact ⟨refl_of _ s, trivial⟩
  · exact .mem rfl rfl
  · exact ⟨.mem rfl rfl, trivial⟩

theorem keepsFront_readPage (id : Nat) : KeepsFront n (readPage crc id) := by
  refine moves_get.bind fun s _ => ?_
  refine moves_ite (fun _ => moves_throw _) fun _ => ?_
  refine moves_ite (fun _ => moves_throw _) fun _ => ?_
  refine moves_ite (fun _ => moves_throw _) fun _ => ?_
  exact moves_ite (fun _ => moves_pure trivial) fun _ => moves_pure trivial

theorem keepsFront_writePage {id : Nat} (page : Page) (beyond : n ≤ id) :
    KeepsFront n (writePage crc id page) := by
  refine moves_ite (fun _ => moves_throw _) fun _ => ?_
  refine keepsFront_tick.bind fun _ _ => ?_
  refine Moves.bind (moves_modify fun s => ⟨rfl, fun synced => synced, fun i low => ?_⟩) fun _ _ => ?_
  · exact Function.update_of_ne (by omega) _ _
  refine moves_get.bind fun s _ => ?_
  refine moves_ite (fun _ => ?_) fun _ => moves_pure trivial
  refine Moves.bind (moves_modify fun _ => ⟨rfl, fun synced => synced, fun _ _ => rfl⟩) fun _ _ => ?_
  refine keepsFront_tick.bind fun _ _ => ?_
  exact Moves.bind (moves_modify fun _ => ⟨rfl, fun _ => rfl, fun _ _ => rfl⟩) fun _ _ => keepsFront_tick

theorem keepsFront_getOrLoad (id : Nat) : KeepsFront n (getOrLoad crc id) := by
  refine moves_get.bind fun s _ => ?_
  refine moves_ite (fun _ => keepsFront_readPage crc id) fun _ => ?_
  split
  · exact moves_pure trivial
  · refine (keepsFront_readPage crc id).bind fun _ _ => ?_
    exact Moves.bind (moves_modify fun _ => .mem rfl rfl) fun _ _ => moves_pure trivial

theorem keepsFront_writeCached {id : Nat} (page : Page) (beyond : n ≤ id) :
    KeepsFront n (writeCached crc id page) :=
  (keepsFront_writePage crc page beyond).bind fun _ _ => moves_modify fun _ => .mem rfl rfl

theorem keepsFront_writeLeafPage {id : Nat} (entries : List (List UInt8)) (nextLeaf : Nat)
    (beyond : n ≤ id) : KeepsFront n (writeLeafPage crc id entries nextLeaf) :=
  (moves_ofResult _).bind fun page _ => keepsFront_writeCached crc page beyond

theorem keepsFront_writeNodes {next : Nat} (beyond : n ≤ next)
    (nodes : List (NodeInfo × List NodeInfo)) : KeepsFront n (writeNodes crc next nodes) := by
  induction nodes generalizing next with
  | nil => exact moves_pure trivial
  | cons node nodes ih =>
      have written : KeepsFront n (writeInternalPage crc next ((Greedy.members node).map Prod.fst)
          (node.2.map Prod.snd)) :=
        (moves_ofResult _).bind fun page _ => keepsFront_writeCached crc page beyond
      exact written.bind fun _ _ => ih (by omega)

/-- A tree goes behind the pages that are kept, and the next one behind it. -/
theorem moves_buildInternalLevels (level : List NodeInfo) {next : Nat} (beyond : n ≤ next) :
    Moves (Dev.Kept n) (buildInternalLevels crc level next) fun r => n ≤ r.2 := by
  induction level, next using buildInternalLevels.induct with
  | case1 next =>
      rw [buildInternalLevels]
      exact moves_throw _
  | case2 next node =>
      rw [buildInternalLevels]
      exact moves_pure beyond
  | case3 next first second rest nodes ih =>
      rw [buildInternalLevels]
      exact (keepsFront_writeNodes crc beyond _).bind fun _ _ => ih (by omega)

section Entries

variable {K : Type} (codec : IndexCodec K)

theorem keepsFront_writeLeaves {next : Nat} (beyond : n ≤ next)
    (leaves : List ((K × FactRef) × List (K × FactRef))) :
    KeepsFront n (writeLeaves crc codec next leaves) := by
  induction leaves generalizing next with
  | nil => exact moves_pure trivial
  | cons leaf leaves ih =>
      exact (keepsFront_writeLeafPage crc _ 0 beyond).bind fun _ _ => ih (by omega)

theorem keepsFront_patchLeaves {id : Nat} (beyond : n ≤ id) (count : Nat) :
    KeepsFront n (patchLeaves crc id count) := by
  induction count generalizing id with
  | zero => exact moves_pure trivial
  | succ count ih =>
      refine (keepsFront_getOrLoad crc id).bind fun cached _ => ?_
      refine (moves_ofResult _).bind fun page _ => ?_
      exact (keepsFront_writeCached crc page beyond).bind fun _ _ => ih (by omega)

theorem moves_buildBtree (entries : List (K × FactRef)) {start : Nat} (beyond : n ≤ start) :
    Moves (Dev.Kept n) (buildBtree crc codec entries start) fun r => n ≤ r.2 := by
  rw [buildBtree]
  split
  · exact (keepsFront_writeLeafPage crc [] 0 beyond).bind fun _ _ => moves_pure (by simp only; omega)
  · refine (keepsFront_writeLeaves crc codec beyond _).bind fun _ _ => ?_
    refine (keepsFront_patchLeaves crc beyond _).bind fun _ _ => ?_
    exact moves_buildInternalLevels crc _ (by omega)

/-- The page the emitter holds and the one it gives next lie behind the kept pages. -/
structure LeafEmitter.Beyond (emitter : LeafEmitter) (n : Nat) : Prop where
  held : ∀ p ∈ emitter.held, n ≤ p.1
  next : n ≤ emitter.nextPage

theorem keepsFront_releaseHeld {held : Option (Nat × Page)} (beyond : ∀ p ∈ held, n ≤ p.1)
    (nextLeaf : Nat) : KeepsFront n (releaseHeld crc held nextLeaf) := by
  cases held with
  | none => exact moves_pure trivial
  | some p => exact (moves_ofResult _).bind fun page _ => keepsFront_writeCached crc page (beyond p rfl)

theorem LeafEmitter.Beyond.moves_push {emitter : LeafEmitter} (h : emitter.Beyond n) (page : Page)
    (firstKeyBytes : List UInt8) :
    Moves (Dev.Kept n) (emitter.push crc page firstKeyBytes) fun e => e.Beyond n := by
  refine (keepsFront_releaseHeld crc h.held _).bind fun _ _ => moves_pure ⟨?_, ?_⟩
  · rintro p ⟨⟩
    exact h.next
  · exact h.next.trans (Nat.le_succ _)

theorem LeafEmitter.Beyond.moves_emitPacked {emitter : LeafEmitter} (h : emitter.Beyond n)
    (entries : List (K × FactRef)) :
    Moves (Dev.Kept n) (emitPacked crc codec emitter entries) fun e => e.Beyond n := by
  rw [emitPacked]
  generalize packLeaves codec (emitFull (emitTarget codec entries)) entries = leaves
  induction leaves generalizing emitter with
  | nil => exact moves_pure h
  | cons leaf leaves ih =>
      refine (moves_ofResult _).bind fun page _ => ?_
      exact (h.moves_push crc page _).bind fun e he => ih he

variable [LinearOrder K]

theorem LeafEmitter.Beyond.moves_rebuildLeaves {emitter : LeafEmitter} (h : emitter.Beyond n)
    (leaves : List (Page × K)) (pending : List (K × FactRef)) :
    Moves (Dev.Kept n) (rebuildLeaves crc codec emitter leaves pending) fun e => e.Beyond n := by
  induction leaves generalizing emitter pending with
  | nil => exact moves_pure h
  | cons leaf later ih =>
      refine Moves.bind (Q := fun e => e.Beyond n) ?_ fun e he => ih he _
      refine moves_ite (fun _ => h.moves_push crc _ _) fun _ => ?_
      exact (moves_ofResult _).bind fun old _ => h.moves_emitPacked crc codec _

theorem moves_rebuildBtreeIncremental (oldLeaves : List Page) (pending : List (K × FactRef))
    {start : Nat} (beyond : n ≤ start) :
    Moves (Dev.Kept n) (rebuildBtreeIncremental crc codec oldLeaves pending start)
      fun r => n ≤ r.2 := by
  refine (moves_ofResult _).bind fun leaves _ => ?_
  refine moves_ite (fun _ => moves_buildBtree crc codec pending beyond) fun _ => ?_
  have none_ : LeafEmitter.Beyond ⟨start, none, []⟩ n := ⟨(fun _ no => nomatch no), beyond⟩
  refine (none_.moves_rebuildLeaves crc codec _ _).bind fun emitter h => ?_
  refine Moves.bind (Q := fun r => n ≤ r.2) ?_ fun r hr => moves_buildInternalLevels crc _ hr
  exact (keepsFront_releaseHeld crc h.held 0).bind fun _ _ => moves_pure h.next

end Entries

theorem moves_chainTrees {eavt aevt avet vaet : Nat → Io C (Nat × Nat)} {start : Nat} (beyond : n ≤ start)
    (heavt : ∀ start, n ≤ start → Moves (Dev.Kept n) (eavt start) fun r => n ≤ r.2)
    (haevt : ∀ start, n ≤ start → Moves (Dev.Kept n) (aevt start) fun r => n ≤ r.2)
    (havet : ∀ start, n ≤ start → Moves (Dev.Kept n) (avet start) fun r => n ≤ r.2)
    (hvaet : ∀ start, n ≤ start → Moves (Dev.Kept n) (vaet start) fun r => n ≤ r.2) :
    Moves (Dev.Kept n) (chainTrees eavt aevt avet vaet start) fun r => n ≤ r.2 := by
  refine (heavt start beyond).bind fun r hr => ?_
  refine (haevt r.2 hr).bind fun r hr => ?_
  refine (havet r.2 hr).bind fun r hr => ?_
  exact (hvaet r.2 hr).bind fun r hr => moves_pure hr

theorem moves_rebuildIndexes (postcard : Postcard) (old : OldLeaves) (placed : List (Fact × FactRef))
    {start : Nat} (beyond : n ≤ start) :
    Moves (Dev.Kept n) (rebuildIndexes crc postcard old placed start) fun r => n ≤ r.2 :=
  moves_chainTrees beyond (fun _ h => moves_rebuildBtreeIncremental crc _ _ _ h)
    (fun _ h => moves_rebuildBtreeIncremental crc _ _ _ h)
    (fun _ h => moves_rebuildBtreeIncremental crc _ _ _ h)
    (fun _ h => moves_rebuildBtreeIncremental crc _ _ _ h)

theorem moves_buildIndexes (postcard : Postcard) (placed : List (Fact × FactRef)) {start : Nat}
    (beyond : n ≤ start) :
    Moves (Dev.Kept n) (buildIndexes crc postcard placed start) fun r => n ≤ r.2 :=
  moves_chainTrees beyond (fun _ h => moves_buildBtree crc _ _ h) (fun _ h => moves_buildBtree crc _ _ h)
    (fun _ h => moves_buildBtree crc _ _ h) (fun _ h => moves_buildBtree crc _ _ h)

end Trees

/-! ## Reading -/

section Reads

variable {H C : Type} (crc : Crc H C) {n : Nat}

theorem keepsFront_leftmostLeaf (bound id : Nat) : KeepsFront n (leftmostLeaf crc bound id) := by
  induction bound generalizing id with
  | zero => exact moves_throw _
  | succ bound ih =>
      refine (keepsFront_getOrLoad crc id).bind fun page _ => ?_
      refine moves_ite (fun _ => moves_pure trivial) fun _ => ?_
      refine moves_ite (fun _ => ?_) fun _ => moves_throw _
      exact (moves_ofResult _).bind fun _ _ => (moves_ofResult _).bind fun child _ => ih child

theorem keepsFront_collectLeaves (room id : Nat) : KeepsFront n (collectLeaves crc room id) := by
  induction room generalizing id with
  | zero => exact (keepsFront_getOrLoad crc id).bind fun _ _ => moves_throw _
  | succ room ih =>
      refine (keepsFront_getOrLoad crc id).bind fun page _ => ?_
      refine moves_ite (fun _ => moves_throw _) fun _ => ?_
      refine (moves_ofResult _).bind fun _ _ => ?_
      refine (moves_ofResult _).bind fun nextLeaf _ => ?_
      refine moves_ite (fun _ => moves_pure trivial) fun _ => ?_
      exact (ih nextLeaf).bind fun _ _ => moves_pure trivial

theorem keepsFront_oldLeaves (root : Nat) : KeepsFront n (oldLeaves crc root) := by
  refine moves_ite (fun _ => moves_pure trivial) fun _ => ?_
  refine moves_get.bind fun s _ => ?_
  refine Moves.bind (Q := fun _ => True) ?_ fun leaf _ => keepsFront_collectLeaves crc _ leaf
  refine Moves.bind (Q := fun _ => True) ?_ fun bound _ => keepsFront_leftmostLeaf crc bound root
  exact moves_get.bind fun _ _ => moves_pure trivial

theorem keepsFront_collectOldLeaves (header : FileHeader C) : KeepsFront n (collectOldLeaves crc header) := by
  refine (keepsFront_oldLeaves crc _).bind fun _ _ => ?_
  refine (keepsFront_oldLeaves crc _).bind fun _ _ => ?_
  refine (keepsFront_oldLeaves crc _).bind fun _ _ => ?_
  exact (keepsFront_oldLeaves crc _).bind fun _ _ => moves_pure trivial

theorem keepsFront_hashPages (h : H) (first count : Nat) : KeepsFront n (hashPages crc h first count) := by
  induction count generalizing h first with
  | zero => exact moves_pure trivial
  | succ count ih => exact (keepsFront_readPage crc first).bind fun _ _ => ih _ _

theorem keepsFront_computePageChecksum (first count : Nat) :
    KeepsFront n (computePageChecksum crc first count) :=
  (keepsFront_hashPages crc _ first count).bind fun _ _ => moves_pure trivial

end Reads

/-! ## Fact pages -/

section FactPages

variable {H C : Type} (crc : Crc H C)

theorem wp_writePage_front (s : Dev C) (id : Nat) (page : Page) :
    Wp (writePage crc id page) s
      (fun _ t => Dev.Kept id s t ∧ t.disk.page = Function.update s.disk.page id page)
      (fun _ t => Dev.Kept id s t ∧ (t.disk.page = s.disk.page ∨
        t.disk.page = Function.update s.disk.page id page)) := by
  have kept := (keepsFront_writePage crc page (le_refl id)).wp s
  refine (kept.and ?_).mono (fun _ _ h => h) fun _ _ h => h
  rw [writePage]
  refine wp_ite (fun _ => .inl rfl) fun _ => ?_
  simp only [wp_bind]
  apply wp_tick
  · intro _ _
    simp only [wp_modify, wp_get]
    refine wp_ite (fun _ => ?_) fun _ => rfl
    simp only [wp_bind, wp_modify]
    apply wp_tick
    · intro _ _
      apply wp_tick
      · intro _ _
        rfl
      · intro _
        exact .inr rfl
    · intro _
      exact .inr rfl
  · intro _
    exact .inl rfl

/-- The fact pages are written one after the other: whatever stops them, a page is as it
was or one of them. -/
theorem wp_writeFactPages_front (s : Dev C) (start : Nat) (pages : List Page) :
    Wp (writeFactPages crc start pages) s
      (fun _ t => Dev.Kept start s t ∧ ∀ k p, pages[k]? = some p → t.disk.page (start + k) = p)
      (fun _ t => Dev.Kept start s t ∧
        ∀ i, t.disk.page i = s.disk.page i ∨ t.disk.page i ∈ pages) := by
  induction pages generalizing s start with
  | nil => exact ⟨refl_of _ s, fun _ _ no => nomatch no⟩
  | cons page pages ih =>
      rw [writeFactPages, wp_bind]
      refine (wp_writePage_front crc s start page).mono ?_ ?_
      · rintro _ t ⟨kept, written⟩
        refine (ih t (start + 1)).mono ?_ ?_
        · rintro _ u ⟨kept', written'⟩
          have first : u.disk.page start = page := by
            rw [kept'.page start (Nat.lt_succ_self start), written, Function.update_self]
          refine ⟨trans_of _ kept ⟨kept'.header, kept'.disk, fun i low => kept'.page i (by omega)⟩,
            fun k p hp => ?_⟩
          cases k with
          | zero =>
              cases hp
              exact first
          | succ k =>
              rw [show start + (k + 1) = start + 1 + k by omega]
              exact written' k p hp
        · rintro _ u ⟨kept', each⟩
          refine ⟨trans_of _ kept ⟨kept'.header, kept'.disk, fun i low => kept'.page i (by omega)⟩,
            fun i => ?_⟩
          obtain same | new := each i
          · by_cases here : i = start
            · refine .inr ?_
              rw [same, here, written, Function.update_self]
              exact List.mem_cons_self
            · refine .inl ?_
              rw [same, written, Function.update_of_ne here]
          · exact .inr (List.mem_cons_of_mem _ new)
      · rintro _ t ⟨kept, same | same⟩
        · exact ⟨kept, fun i => .inl (by rw [same])⟩
        · refine ⟨kept, fun i => ?_⟩
          by_cases here : i = start
          · refine .inr ?_
            rw [same, here, Function.update_self]
            exact List.mem_cons_self
          · refine .inl ?_
            rw [same, Function.update_of_ne here]

end FactPages

/-! ## Saving -/

section Saving

variable {H C : Type} (crc : Crc H C) (postcard : Postcard)

/-- The file with a header that commits `pages` behind the committed fact pages. -/
structure Store.Passed (s : Store H C) (pages : List Page) (t : Dev C) : Prop where
  header : t.header = t.disk.header
  last : t.disk.header.lastCheckpointedTxCount = s.storage.txCounter
  count : t.disk.header.factPageCount = s.committedFactPages + pages.length
  kept : ∀ i, i ≤ s.committedFactPages → t.disk.page i = s.dev.disk.page i
  written : ∀ k p, pages[k]? = some p → t.disk.page (1 + s.committedFactPages + k) = p

/-- The file a save leaves that failed: as it was, with fact pages over the old ones, or
with the header that commits them. -/
inductive Store.Left (s : Store H C) (t : Dev C) : Prop
  | untouched (kept : ∀ n, Dev.Kept n s.dev t)
  | partly (pages : List Page) (refs : List FactRef)
      (packed : packFacts postcard.fact s.storage.facts (1 + s.committedFactPages) = .ok (pages, refs))
      (kept : Dev.Kept (1 + s.committedFactPages) s.dev t)
      (page : ∀ i, i ≤ s.committedFactPages + pages.length →
        t.disk.page i = s.dev.disk.page i ∨ t.disk.page i ∈ pages)
  | whole (pages : List Page) (refs : List FactRef)
      (packed : packFacts postcard.fact s.storage.facts (1 + s.committedFactPages) = .ok (pages, refs))
      (passed : s.Passed pages t)

/-- The store after a save that was not in vain. -/
structure Store.PassedOn (s t : Store H C) : Prop where
  dev : ∃ pages refs, packFacts postcard.fact s.storage.facts (1 + s.committedFactPages) =
    .ok (pages, refs) ∧ s.Passed pages t.dev ∧ t.committedFactPages = s.committedFactPages + pages.length
  facts : t.storage.facts = []
  counter : t.storage.txCounter = s.storage.txCounter
  dirty : t.dirty = false

/-- The store after a save that failed. -/
structure Store.LeftAt (s t : Store H C) : Prop where
  dev : s.Left postcard t.dev
  storage : t.storage = s.storage
  pages : t.committedFactPages = s.committedFactPages
  dirty : t.dirty = s.dirty

theorem keepsFront_currentHeader {n : Nat} : KeepsFront n (currentHeader crc) := by
  refine moves_get.bind fun d _ => ?_
  split
  · exact moves_pure trivial
  · exact moves_ite (fun _ => moves_pure trivial) fun _ => moves_throw _

theorem keepsFront_hashFactPages {n : Nat} (cached : Option (Nat × H)) (oldCount newPages : Nat) :
    KeepsFront n (hashFactPages crc cached oldCount newPages) := by
  cases cached with
  | none => exact keepsFront_hashPages crc _ _ _
  | some cached =>
      exact moves_ite (fun _ => keepsFront_hashPages crc _ _ _) fun _ => keepsFront_hashPages crc _ _ _

/-- What a save does to any store that has something to save. -/
theorem wp_save_left (s : Store H C) (dirty : s.dirty = true) :
    Wp (save crc postcard) s (fun _ t => s.PassedOn postcard t) (fun _ t => s.LeftAt postcard t) := by
  rw [save, wp_bind, wp_get, dirty]
  simp only [Bool.not_true, Bool.false_eq_true, if_false, wp_bind, onDev, wp_zoom]
  have early {d : Dev C} (kept : ∀ n, Dev.Kept n s.dev d) : s.LeftAt postcard { s with dev := d } :=
    ⟨.untouched kept, rfl, rfl, rfl⟩
  refine (wp_forall fun n => (keepsFront_currentHeader crc).wp s.dev).mono ?_ fun _ _ => early
  intro curr d₀ kept₀
  refine (wp_forall fun n => (keepsFront_collectOldLeaves crc curr).wp d₀).mono ?_ fun _ _ kept =>
    early fun n => trans_of _ (kept₀ n) (kept n)
  intro old d₁ kept₁
  simp only [wp_modify]
  generalize hd₂ : ({ d₁ with cache := d₁.cache.invalidateFrom (1 + s.committedFactPages) } : Dev C) = d₂
  have kept₂ (n : Nat) : Dev.Kept n s.dev d₂ := by
    have cached : Dev.Kept n d₁ d₂ := .mem (by rw [← hd₂]) (by rw [← hd₂])
    exact trans_of _ (trans_of _ (kept₀ n) (kept₁ n)) cached
  cases hpacked : packFacts postcard.fact s.storage.facts (1 + s.committedFactPages) with
  | error e => exact early kept₂
  | ok result =>
      obtain ⟨pages, refs⟩ := result
      rw [ofResult, wp_pure]
      dsimp only
      have page₂ (i : Nat) : d₂.disk.page i = s.dev.disk.page i :=
        (kept₂ (i + 1)).page i (Nat.lt_succ_self i)
      refine (wp_writeFactPages_front crc d₂ (1 + s.committedFactPages) pages).mono ?_ ?_
      · rintro _ d₃ ⟨kept₃, written⟩
        have kept₃' : Dev.Kept (1 + s.committedFactPages) s.dev d₃ := trans_of _ (kept₂ _) kept₃
        -- From here on the fact pages stay as they are, whatever becomes of the indexes.
        have behind {d : Dev C} (kept : Dev.Kept (1 + s.committedFactPages + pages.length) d₃ d)
            {i : Nat} (low : i ≤ s.committedFactPages + pages.length) :
            d.disk.page i = d₃.disk.page i := kept.page i (by omega)
        have late {d : Dev C} {cached : Option (Nat × H)}
            (kept : Dev.Kept (1 + s.committedFactPages + pages.length) d₃ d) :
            s.LeftAt postcard ⟨d, s.storage, s.dirty, s.lastCheckpointedTxCount, s.committedFactPages,
              cached⟩ := by
          refine ⟨.partly pages refs hpacked ?_ fun i low => ?_, rfl, rfl, rfl⟩
          · exact trans_of _ kept₃' ⟨kept.header, kept.disk, fun i low => kept.page i (by omega)⟩
          · rw [behind kept low]
            by_cases old : i < 1 + s.committedFactPages
            · exact .inl (kept₃'.page i old)
            · refine .inr ?_
              have here : pages[i - (1 + s.committedFactPages)]? = some pages[i - (1 + s.committedFactPages)] :=
                List.getElem?_eq_getElem (by omega)
              have same := written _ _ here
              rw [Nat.add_sub_cancel' (by omega)] at same
              rw [same]
              exact List.getElem_mem _
        refine (keepsFront_tick.wp d₃).mono ?_ fun _ _ => late
        intro _ d₄ kept₄
        refine ((moves_rebuildIndexes crc postcard old _
          (by omega : 1 + s.committedFactPages + pages.length ≤ _)).wp d₄).mono ?_ fun _ _ kept =>
            late (trans_of _ kept₄ kept)
        rintro ⟨roots, next⟩ d₅ kept₅
        have kept₅' := trans_of _ kept₄ kept₅
        refine (keepsFront_tick.wp d₅).mono ?_ fun _ _ kept => late (trans_of _ kept₅' kept)
        intro _ d₆ kept₆
        have kept₆' := trans_of _ kept₅' kept₆
        simp only [commitSave, takePrefix, onDev, wp_bind, wp_modifyGet, wp_zoom]
        refine ((keepsFront_hashFactPages crc _ _ _).wp d₆).mono ?_ fun _ _ kept =>
          late (trans_of _ kept₆' kept)
        intro factHash d₇ kept₇
        have kept₇' := trans_of _ kept₆' kept₇
        refine ((keepsFront_hashPages crc _ _ _).wp d₇).mono ?_ fun _ _ kept =>
          late (trans_of _ kept₇' kept)
        intro hasher d₈ kept₈
        have kept₈' := trans_of _ kept₇' kept₈
        refine wp_ite (fun _ => late kept₈') fun _ => ?_
        simp only [writeHeaderPage, sync, publish, onFacts, wp_bind, wp_zoom]
        have passed {header : FileHeader C} (f : Option Nat)
            (last : header.lastCheckpointedTxCount = s.storage.txCounter)
            (count : header.factPageCount = s.committedFactPages + pages.length) :
            s.Passed pages { d₈ with disk := d₈.disk.writeHeader header, header := header, faults := f } := by
          refine ⟨rfl, last, count, fun i low => ?_, fun k p hp => ?_⟩
          · exact (behind kept₈' (by omega)).trans (kept₃'.page i (by omega))
          · have inside := (List.getElem?_eq_some_iff.mp hp).1
            exact (behind kept₈' (by omega)).trans (written k p hp)
        apply wp_tick
        · intro f _
          simp only [wp_modify]
          apply wp_tick
          · intro g _
            exact ⟨⟨pages, refs, hpacked, passed g rfl rfl, rfl⟩, rfl, rfl, rfl⟩
          · intro _
            exact ⟨.whole pages refs hpacked (passed none rfl rfl), rfl, rfl, rfl⟩
        · intro _
          refine late (trans_of _ kept₈' ?_)
          exact .mem rfl rfl
      · rintro _ d₃ ⟨kept₃, each⟩
        refine ⟨.partly pages refs hpacked (trans_of _ (kept₂ _) kept₃) fun i _ => ?_, rfl, rfl, rfl⟩
        rw [← page₂]
        exact each i

end Saving
end Minigraf
