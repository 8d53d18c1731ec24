import Mathlib.Logic.Relation
import Minigraf.Storage.Device

/-!
What a run of page writes can leave behind, wherever it stops. Every write is one of
three effects on the open file, and everything a later proof needs of an unfinished
run is an invariant of these effects.
-/

namespace Minigraf

open Bytes EStateM

variable {H C : Type} (crc : Crc H C)

/-- The page count is raised when a write reaches past the known pages. -/
def Dev.growTo (s : Dev C) (id : Nat) : FileHeader C :=
  if s.header.pageCount ≤ id then s.header.grown crc (id + 1) else s.header

/-- The effects of writing data pages `ok` admits, none of which leaves a gap: the
cache and the fault plan may change, a page is written and counted, and the counted
header reaches the disk. -/
inductive PageStep (ok : Nat → Page → Prop) : Dev C → Dev C → Prop
  | other (s : Dev C) (cache : PageCache) (faults : Option Nat) :
      PageStep ok s { s with cache := cache, faults := faults }
  | page (s : Dev C) (id : Nat) (p : Page) (admitted : ok id p)
      (dense : id ≤ s.header.pageCount) (near : id * PAGE_SIZE < 2 ^ 64) :
      PageStep ok s { s with disk := s.disk.writePage id p, header := s.growTo crc id }
  | flush (s : Dev C) : PageStep ok s { s with disk := s.disk.writeHeader s.header }

abbrev Writes (ok : Nat → Page → Prop) : Dev C → Dev C → Prop :=
  Relation.ReflTransGen (PageStep crc ok)

/-- A header and the header it has become by growing. -/
def FileHeader.Grown (h h' : FileHeader C) : Prop :=
  h' = h ∨ ∃ n, h.pageCount < n ∧ h' = h.grown crc n

theorem FileHeader.grown_grown (h : FileHeader C) (n m : Nat) :
    (h.grown crc n).grown crc m = h.grown crc m := rfl

section Steps

variable {crc} {ok : Nat → Page → Prop} {s t u : Dev C}

theorem Writes.mono {ok' : Nat → Page → Prop} (h : Writes crc ok s t)
    (weaken : ∀ id p, ok id p → ok' id p) : Writes crc ok' s t := by
  induction h with
  | refl => exact .refl
  | tail _ step ih =>
      cases step with
      | other cache faults => exact ih.tail (.other _ cache faults)
      | page id p admitted dense near => exact ih.tail (.page _ id p (weaken id p admitted) dense near)
      | flush => exact ih.tail (.flush _)

theorem FileHeader.Grown.growTo {h : FileHeader C} (grown : h.Grown crc s.header) (id : Nat) :
    h.Grown crc (s.growTo crc id) := by
  unfold Dev.growTo
  split
  · rename_i beyond
    obtain same | ⟨n, hn, same⟩ := grown
    · exact .inr ⟨id + 1, by rw [← same]; omega, by rw [same]⟩
    · have count : s.header.pageCount = n := by rw [same]; rfl
      exact .inr ⟨id + 1, by omega, by rw [same, FileHeader.grown_grown]⟩
  · exact grown

theorem Writes.header (h : Writes crc ok s t) : s.header.Grown crc t.header := by
  induction h with
  | refl => exact .inl rfl
  | tail _ step ih =>
      cases step with
      | other => exact ih
      | page id p _ _ _ => exact ih.growTo id
      | flush => exact ih

theorem Dev.growTo_pageCount (s : Dev C) (id : Nat) :
    (s.growTo crc id).pageCount = max s.header.pageCount (id + 1) := by
  unfold Dev.growTo
  split
  · simp only [FileHeader.grown]
    omega
  · omega

theorem Writes.pageCount_le (h : Writes crc ok s t) : s.header.pageCount ≤ t.header.pageCount := by
  obtain same | ⟨n, hn, same⟩ := h.header
  · rw [same]
  · rw [same]
    exact hn.le

/-- Every counted page has its offset. -/
theorem Writes.limit (h : Writes crc ok s t) {limit : Nat}
    (far : ∀ id, id * PAGE_SIZE < 2 ^ 64 → id < limit) (start : s.header.pageCount ≤ limit) :
    t.header.pageCount ≤ limit := by
  induction h with
  | refl => exact start
  | tail _ step ih =>
      cases step with
      | other => exact ih
      | flush => exact ih
      | page id p _ _ near =>
          rw [Dev.growTo_pageCount]
          exact max_le ih (far id near)

/-- The disk's header never runs ahead of the backend's. -/
theorem Writes.diskHeader (h : Writes crc ok s t) (synced : s.disk.header = s.header) :
    s.header.Grown crc t.disk.header ∧ t.disk.header.pageCount ≤ t.header.pageCount := by
  induction h with
  | refl => exact ⟨.inl synced, by rw [synced]⟩
  | tail writes step ih =>
      cases step with
      | other => exact ih
      | page id p _ _ _ =>
          refine ⟨ih.1, ?_⟩
          rw [Dev.growTo_pageCount]
          exact ih.2.trans (Nat.le_max_left _ _)
      | flush => exact ⟨Writes.header writes, le_rfl⟩

theorem Writes.isNew (h : Writes crc ok s t) : t.isNew = s.isNew := by
  induction h with
  | refl => rfl
  | tail _ step ih =>
      cases step with
      | other => exact ih
      | page => exact ih
      | flush => exact ih

/-- Every page is what it was or what was admitted. -/
theorem Writes.page (h : Writes crc ok s t) (id : Nat) :
    t.disk.page id = s.disk.page id ∨ ok id (t.disk.page id) := by
  induction h with
  | refl => exact .inl rfl
  | tail _ step ih =>
      cases step with
      | other => exact ih
      | flush => exact ih
      | page id' p admitted _ _ =>
          simp only [Disk.writePage]
          by_cases here : id = id'
          · subst here
            rw [Function.update_self]
            exact .inr admitted
          · rw [Function.update_of_ne here]
            exact ih

/-- A file whose counted pages from `lo` on are all of a kind keeps them so. -/
theorem Writes.counted (h : Writes crc ok s t) {lo : Nat} {P : Nat → Page → Prop}
    (before : ∀ id, lo ≤ id → id < s.header.pageCount → P id (s.disk.page id))
    (kind : ∀ id p, ok id p → lo ≤ id → P id p) :
    ∀ id, lo ≤ id → id < t.header.pageCount → P id (t.disk.page id) := by
  induction h with
  | refl => exact before
  | tail _ step ih =>
      cases step with
      | other => exact ih
      | flush => exact ih
      | page id' p admitted dense _ =>
          intro id hlo hid
          rw [Dev.growTo_pageCount] at hid
          simp only [Disk.writePage]
          by_cases here : id = id'
          · subst here
            rw [Function.update_self]
            exact kind _ p admitted hlo
          · rw [Function.update_of_ne here]
            exact ih id hlo (by omega)

/-- Counted pages are inside the file. -/
theorem Writes.len (h : Writes crc ok s t) (inside : s.header.pageCount ≤ s.disk.len) :
    t.header.pageCount ≤ t.disk.len ∧ s.disk.len ≤ t.disk.len := by
  induction h with
  | refl => exact ⟨inside, le_rfl⟩
  | tail _ step ih =>
      cases step with
      | other => exact ih
      | flush => exact ih
      | page id p _ _ _ =>
          rw [Dev.growTo_pageCount]
          simp only [Disk.writePage]
          omega

end Steps

/-! ## The primitives -/

section Primitives

variable {Q : Unit → Dev C → Prop} {E : ErrorCode → Dev C → Prop} {s : Dev C}

theorem wp_tick (hok : ∀ f, (s.faults = none → f = none) → Q () { s with faults := f })
    (herr : s.faults ≠ none → E .io { s with faults := none }) : Wp (tick : Io C Unit) s Q E := by
  unfold tick
  simp only [wp_bind, wp_get]
  split
  · rename_i none_
    have := hok none fun _ => rfl
    rwa [← none_] at this
  · rename_i zero
    simp only [wp_bind, wp_modify, wp_throw]
    exact herr (by rw [zero]; simp)
  · rename_i n succ
    simp only [wp_modify]
    exact hok (some n) fun h => by rw [succ] at h; cases h

/-- The open file after a page is written and counted. -/
def Dev.put (s : Dev C) (id : Nat) (p : Page) : Dev C :=
  { s with
    disk := (s.disk.writePage id p).writeHeader
      (if s.header.pageCount ≤ id then s.growTo crc id else s.disk.header)
    header := s.growTo crc id }

/-- A page write finishes, does nothing, or stops between the page and the header or
after the header. -/
theorem wp_writePage {id : Nat} {p : Page}
    (hok : ∀ f, (s.faults = none → f = none) → id * PAGE_SIZE < 2 ^ 64 →
      Q () { s.put crc id p with faults := f })
    (hnone : s.faults ≠ none ∨ 2 ^ 64 ≤ id * PAGE_SIZE → ∀ e f, E e { s with faults := f })
    (hhalf : s.faults ≠ none → s.header.pageCount ≤ id → id * PAGE_SIZE < 2 ^ 64 → ∀ f,
      E .io { s with disk := s.disk.writePage id p, header := s.growTo crc id, faults := f })
    (hunsynced : s.faults ≠ none → s.header.pageCount ≤ id → id * PAGE_SIZE < 2 ^ 64 → ∀ f,
      E .io { s.put crc id p with faults := f }) :
    Wp (writePage crc id p) s Q E := by
  unfold writePage
  apply wp_ite
  · intro far
    exact hnone (.inr far) _ s.faults
  intro near
  simp only [wp_bind]
  apply wp_tick
  · intro f hf
    simp only [wp_modify, wp_get]
    apply wp_ite
    · intro beyond
      have grown : s.header.grown crc (id + 1) = s.growTo crc id := by
        rw [Dev.growTo, if_pos beyond]
      simp only [wp_bind, wp_modify, grown]
      apply wp_tick
      · intro g hg
        apply wp_tick
        · intro k hk
          have done := hok k (fun h => hk (hg (hf h))) (by omega)
          rw [Dev.put, if_pos beyond] at done
          exact done
        · intro failed
          have done := hunsynced (fun h => failed (hg (hf h))) beyond (by omega) none
          rw [Dev.put, if_pos beyond] at done
          exact done
      · intro failed
        exact hhalf (fun h => failed (hf h)) beyond (by omega) none
    · intro known
      have done := hok f hf (by omega)
      rw [Dev.put, if_neg known, Dev.growTo, if_neg known] at done
      exact done
  · intro failed
    exact hnone (.inl failed) _ none

end Primitives

/-! ## The cache mirrors the disk -/

/-- The cache holds pages below `bound` as the disk has them, and counted pages are
inside the file. Page 0 is not data: nothing is said of it. -/
structure Dev.Mirrors (s : Dev C) (bound : Nat) : Prop where
  inside : s.header.pageCount ≤ s.disk.len
  cached : ∀ e ∈ s.cache.entries, e.1 ≠ 0 → e.1 < bound → e.2 = s.disk.page e.1
  disabled : s.cache.capacity = 0 → s.cache.entries = []

/-- The cache mirrors the whole disk. -/
def Dev.Ok (s : Dev C) : Prop := ∀ bound, s.Mirrors bound

theorem Dev.Mirrors.mono {s : Dev C} {bound bound' : Nat} (h : s.Mirrors bound)
    (le : bound' ≤ bound) : s.Mirrors bound' :=
  ⟨h.inside, fun e he data low => h.cached e he data (low.trans_le le), h.disabled⟩

theorem Dev.Ok.inside {s : Dev C} (h : s.Ok) : s.header.pageCount ≤ s.disk.len := (h 0).inside

theorem Dev.Ok.cached {s : Dev C} (h : s.Ok) (e : Nat × Page) (he : e ∈ s.cache.entries)
    (data : e.1 ≠ 0) : e.2 = s.disk.page e.1 :=
  (h (e.1 + 1)).cached e he data (Nat.lt_succ_self _)

theorem Dev.Ok.disabled {s : Dev C} (h : s.Ok) (off : s.cache.capacity = 0) :
    s.cache.entries = [] := (h 0).disabled off

namespace PageCache

theorem mem_evict {capacity : Nat} {order : List Nat} {entries : List (Nat × Page)}
    {e : Nat × Page} (h : e ∈ (evict capacity order entries).2) : e ∈ entries := by
  induction order generalizing entries with
  | nil => exact h
  | cons id order ih =>
      rw [evict] at h
      split at h
      · exact (List.mem_filter.mp (ih h)).1
      · exact h

theorem mem_insertNew {c : PageCache} {id : Nat} {p : Page} {e : Nat × Page}
    (h : e ∈ (c.insertNew id p).entries) : e = (id, p) ∨ e ∈ c.entries := by
  obtain here | there := List.mem_cons.mp h
  · exact .inl here
  · exact .inr (mem_evict there)

theorem ne_of_get_eq_none {c : PageCache} {id : Nat} (h : c.get id = none) {e : Nat × Page}
    (he : e ∈ c.entries) : e.1 ≠ id := by
  intro same
  have := List.lookup_eq_none_iff.mp h e he
  simp [same] at this

theorem mem_of_get {c : PageCache} {id : Nat} {p : Page} (h : c.get id = some p) :
    (id, p) ∈ c.entries := by
  obtain ⟨front, back, split, _⟩ := List.lookup_eq_some_iff.mp h
  rw [split]
  simp

theorem mem_putDirty {c : PageCache} (enabled : c.capacity ≠ 0) {id : Nat} {p : Page}
    {e : Nat × Page} (h : e ∈ (c.putDirty id p).entries) :
    e = (id, p) ∨ (e ∈ c.entries ∧ e.1 ≠ id) := by
  rw [putDirty, if_neg enabled] at h
  split at h
  · obtain ⟨old, hold, rfl⟩ := List.mem_map.mp h
    by_cases same : old.1 = id
    · exact .inl (if_pos same)
    · rw [if_neg same]
      exact .inr ⟨hold, same⟩
  · rename_i absent
    have missing : c.get id = none := by simpa using absent
    obtain here | there := mem_insertNew h
    · exact .inl here
    · exact .inr ⟨there, ne_of_get_eq_none missing there⟩

theorem capacity_putDirty (c : PageCache) (id : Nat) (p : Page) :
    (c.putDirty id p).capacity = c.capacity := by
  unfold putDirty
  split
  · rfl
  · split <;> rfl

end PageCache

section Ok

variable {crc} {s : Dev C}

theorem Dev.Mirrors.withFaults {bound : Nat} (h : s.Mirrors bound) (f : Option Nat) :
    Dev.Mirrors { s with faults := f } bound :=
  ⟨h.inside, h.cached, h.disabled⟩

theorem Dev.Ok.withFaults (h : s.Ok) (f : Option Nat) : Dev.Ok { s with faults := f } :=
  fun bound => (h bound).withFaults f

/-- A page that is not cached may be written behind the cache's back. -/
theorem Dev.Mirrors.put {bound id : Nat} (h : s.Mirrors bound)
    (uncached : ∀ e ∈ s.cache.entries, e.1 < bound → e.1 ≠ id) (p : Page) :
    (s.put crc id p).Mirrors bound := by
  refine ⟨?_, ?_, h.disabled⟩
  · have := h.inside
    simp only [Dev.put, Dev.growTo_pageCount, Disk.writeHeader, Disk.writePage]
    omega
  · intro e he data low
    simp only [Dev.put, Disk.writeHeader, Disk.writePage, Function.update_of_ne (uncached e he low)]
    exact h.cached e he data low

theorem Dev.Mirrors.half {bound id : Nat} (h : s.Mirrors bound) (beyond : bound ≤ id) (p : Page) :
    Dev.Mirrors { s with disk := s.disk.writePage id p, header := s.growTo crc id } bound := by
  refine ⟨?_, ?_, h.disabled⟩
  · have := h.inside
    simp only [Dev.growTo_pageCount, Disk.writePage]
    omega
  · intro e he data low
    simp only [Disk.writePage, Function.update_of_ne (by omega : e.1 ≠ id)]
    exact h.cached e he data low

/-- A page written through the cache. -/
theorem Dev.Ok.putCached (h : s.Ok) (id : Nat) (p : Page) :
    Dev.Ok { s.put crc id p with cache := s.cache.putDirty id p } := by
  intro bound
  by_cases off : s.cache.capacity = 0
  · have empty := h.disabled off
    have kept : s.cache.putDirty id p = s.cache := by rw [PageCache.putDirty, if_pos off]
    rw [kept]
    exact (h bound).put (fun e he => by rw [empty] at he; cases he) p
  · refine ⟨?_, ?_, fun zero => absurd (by rwa [PageCache.capacity_putDirty] at zero) off⟩
    · have := h.inside
      simp only [Dev.put, Dev.growTo_pageCount, Disk.writeHeader, Disk.writePage]
      omega
    · intro e he data _
      simp only [Dev.put, Disk.writeHeader, Disk.writePage]
      obtain rfl | ⟨old, other⟩ := PageCache.mem_putDirty off he
      · rw [Function.update_self]
      · rw [Function.update_of_ne other]
        exact h.cached e old data

end Ok

/-! ## Runs of writes -/

/-- A finished run of admitted page writes. -/
structure Wrote (ok : Nat → Page → Prop) (s t : Dev C) : Prop where
  writes : Writes crc ok s t
  okay : t.Ok
  calm : s.faults = none → t.faults = none

/-- A run of admitted page writes that was cut short, by a fault or for `cause`. The
cache may have missed the last write, past the pages that were counted at the start. -/
structure Stopped (ok : Nat → Page → Prop) (cause : Prop) (s t : Dev C) : Prop where
  writes : Writes crc ok s t
  mirrors : t.Mirrors s.header.pageCount
  why : s.faults ≠ none ∨ cause

section Runs

variable {crc} {ok : Nat → Page → Prop} {s t u : Dev C}

theorem Wrote.refl (h : s.Ok) : Wrote crc ok s s := ⟨.refl, h, id⟩

theorem Wrote.trans (h : Wrote crc ok s t) (h' : Wrote crc ok t u) : Wrote crc ok s u :=
  ⟨h.writes.trans h'.writes, h'.okay, fun calm => h'.calm (h.calm calm)⟩

theorem Wrote.mono {ok' : Nat → Page → Prop} (h : Wrote crc ok s t)
    (weaken : ∀ id p, ok id p → ok' id p) : Wrote crc ok' s t :=
  ⟨h.writes.mono weaken, h.okay, h.calm⟩

theorem Wrote.stopped {cause : Prop} (h : Wrote crc ok s t) (h' : Stopped crc ok cause t u) :
    Stopped crc ok cause s u := by
  refine ⟨h.writes.trans h'.writes, h'.mirrors.mono h.writes.pageCount_le, ?_⟩
  obtain fault | why := h'.why
  · exact .inl fun calm => fault (h.calm calm)
  · exact .inr why

theorem Stopped.mono {ok' : Nat → Page → Prop} {cause cause' : Prop}
    (h : Stopped crc ok cause s t) (weaken : ∀ id p, ok id p → ok' id p)
    (hcause : cause → cause') : Stopped crc ok' cause' s t :=
  ⟨h.writes.mono weaken, h.mirrors, h.why.imp_right hcause⟩

end Runs

/-- A whole page write is a run of effects. -/
theorem Writes.put (ok : Nat → Page → Prop) (s : Dev C) {id : Nat} {p : Page}
    (dense : id ≤ s.header.pageCount) (near : id * PAGE_SIZE < 2 ^ 64) (admitted : ok id p) :
    Writes crc ok s (s.put crc id p) := by
  have page := @PageStep.page H C crc ok s id p admitted dense near
  by_cases beyond : s.header.pageCount ≤ id
  · have := (Relation.ReflTransGen.single page).tail (.flush _)
    rw [Dev.put, if_pos beyond]
    exact this
  · rw [Dev.put, if_neg beyond]
    exact .single page

/-- How a page write stops. -/
theorem wp_writePage_stopped (ok : Nat → Page → Prop) {s : Dev C} (h : s.Ok) {id : Nat} {p : Page}
    {Q : Unit → Dev C → Prop} (dense : id ≤ s.header.pageCount) (admitted : ok id p)
    (hok : ∀ f, (s.faults = none → f = none) → id * PAGE_SIZE < 2 ^ 64 →
      Q () { s.put crc id p with faults := f }) :
    Wp (writePage crc id p) s Q (fun _ t => Stopped crc ok (2 ^ 64 ≤ id * PAGE_SIZE) s t) := by
  apply wp_writePage crc hok
  · intro why e f
    exact ⟨.single (.other s s.cache f), (h _).withFaults f, why⟩
  · intro failed beyond near f
    exact ⟨(Relation.ReflTransGen.single (.page s id p admitted dense near)).tail (.other _ _ f),
      ((h _).half beyond p).withFaults f, .inl failed⟩
  · intro failed beyond near f
    refine ⟨(Writes.put crc ok s dense near admitted).tail (.other _ _ f), ?_, .inl failed⟩
    exact ((h _).put (fun e _ low => by omega) p).withFaults f

/-- What a page write through the cache does. -/
theorem wp_writeCached (ok : Nat → Page → Prop) {s : Dev C} (h : s.Ok) {id : Nat} {p : Page}
    (dense : id ≤ s.header.pageCount) (admitted : ok id p) :
    Wp (writeCached crc id p) s
      (fun _ t => Wrote crc ok s t ∧ t.disk.page = Function.update s.disk.page id p ∧
        t.header.pageCount = max s.header.pageCount (id + 1) ∧ id * PAGE_SIZE < 2 ^ 64)
      (fun _ t => Stopped crc ok (2 ^ 64 ≤ id * PAGE_SIZE) s t) := by
  unfold writeCached
  rw [wp_bind]
  apply wp_writePage_stopped crc ok h dense admitted
  intro f hf near
  rw [wp_modify]
  exact ⟨⟨(Writes.put crc ok s dense near admitted).tail (.other _ _ f), (h.putCached id p).withFaults f,
    hf⟩, rfl, s.growTo_pageCount id, near⟩

/-- What a page write behind the cache's back does. -/
theorem wp_writeUncached (ok : Nat → Page → Prop) {s : Dev C} (h : s.Ok) {id : Nat} {p : Page}
    (dense : id ≤ s.header.pageCount) (admitted : ok id p)
    (uncached : ∀ e ∈ s.cache.entries, e.1 ≠ id) :
    Wp (writePage crc id p) s
      (fun _ t => Wrote crc ok s t ∧ t.disk.page = Function.update s.disk.page id p ∧
        t.header.pageCount = max s.header.pageCount (id + 1) ∧ id * PAGE_SIZE < 2 ^ 64 ∧
        t.cache = s.cache)
      (fun _ t => Stopped crc ok (2 ^ 64 ≤ id * PAGE_SIZE) s t) := by
  apply wp_writePage_stopped crc ok h dense admitted
  intro f hf near
  refine ⟨⟨(Writes.put crc ok s dense near admitted).tail (.other _ _ f), fun bound => ?_, hf⟩, rfl,
    s.growTo_pageCount id, near, rfl⟩
  exact ((h bound).put (fun e he _ => uncached e he) p).withFaults f

/-- Reading a counted data page gives what the disk holds and only moves the cache. -/
theorem wp_getOrLoad {s : Dev C} (h : s.Ok) {id : Nat} (data : id ≠ 0) :
    Wp (getOrLoad crc id) s
      (fun p t => p = s.disk.page id ∧ ∃ cache, t = { s with cache := cache } ∧ t.Ok)
      (fun _ t => t = s ∧ (s.header.pageCount ≤ id ∨ 2 ^ 64 ≤ id * PAGE_SIZE)) := by
  have read {Q : Page → Dev C → Prop} (hread : Q (s.disk.page id) s) :
      Wp (readPage crc id) s Q
        (fun _ t => t = s ∧ (s.header.pageCount ≤ id ∨ 2 ^ 64 ≤ id * PAGE_SIZE)) := by
    unfold readPage
    simp only [wp_bind, wp_get]
    refine wp_ite (fun beyond => ⟨rfl, .inl beyond⟩) fun counted => ?_
    refine wp_ite (fun far => ⟨rfl, .inr far⟩) fun near => ?_
    refine wp_ite (fun outside => ?_) fun _ => ?_
    · have := h.inside
      omega
    · rw [if_neg data]
      exact hread
  unfold getOrLoad
  simp only [wp_bind, wp_get]
  refine wp_ite (fun off => read ⟨rfl, s.cache, rfl, h⟩) fun on => ?_
  split
  · rename_i p hp
    exact ⟨h.cached _ (PageCache.mem_of_get hp) data, s.cache, rfl, h⟩
  · rw [wp_bind]
    apply read
    rw [wp_bind, wp_modify, wp_pure]
    refine ⟨rfl, _, rfl, fun bound => ⟨h.inside, ?_, fun zero => absurd zero on⟩⟩
    intro e he data' _
    obtain rfl | old := PageCache.mem_insertNew he
    · rfl
    · exact h.cached e old data'

end Minigraf
