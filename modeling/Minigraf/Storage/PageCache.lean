import Mathlib.Data.List.AList
import Mathlib.Logic.Function.Basic
import Mathlib.Logic.Relation

/-!
The page cache of `src/storage/cache.rs` over any kind of page: a map of pages, and the order
in which they were put in, by which the first goes when there is no room.

A load that misses reads the backend without a lock, so anything but a write to its page can
come between the read and the page being put in. A page that was written is not loaded before
the cache is told.
-/

namespace Minigraf

structure CacheEntry (P : Type) where
  data : P
  dirty : Bool

structure SharedPageCache (P : Type) where
  entries : AList fun _ : Nat => CacheEntry P
  /-- Least recently used first. -/
  order : List Nat
  capacity : Nat

namespace SharedPageCache

variable {P : Type}

def new (capacity : Nat) : SharedPageCache P := ⟨∅, [], capacity⟩

/-- Move a page to the back. -/
def touch (order : List Nat) (pageId : Nat) : List Nat :=
  if pageId ∈ order then
    if order.getLast? = some pageId then order else order.erase pageId ++ [pageId]
  else order ++ [pageId]

/-- Take pages out from the front until there is room for one. -/
def evict (capacity : Nat) (entries : AList fun _ : Nat => CacheEntry P) :
    List Nat → (AList fun _ : Nat => CacheEntry P) × List Nat
  | [] => (entries, [])
  | id :: order =>
      if capacity ≤ entries.keys.length ∧ 0 < capacity then evict capacity (entries.erase id) order
      else (entries, id :: order)

/-- Put in a page that is not there. -/
def insert (c : SharedPageCache P) (pageId : Nat) (entry : CacheEntry P) : SharedPageCache P :=
  let (entries, order) := evict c.capacity c.entries c.order
  { c with entries := entries.insert pageId entry, order := order ++ [pageId] }

/-- The end of a load that missed: another one may have been faster. -/
def install (c : SharedPageCache P) (pageId : Nat) (data : P) : P × SharedPageCache P :=
  match c.entries.lookup pageId with
  | some entry => (entry.data, c)
  | none => (data, c.insert pageId ⟨data, false⟩)

def getOrLoad (c : SharedPageCache P) (pageId : Nat) (backend : Nat → Option P) : Option P × SharedPageCache P :=
  if c.capacity = 0 then (backend pageId, c)
  else
    match c.entries.lookup pageId with
    | some entry => (some entry.data, c)
    | none =>
        match backend pageId with
        | none => (none, c)
        | some data =>
            let (page, c) := c.install pageId data
            (some page, c)

def putDirty (c : SharedPageCache P) (pageId : Nat) (data : P) : SharedPageCache P :=
  if c.capacity = 0 then c
  else if pageId ∈ c.entries then
    { c with entries := c.entries.insert pageId ⟨data, true⟩, order := touch c.order pageId }
  else c.insert pageId ⟨data, true⟩

def invalidate (c : SharedPageCache P) (pageId : Nat) : SharedPageCache P :=
  { c with entries := c.entries.erase pageId, order := c.order.filter fun id => decide (id ≠ pageId) }

/-- `retain` on the map. -/
def retain (entries : AList fun _ : Nat => CacheEntry P) (keep : Nat → Bool) :
    AList fun _ : Nat => CacheEntry P :=
  ⟨entries.entries.filter fun entry => keep entry.1, entries.nodupKeys.sublist (List.filter_sublist)⟩

def invalidateFrom (c : SharedPageCache P) (fromPage : Nat) : SharedPageCache P :=
  { c with
    entries := retain c.entries fun id => decide (id < fromPage)
    order := c.order.filter fun id => decide (id < fromPage) }

/-! ## Map and order -/

/-- The order lists the cached pages, and they are within the capacity. -/
structure Ok (c : SharedPageCache P) : Prop where
  listed : c.order.Perm c.entries.keys
  bounded : c.entries.keys.length ≤ c.capacity

theorem Ok.nodup {c : SharedPageCache P} (h : c.Ok) : c.order.Nodup := h.listed.nodup_iff.mpr c.entries.keys_nodup

theorem Ok.mem_iff {c : SharedPageCache P} (h : c.Ok) (pageId : Nat) : pageId ∈ c.order ↔ pageId ∈ c.entries :=
  h.listed.mem_iff.trans AList.mem_keys.symm

theorem new_ok (capacity : Nat) : (new capacity : SharedPageCache P).Ok := ⟨.refl _, Nat.zero_le _⟩

theorem touch_perm {order : List Nat} {pageId : Nat} (mem : pageId ∈ order) : (touch order pageId).Perm order := by
  rw [touch, if_pos mem]
  split
  · exact .refl _
  · have front : (order.erase pageId ++ [pageId]).Perm (pageId :: order.erase pageId) := List.perm_append_singleton _ _
    exact front.trans (List.perm_cons_erase mem).symm

/-- What taking pages out leaves. -/
structure Evicted (capacity : Nat) (entries : AList fun _ : Nat => CacheEntry P) (order : List Nat)
    (left : (AList fun _ : Nat => CacheEntry P) × List Nat) : Prop where
  listed : left.2.Perm left.1.keys
  kept : ∀ id entry, left.1.lookup id = some entry → entries.lookup id = some entry
  sub : ∀ id ∈ left.2, id ∈ order
  room : 0 < capacity → left.1.keys.length < capacity

theorem lookup_erase_some {entries : AList fun _ : Nat => CacheEntry P} {pageId id : Nat} {entry : CacheEntry P}
    (found : (entries.erase pageId).lookup id = some entry) : id ≠ pageId ∧ entries.lookup id = some entry := by
  have other : id ≠ pageId := by
    intro same
    rw [same, AList.lookup_erase] at found
    cases found
  rw [AList.lookup_erase_ne other] at found
  exact ⟨other, found⟩

theorem evict_spec (capacity : Nat) (order : List Nat) (entries : AList fun _ : Nat => CacheEntry P)
    (listed : order.Perm entries.keys) : Evicted capacity entries order (evict capacity entries order) := by
  induction order generalizing entries with
  | nil =>
      refine ⟨listed, fun _ _ found => found, fun _ mem => mem, fun some => ?_⟩
      rw [evict, ← listed.length_eq]
      exact some
  | cons id order ih =>
      rw [evict]
      split
      · have rest : order.Perm (entries.erase id).keys := by
          rw [AList.keys_erase]
          apply (List.perm_cons id).mp
          have mem : id ∈ entries.keys := listed.subset List.mem_cons_self
          exact listed.trans (List.perm_cons_erase mem)
        have left := ih (entries.erase id) rest
        exact ⟨left.listed, fun id' entry found => (lookup_erase_some (left.kept id' entry found)).2,
          fun id' mem => List.mem_cons_of_mem _ (left.sub id' mem), left.room⟩
      · refine ⟨listed, fun _ _ found => found, fun _ mem => mem, fun some => ?_⟩
        dsimp only
        omega

theorem insert_ok {c : SharedPageCache P} (h : c.Ok) (some : 0 < c.capacity) {pageId : Nat} (missing : pageId ∉ c.entries)
    (entry : CacheEntry P) : (c.insert pageId entry).Ok := by
  have left := evict_spec c.capacity c.order c.entries h.listed
  have absent : pageId ∉ (evict c.capacity c.entries c.order).1.keys := by
    intro mem
    exact missing ((h.mem_iff pageId).mp (left.sub pageId (left.listed.mem_iff.mpr mem)))
  have keys : (c.insert pageId entry).entries.keys = pageId :: (evict c.capacity c.entries c.order).1.keys := by
    change (AList.insert pageId entry _).keys = _
    rw [AList.keys_insert, List.erase_of_not_mem absent]
  constructor
  · rw [keys]
    exact (List.perm_append_singleton _ _).trans (left.listed.cons _)
  · rw [keys]
    exact left.room some

theorem lookup_insert {c : SharedPageCache P} (h : c.Ok) {pageId id : Nat} {entry found : CacheEntry P}
    (here : (c.insert pageId entry).entries.lookup id = some found) :
    id = pageId ∧ found = entry ∨ c.entries.lookup id = some found := by
  have left := evict_spec c.capacity c.order c.entries h.listed
  simp only [insert] at here
  by_cases same : id = pageId
  · rw [same, AList.lookup_insert] at here
    exact .inl ⟨same, (Option.some.inj here).symm⟩
  · rw [AList.lookup_insert_ne same] at here
    exact .inr (left.kept id found here)

theorem install_ok {c : SharedPageCache P} (h : c.Ok) (some : 0 < c.capacity) (pageId : Nat) (data : P) :
    (c.install pageId data).2.Ok := by
  rw [install]
  split
  · exact h
  · exact insert_ok h some (AList.lookup_eq_none.mp (by assumption)) _

theorem getOrLoad_ok {c : SharedPageCache P} (h : c.Ok) (pageId : Nat) (backend : Nat → Option P) :
    (c.getOrLoad pageId backend).2.Ok := by
  rw [getOrLoad]
  split
  · exact h
  · split
    · exact h
    · split
      · exact h
      · exact install_ok h (by omega) pageId _

theorem putDirty_ok {c : SharedPageCache P} (h : c.Ok) (pageId : Nat) (data : P) : (c.putDirty pageId data).Ok := by
  rw [putDirty]
  split
  · exact h
  · split
    · rename_i cached
      have mem : pageId ∈ c.entries.keys := AList.mem_keys.mp cached
      have keys : (c.entries.insert pageId ⟨data, true⟩).keys.Perm c.entries.keys := by
        rw [AList.keys_insert]
        exact (List.perm_cons_erase mem).symm
      constructor
      · exact ((touch_perm ((h.mem_iff pageId).mpr cached)).trans h.listed).trans keys.symm
      · exact keys.length_eq ▸ h.bounded
    · exact insert_ok h (by omega) (by assumption) _

theorem invalidate_ok {c : SharedPageCache P} (h : c.Ok) (pageId : Nat) : (c.invalidate pageId).Ok := by
  have keys : (c.entries.erase pageId).keys = c.entries.keys.filter fun id => decide (id ≠ pageId) := by
    rw [AList.keys_erase, c.entries.keys_nodup.erase_eq_filter]
    apply List.filter_congr
    intro id _
    by_cases same : id = pageId <;> simp [same]
  constructor
  · change (c.order.filter _).Perm (c.entries.erase pageId).keys
    rw [keys]
    exact h.listed.filter _
  · change (c.entries.erase pageId).keys.length ≤ _
    rw [keys]
    exact Nat.le_trans (List.length_filter_le _ _) h.bounded

theorem keys_retain (entries : AList fun _ : Nat => CacheEntry P) (keep : Nat → Bool) :
    (retain entries keep).keys = entries.keys.filter keep := by
  change (entries.entries.filter _).map _ = (entries.entries.map _).filter _
  rw [List.filter_map]
  rfl

theorem lookup_retain {entries : AList fun _ : Nat => CacheEntry P} {keep : Nat → Bool} {id : Nat}
    {entry : CacheEntry P} (found : (retain entries keep).lookup id = some entry) :
    keep id = true ∧ entries.lookup id = some entry := by
  have mem : Sigma.mk id entry ∈ (retain entries keep).entries := AList.mem_lookup_iff.mp found
  obtain ⟨there, kept⟩ := List.mem_filter.mp mem
  exact ⟨kept, AList.mem_lookup_iff.mpr there⟩

theorem invalidateFrom_ok {c : SharedPageCache P} (h : c.Ok) (fromPage : Nat) : (c.invalidateFrom fromPage).Ok := by
  constructor
  · change (c.order.filter _).Perm (retain c.entries _).keys
    rw [keys_retain]
    exact h.listed.filter _
  · change (retain c.entries _).keys.length ≤ _
    rw [keys_retain]
    exact Nat.le_trans (List.length_filter_le _ _) h.bounded

theorem Ok.lookup_of_disabled {c : SharedPageCache P} (h : c.Ok) (disabled : c.capacity = 0) (id : Nat) :
    c.entries.lookup id = none := by
  have empty : c.entries.keys = [] := List.length_eq_zero_iff.mp (Nat.le_zero.mp (disabled ▸ h.bounded))
  apply AList.lookup_eq_none.mpr
  rw [AList.mem_keys, empty]
  exact List.not_mem_nil

theorem capacity_install (c : SharedPageCache P) (pageId : Nat) (data : P) :
    (c.install pageId data).2.capacity = c.capacity := by
  rw [install]
  split <;> rfl

/-- A load that changes the cache puts in a page of the backend. -/
theorem getOrLoad_cases (c : SharedPageCache P) (pageId : Nat) (backend : Nat → Option P) :
    (c.getOrLoad pageId backend).2 = c ∨
      ∃ data, backend pageId = some data ∧ (c.getOrLoad pageId backend).2 = (c.install pageId data).2 := by
  rw [getOrLoad]
  split
  · exact .inl rfl
  · split
    · exact .inl rfl
    · split
      · exact .inl rfl
      · exact .inr ⟨_, by assumption, rfl⟩

theorem capacity_getOrLoad (c : SharedPageCache P) (pageId : Nat) (backend : Nat → Option P) :
    (c.getOrLoad pageId backend).2.capacity = c.capacity := by
  cases getOrLoad_cases c pageId backend with
  | inl same => rw [same]
  | inr new =>
      obtain ⟨data, _, same⟩ := new
      rw [same, capacity_install]

theorem capacity_putDirty (c : SharedPageCache P) (pageId : Nat) (data : P) :
    (c.putDirty pageId data).capacity = c.capacity := by
  rw [putDirty]
  split
  · rfl
  · split <;> rfl

theorem lookup_putDirty {c : SharedPageCache P} (h : c.Ok) {pageId id : Nat} {data : P} {found : CacheEntry P}
    (here : (c.putDirty pageId data).entries.lookup id = some found) :
    id = pageId ∧ found = ⟨data, true⟩ ∨ id ≠ pageId ∧ c.entries.lookup id = some found := by
  by_cases disabled : c.capacity = 0
  · rw [putDirty, if_pos disabled, h.lookup_of_disabled disabled] at here
    cases here
  · by_cases same : id = pageId
    · left
      rw [putDirty, if_neg disabled] at here
      split at here
      · rw [same, AList.lookup_insert] at here
        exact ⟨same, (Option.some.inj here).symm⟩
      · cases lookup_insert h here with
        | inl new => exact new
        | inr old =>
            rw [same, AList.lookup_eq_none.mpr (by assumption)] at old
            cases old
    · refine .inr ⟨same, ?_⟩
      rw [putDirty, if_neg disabled] at here
      split at here
      · rwa [AList.lookup_insert_ne same] at here
      · cases lookup_insert h here with
        | inl new => exact absurd new.1 same
        | inr old => exact old

end SharedPageCache

/-! ## Backend and cache -/

/-- The pages of the backend, the cache, the pages written since the cache was last told of
them, and the loads that have read the backend and not ended. -/
structure CacheWorld (P : Type) where
  backend : Nat → Option P
  cache : SharedPageCache P
  stale : List Nat
  loading : List (Nat × P)

namespace CacheWorld

variable {P : Type}

def start (capacity : Nat) (backend : Nat → Option P) : CacheWorld P := ⟨backend, SharedPageCache.new capacity, [], []⟩

inductive Step (w : CacheWorld P) : CacheWorld P → Prop where
  | write (pageId : Nat) (data : P) (unread : ∀ load ∈ w.loading, load.1 ≠ pageId) :
      Step w { w with backend := Function.update w.backend pageId (some data), stale := pageId :: w.stale }
  | putDirty (pageId : Nat) (data : P) (written : w.backend pageId = some data) :
      Step w { w with
        cache := w.cache.putDirty pageId data
        stale := w.stale.filter fun id => decide (id ≠ pageId) }
  | invalidate (pageId : Nat) :
      Step w { w with
        cache := w.cache.invalidate pageId
        stale := w.stale.filter fun id => decide (id ≠ pageId) }
  | invalidateFrom (fromPage : Nat) :
      Step w { w with
        cache := w.cache.invalidateFrom fromPage
        stale := w.stale.filter fun id => decide (id < fromPage) }
  /-- A load with nothing in between. -/
  | getOrLoad (pageId : Nat) (told : pageId ∉ w.stale) :
      Step w { w with cache := (w.cache.getOrLoad pageId w.backend).2 }
  /-- A load up to its read of the backend. -/
  | read (pageId : Nat) (data : P) (told : pageId ∉ w.stale) (enabled : w.cache.capacity ≠ 0)
      (missing : pageId ∉ w.cache.entries) (there : w.backend pageId = some data) :
      Step w { w with loading := (pageId, data) :: w.loading }
  /-- The rest of it. -/
  | install (before after : List (Nat × P)) (pageId : Nat) (data : P)
      (loading : w.loading = before ++ (pageId, data) :: after) :
      Step w { w with cache := (w.cache.install pageId data).2, loading := before ++ after }

/-- What every run keeps. -/
structure Coherent (capacity : Nat) (w : CacheWorld P) : Prop where
  ok : w.cache.Ok
  same : w.cache.capacity = capacity
  cached : ∀ id entry, w.cache.entries.lookup id = some entry → id ∉ w.stale → w.backend id = some entry.data
  loads : ∀ load ∈ w.loading, load.1 ∉ w.stale ∧ w.backend load.1 = some load.2
  enabled : w.loading ≠ [] → capacity ≠ 0

theorem start_coherent (capacity : Nat) (backend : Nat → Option P) : (start capacity backend).Coherent capacity :=
  ⟨SharedPageCache.new_ok capacity, rfl, fun _ _ no => (nomatch no), fun _ no => (nomatch no), fun no => absurd rfl no⟩

theorem Coherent.install {capacity : Nat} {w : CacheWorld P} (h : w.Coherent capacity) {pageId : Nat} {data : P}
    (there : w.backend pageId = some data) (id : Nat) (entry : CacheEntry P)
    (found : (w.cache.install pageId data).2.entries.lookup id = some entry) (told : id ∉ w.stale) :
    w.backend id = some entry.data := by
  rw [SharedPageCache.install] at found
  cases cached : w.cache.entries.lookup pageId with
  | some entry' =>
      rw [cached] at found
      exact h.cached id entry found told
  | none =>
      rw [cached] at found
      cases SharedPageCache.lookup_insert h.ok found with
      | inl new => rw [new.1, new.2, there]
      | inr old => exact h.cached id entry old told

/-- A load returns what the backend has. -/
theorem Coherent.getOrLoad {capacity : Nat} {w : CacheWorld P} (h : w.Coherent capacity) {pageId : Nat}
    (told : pageId ∉ w.stale) : (w.cache.getOrLoad pageId w.backend).1 = w.backend pageId := by
  rw [SharedPageCache.getOrLoad]
  split
  · rfl
  · cases cached : w.cache.entries.lookup pageId with
    | some entry => exact (h.cached pageId entry cached told).symm
    | none =>
        cases there : w.backend pageId with
        | none => rfl
        | some data => simp [SharedPageCache.install, cached]

theorem Coherent.installed {capacity : Nat} {w : CacheWorld P} (h : w.Coherent capacity) {load : Nat × P}
    (mem : load ∈ w.loading) : w.backend load.1 = some (w.cache.install load.1 load.2).1 := by
  have ⟨told, there⟩ := h.loads load mem
  rw [SharedPageCache.install]
  cases cached : w.cache.entries.lookup load.1 with
  | some entry => exact h.cached load.1 entry cached told
  | none => exact there

theorem not_mem_stale {w : CacheWorld P} {pageId id : Nat} (other : id ≠ pageId)
    (told : id ∉ w.stale.filter fun id => decide (id ≠ pageId)) : id ∉ w.stale :=
  fun mem => told (List.mem_filter.mpr ⟨mem, decide_eq_true other⟩)

theorem Coherent.step {capacity : Nat} {w w' : CacheWorld P} (h : w.Coherent capacity) (step : w.Step w') :
    w'.Coherent capacity := by
  cases step with
  | write pageId data unread =>
      refine ⟨h.ok, h.same, fun id entry found told => ?_, fun load mem => ?_, h.enabled⟩
      · have other : id ≠ pageId := fun same => told (same ▸ List.mem_cons_self)
        refine (Function.update_of_ne other _ _).trans ?_
        exact h.cached id entry found fun mem => told (List.mem_cons_of_mem _ mem)
      · have other := unread load mem
        refine ⟨?_, (Function.update_of_ne other _ _).trans (h.loads load mem).2⟩
        intro stale
        cases List.mem_cons.mp stale with
        | inl here => exact other here
        | inr there => exact (h.loads load mem).1 there
  | putDirty pageId data written =>
      refine ⟨SharedPageCache.putDirty_ok h.ok pageId data, ?_, fun id entry found told => ?_, fun load mem => ?_, h.enabled⟩
      · exact (SharedPageCache.capacity_putDirty _ _ _).trans h.same
      · cases SharedPageCache.lookup_putDirty h.ok found with
        | inl new => rw [new.1, new.2, written]
        | inr old => exact h.cached id entry old.2 (not_mem_stale old.1 told)
      · have ⟨told, there⟩ := h.loads load mem
        exact ⟨fun mem => told (List.mem_of_mem_filter mem), there⟩
  | invalidate pageId =>
      refine ⟨SharedPageCache.invalidate_ok h.ok pageId, h.same, fun id entry found told => ?_, fun load mem => ?_, h.enabled⟩
      · have ⟨other, there⟩ := SharedPageCache.lookup_erase_some found
        exact h.cached id entry there (not_mem_stale other told)
      · have ⟨told, there⟩ := h.loads load mem
        exact ⟨fun mem => told (List.mem_of_mem_filter mem), there⟩
  | invalidateFrom fromPage =>
      refine ⟨SharedPageCache.invalidateFrom_ok h.ok fromPage, h.same, fun id entry found told => ?_, fun load mem => ?_,
        h.enabled⟩
      · have ⟨below, there⟩ := SharedPageCache.lookup_retain found
        exact h.cached id entry there fun mem => told (List.mem_filter.mpr ⟨mem, below⟩)
      · have ⟨told, there⟩ := h.loads load mem
        exact ⟨fun mem => told (List.mem_of_mem_filter mem), there⟩
  | getOrLoad pageId told =>
      refine ⟨SharedPageCache.getOrLoad_ok h.ok pageId w.backend, (SharedPageCache.capacity_getOrLoad _ _ _).trans h.same,
        fun id entry found told' => ?_, h.loads, h.enabled⟩
      cases SharedPageCache.getOrLoad_cases w.cache pageId w.backend with
      | inl same =>
          rw [same] at found
          exact h.cached id entry found told'
      | inr new =>
          obtain ⟨data, there, same⟩ := new
          rw [same] at found
          exact h.install there id entry found told'
  | read pageId data told enabled missing there =>
      refine ⟨h.ok, h.same, h.cached, fun load mem => ?_, fun _ => h.same ▸ enabled⟩
      cases mem with
      | head => exact ⟨told, there⟩
      | tail _ mem => exact h.loads load mem
  | install before after pageId data loading =>
      have some : w.loading ≠ [] := by
        rw [loading]
        simp
      have inside : ∀ load ∈ before ++ after, load ∈ w.loading := by
        intro load mem
        rw [loading]
        cases List.mem_append.mp mem with
        | inl front => exact List.mem_append_left _ front
        | inr back => exact List.mem_append_right _ (List.mem_cons_of_mem _ back)
      have ⟨_, there⟩ := h.loads (pageId, data) (by
        rw [loading]
        exact List.mem_append_right _ List.mem_cons_self)
      have room : 0 < w.cache.capacity := h.same ▸ Nat.pos_of_ne_zero (h.enabled some)
      exact ⟨SharedPageCache.install_ok h.ok room pageId data, (SharedPageCache.capacity_install _ _ _).trans h.same,
        h.install there, fun load mem => h.loads load (inside load mem), fun _ => h.enabled some⟩

/-- The cache is coherent in every state of every run: its order lists the cached pages once
each, they are within the capacity, and a load returns what the backend has. -/
theorem load_coherent (capacity : Nat) (backend : Nat → Option P) (w : CacheWorld P)
    (run : Relation.ReflTransGen Step (start capacity backend) w) :
    w.cache.order.Nodup ∧ (∀ pageId, pageId ∈ w.cache.order ↔ pageId ∈ w.cache.entries) ∧
      w.cache.entries.keys.length ≤ capacity ∧
      (∀ pageId, pageId ∉ w.stale → (w.cache.getOrLoad pageId w.backend).1 = w.backend pageId) ∧
      ∀ load ∈ w.loading, w.backend load.1 = some (w.cache.install load.1 load.2).1 := by
  have h : w.Coherent capacity := by
    induction run with
    | refl => exact start_coherent capacity backend
    | tail _ step ih => exact ih.step step
  exact ⟨h.ok.nodup, h.ok.mem_iff, h.same ▸ h.ok.bounded, fun _ => h.getOrLoad, fun _ => h.installed⟩

/-- A page is cached, written and put. -/
theorem load_coherent_one : ∃ w : CacheWorld Nat,
    Relation.ReflTransGen Step (start 1 fun _ => some 5) w ∧ (w.cache.getOrLoad 7 w.backend).1 = some 6 := by
  have cached : Relation.ReflTransGen Step (start 1 fun _ => some 5) _ := .single (.getOrLoad 7 (by simp [start]))
  have written := cached.tail (.write 7 6 (by simp [start]))
  have put := written.tail (.putDirty 7 6 (by simp))
  have loads := (load_coherent 1 (fun _ => some 5) _ put).2.2.2.1 7 (by simp)
  exact ⟨_, put, loads.trans (by simp)⟩

end CacheWorld
end Minigraf
