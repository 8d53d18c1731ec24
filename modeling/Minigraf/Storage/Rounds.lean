import Minigraf.Storage.Load

/-!
Rounds on one handle: facts become pending and a save commits them. A store in good
order is exact: the four trees hold the entries of the facts on the fact pages, and the
checksum in the header is the one a full pass over the data pages gives.
-/

namespace Minigraf

open Bytes EStateM

section Rounds

variable {H C : Type} (crc : Crc H C) (postcard : Postcard)

/-! ## Facts that fit -/

/-- The entries of an index leave room for a slot in a leaf. -/
def LeafFits {K : Type} (codec : IndexCodec K) (key : Fact → Option K)
    (placed : List (Fact × FactRef)) : Prop :=
  ∀ e ∈ entriesOf key placed, LEAF_HEADER_SIZE + 4 + (codec.entry.encode e).length ≤ PAGE_SIZE

/-- The entries of facts at their places fit a leaf of each index. -/
structure LeavesFit (placed : List (Fact × FactRef)) : Prop where
  eavt : LeafFits postcard.eavt (some ∘ Fact.eavtKey) placed
  aevt : LeafFits postcard.aevt (some ∘ Fact.aevtKey) placed
  avet : LeafFits postcard.avet (some ∘ Fact.avetKey) placed
  vaet : LeafFits postcard.vaet Fact.vaetKey placed

/-- The keys of a fact fit an internal page with one child and one slot. -/
structure Fact.KeysFit (f : Fact) : Prop where
  eavt : SepFits (postcard.eavt.key.encode f.eavtKey)
  aevt : SepFits (postcard.aevt.key.encode f.aevtKey)
  avet : SepFits (postcard.avet.key.encode f.avetKey)
  vaet : ∀ key ∈ f.vaetKey, SepFits (postcard.vaet.key.encode key)

variable {postcard} in
theorem LeafFits.entriesFit {K : Type} {codec : IndexCodec K} {key : Fact → Option K}
    {placed : List (Fact × FactRef)} (h : LeafFits codec key placed)
    (keys : ∀ p ∈ placed, ∀ k ∈ key p.1, SepFits (codec.key.encode k)) :
    EntriesFit codec key placed := by
  intro e he
  refine ⟨h e he, ?_⟩
  obtain ⟨p, hp, hkey⟩ := List.mem_filterMap.mp he
  obtain ⟨k, hk, rfl⟩ := Option.map_eq_some_iff.mp hkey
  exact keys p hp k hk

variable {postcard} in
theorem LeavesFit.indexFits {placed : List (Fact × FactRef)} (h : LeavesFit postcard placed)
    (keys : ∀ f ∈ placed.map Prod.fst, f.KeysFit postcard) : IndexFits postcard placed := by
  have fact {p : Fact × FactRef} (hp : p ∈ placed) := keys p.1 (List.mem_map_of_mem hp)
  refine ⟨h.eavt.entriesFit ?_, h.aevt.entriesFit ?_, h.avet.entriesFit ?_, h.vaet.entriesFit ?_⟩
  · rintro p hp k ⟨⟩
    exact (fact hp).eavt
  · rintro p hp k ⟨⟩
    exact (fact hp).aevt
  · rintro p hp k ⟨⟩
    exact (fact hp).avet
  · intro p hp k hk
    exact (fact hp).vaet k hk

/-! ## Exact indexes -/

/-- What `assert_indexes_and_checksum_exact` asserts, of one index. -/
def IndexExact {K : Type} [LinearOrder K] (codec : IndexCodec K) (key : Fact → Option K)
    (placed : List (Fact × FactRef)) (root : Nat) (s : Dev C) : Prop :=
  ∃ entries t, streamAllEntries crc codec root s = .ok entries t ∧
    entries.Perm (indexEntries key placed) ∧ entries.Pairwise fun a b => a.1 ≤ b.1

/-- What `assert_indexes_and_checksum_exact` asserts. -/
structure IndexesExact (s : Dev C) : Prop where
  checksum : ∃ t, computePageChecksum crc 1 (s.disk.header.pageCount - 1) s =
    .ok s.disk.header.indexChecksum t
  indexes : ∃ placed t,
    readAllWithRefs postcard.fact crc 1 s.disk.header.factPageCount s = .ok placed t ∧
    IndexExact crc postcard.eavt (some ∘ Fact.eavtKey) placed s.disk.header.eavtRootPage s ∧
    IndexExact crc postcard.aevt (some ∘ Fact.aevtKey) placed s.disk.header.aevtRootPage s ∧
    IndexExact crc postcard.avet (some ∘ Fact.avetKey) placed s.disk.header.avetRootPage s ∧
    IndexExact crc postcard.vaet Fact.vaetKey placed s.disk.header.vaetRootPage s

variable {crc} in
theorem TreeOf.exact {K : Type} [LinearOrder K] {codec : IndexCodec K} {key : Fact → Option K}
    {placed : List (Fact × FactRef)} {s : Dev C} {start stop root : Nat}
    (h : TreeOf codec key s.disk.page start stop root placed) (okay : s.Ok) (data : start ≠ 0)
    (counted : stop ≤ s.header.pageCount) (limit : stop ≤ PAGE_LIMIT) :
    IndexExact crc codec key placed root s := by
  obtain ⟨leaves, whole, tree⟩ := h
  obtain ⟨entries, t, run, _, rfl⟩ :=
    (tree.wp_streamAllEntries crc okay data counted limit).exists_ok
  exact ⟨_, t, run, whole.trans (indexEntries_perm key placed).symm, tree.sorted⟩

/-! ## Rounds -/

/-- Facts made pending, under the flag that something has to be saved. -/
def addPending (facts : List Fact) : StoreM H C Unit := do
  onFacts (appendFacts facts)
  markDirty

theorem wp_addPending (s : Store H C) (facts : List Fact) :
    Wp (addPending facts) s
      (fun _ t => Appended s.storage facts t.storage ∧
        t = { s with storage := t.storage, dirty := true })
      (fun _ t => t = s ∧ 2 ^ 32 < s.storage.facts.length + facts.length) := by
  simp only [addPending, onFacts, markDirty, wp_bind, wp_zoom, wp_modify]
  refine (wp_appendFacts s.storage facts).mono (fun _ t appended => ⟨appended, trivial⟩) ?_
  rintro _ t ⟨rfl, many⟩
  exact ⟨rfl, many⟩

variable [DecidableEq C]

/-- One round: the facts fit, and adding and saving them succeeds. -/
def Round (facts : List Fact) (s t : Store H C) : Prop :=
  ∃ mid, addPending facts s = .ok () mid ∧ (∀ f ∈ facts, f.Fits postcard.fact) ∧
    LeavesFit postcard (mid.pendingAt postcard) ∧ save crc postcard mid = .ok () t

/-- Rounds one after the other. -/
inductive Rounds (s : Store H C) : List (List Fact) → Store H C → Prop
  | start : Rounds s [] s
  | next {rounds : List (List Fact)} {facts : List Fact} {t u : Store H C}
      (earlier : Rounds s rounds t) (round : Round crc postcard facts t u) :
      Rounds s (rounds ++ [facts]) u

variable {crc postcard}

theorem Store.Clean.appended {s : Store H C} {placed : List (Fact × FactRef)} {new : List Fact}
    {storage : FactStorage} (h : s.Clean crc postcard placed)
    (appended : Appended s.storage new storage) (dirty : Bool) :
    Store.Clean crc postcard { s with storage := storage, dirty := dirty } placed :=
  h.withStorage appended.committed appended.reader (appended.ok h.pending) dirty

/-- What one round does to a store in good order with nothing pending. -/
theorem Round.saved {facts : List Fact} {s t : Store H C} {placed : List (Fact × FactRef)}
    (round : Round crc postcard facts s t) (h : s.Clean crc postcard placed)
    (none_ : s.storage.facts = []) (keys : ∀ f ∈ facts, f.KeysFit postcard) :
    ∃ new, t.Clean crc postcard (placed ++ new) ∧ t.Committed crc postcard (placed ++ new) ∧
      t.storage.facts = [] ∧ s.committedFactPages ≤ t.committedFactPages ∧
      ∀ i, i ≤ s.committedFactPages → t.dev.disk.page i = s.dev.disk.page i := by
  obtain ⟨mid, added, _, leaves, saved⟩ := round
  obtain ⟨appended, same⟩ := (wp_addPending s facts).of_ok added
  have clean : mid.Clean crc postcard placed := by
    rw [same]
    exact h.appended appended true
  have pages : mid.committedFactPages = s.committedFactPages := by rw [same]
  have disk : mid.dev.disk.page = s.dev.disk.page := by rw [same]
  have fits : IndexFits postcard (mid.pendingAt postcard) := by
    refine leaves.indexFits fun f hf => keys f ?_
    rw [Store.map_pendingAt, appended.facts, none_] at hf
    exact hf
  have done := (clean.wp_save (by rw [same]) fits).of_ok saved
  refine ⟨mid.pendingAt postcard, done.clean, done.committed, done.facts, ?_, ?_⟩
  · rw [done.pages, pages]
    exact Nat.le_add_right _ _
  · intro i low
    rw [done.kept i (by rw [pages]; exact low), disk]

/-- What rounds do to a store in good order with nothing pending. -/
theorem Rounds.saved {rounds : List (List Fact)} {s t : Store H C} {placed : List (Fact × FactRef)}
    (h : Rounds crc postcard s rounds t) (clean : s.Clean crc postcard placed)
    (none_ : s.storage.facts = []) (keys : ∀ facts ∈ rounds, ∀ f ∈ facts, f.KeysFit postcard) :
    ∃ new, t.Clean crc postcard (placed ++ new) ∧
      (rounds ≠ [] ∨ s.Committed crc postcard placed → t.Committed crc postcard (placed ++ new)) ∧
      t.storage.facts = [] ∧ s.committedFactPages ≤ t.committedFactPages ∧
      ∀ i, i ≤ s.committedFactPages → t.dev.disk.page i = s.dev.disk.page i := by
  induction h with
  | start =>
      refine ⟨[], ?_, ?_, none_, le_rfl, fun _ _ => rfl⟩
      · rwa [List.append_nil]
      · rw [List.append_nil]
        exact fun before => before.resolve_left fun no => no rfl
  | @next rounds facts t u earlier round ih =>
      obtain ⟨new, clean', _, none', more, kept⟩ :=
        ih fun facts hfacts => keys facts (List.mem_append_left _ hfacts)
      obtain ⟨new', clean'', committed, none'', more', kept'⟩ := round.saved clean' none'
        (keys facts (List.mem_append_right _ List.mem_cons_self))
      rw [List.append_assoc] at clean'' committed
      refine ⟨new ++ new', clean'', fun _ => committed, none'', more.trans more', fun i low => ?_⟩
      rw [kept' i (low.trans more), kept i low]

theorem Store.Clean.exact {s : Store H C} {placed : List (Fact × FactRef)}
    (h : s.Clean crc postcard placed) (committed : s.Committed crc postcard placed) :
    IndexesExact crc postcard s.dev := by
  have limit := h.limit
  have bounds := committed.indexed.bounds
  have inside := h.inside
  refine ⟨?_, ?_⟩
  · have read : Wp (computePageChecksum crc 1 (s.dev.header.pageCount - 1)) s.dev
        (fun r _ => r = s.dev.header.indexChecksum) (fun _ _ => False) := by
      refine (wp_computePageChecksum crc h.okay (by omega)).mono ?_ ?_
      · rintro r t ⟨_, rfl⟩
        exact committed.checksum.symm
      · rintro _ t ⟨_, why⟩
        omega
    obtain ⟨checksum, t, run, rfl⟩ := read.exists_ok
    rw [h.synced]
    exact ⟨t, run⟩
  · have read : Wp (readAllWithRefs postcard.fact crc 1 s.committedFactPages) s.dev
        (fun r _ => r = placed) (fun _ _ => False) := by
      refine (wp_readAllWithRefs crc postcard.fact h.okay.inside (by omega) h.facts).mono ?_ ?_
      · rintro r t ⟨_, rfl⟩
        rfl
      · rintro _ t ⟨_, why⟩
        omega
    obtain ⟨found, t, run, rfl⟩ := read.exists_ok
    obtain ⟨next1, next2, next3, eavt, aevt, avet, vaet⟩ := committed.indexed.trees
    have b1 := eavt.bounds
    have b2 := aevt.bounds
    have b3 := avet.bounds
    have b4 := vaet.bounds
    rw [h.synced, committed.counted]
    exact ⟨found, t, run, eavt.exact h.okay (by omega) (by omega) (by omega),
      aevt.exact h.okay (by omega) (by omega) (by omega),
      avet.exact h.okay (by omega) (by omega) (by omega),
      vaet.exact h.okay (by omega) (by omega) (by omega)⟩

end Rounds
end Minigraf
