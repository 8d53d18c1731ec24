import Minigraf.Graph.Pending
import Minigraf.Storage.Bounds
import Minigraf.Storage.Migration

/-!
What the trees of a migrated version 5 file lead to. They resolve where the old indexes are
trusted or all facts are on the first page, and they reach every fact unless two of them
share a key.
-/

namespace Minigraf

open Bytes EStateM

theorem indexesOf_eq (placed : List (Fact × FactRef)) :
    indexesOf placed = ⟨mapOf (some ∘ Fact.eavtKey) placed, mapOf (some ∘ Fact.aevtKey) placed,
      mapOf (some ∘ Fact.avetKey) placed, mapOf Fact.vaetKey placed⟩ := foldl_insert_eq placed

/-! ## The new trees -/

section Trees

variable {H C : Type} {crc : Crc H C} {postcard : Postcard}

theorem Planted.after {K : Type} [LinearOrder K] {codec : IndexCodec K} {s t : Dev C}
    {start stop root : Nat} {entries : List (K × FactRef)} (h : Planted codec s start stop root entries)
    (wrote : Wrote crc (IndexAt stop) s t) : Planted codec t start stop root entries := by
  obtain ⟨leaves, whole, tree⟩ := h.tree
  refine ⟨wrote.okay, h.data, h.counted.trans wrote.writes.pageCount_le, h.limit, leaves, whole,
    tree.agree codec fun i _ high => ?_⟩
  obtain same | later := wrote.writes.page i
  · exact same
  · exact absurd later.1 (by omega)

theorem Planted.bounds {K : Type} [LinearOrder K] {codec : IndexCodec K} {s : Dev C}
    {start stop root : Nat} {entries : List (K × FactRef)} (h : Planted codec s start stop root entries) :
    start ≤ root ∧ root < stop := by
  obtain ⟨leaves, _, tree⟩ := h.tree
  obtain ⟨_, covers⟩ := tree.covers
  exact covers.bounds

/-- The trees of four maps behind each other. -/
structure MapsPlanted (postcard : Postcard) (idx : Indexes) (s : Dev C) (start stop : Nat) (roots : Roots) :
    Prop where
  trees : ∃ next1 next2 next3,
    Planted postcard.eavt s start next1 roots.eavt idx.eavt.entries ∧
    Planted postcard.aevt s next1 next2 roots.aevt idx.aevt.entries ∧
    Planted postcard.avet s next2 next3 roots.avet idx.avet.entries ∧
    Planted postcard.vaet s next3 stop roots.vaet idx.vaet.entries

/-- The entries of the maps fit their pages. -/
structure MapsFit (postcard : Postcard) (idx : Indexes) : Prop where
  eavt : ∀ e ∈ idx.eavt.entries, EntryFits postcard.eavt e
  aevt : ∀ e ∈ idx.aevt.entries, EntryFits postcard.aevt e
  avet : ∀ e ∈ idx.avet.entries, EntryFits postcard.avet e
  vaet : ∀ e ∈ idx.vaet.entries, EntryFits postcard.vaet e

theorem wp_plantMap {K : Type} [LinearOrder K] {codec : IndexCodec K} {s : Dev C} (okay : s.Ok)
    {start : Nat} (data : start ≠ 0) (dense : start ≤ s.header.pageCount) (limit : start ≤ PAGE_LIMIT)
    {key : Fact → Option K} {placed : List (Fact × FactRef)}
    (fits : ∀ e ∈ (mapOf key placed).entries, EntryFits codec e) :
    Wp (buildBtree crc codec (mapOf key placed).entries start) s
      (fun r t => Wrote crc (IndexAt start) s t ∧ r.2 ≤ start + 3 * placed.length + 1 ∧
        Planted codec t start r.2 r.1 (mapOf key placed).entries)
      (fun _ _ => s.faults ≠ none ∨ PAGE_LIMIT < start + 3 * placed.length + 1) := by
  have few := length_mapOf_le key placed
  refine (wp_buildBtree codec crc okay data dense limit fits
    ((mapOf key placed).sorted.imp fun lt => le_of_lt lt)).mono ?_ ?_
  · rintro r t ⟨wrote, near, counted, limit', leaves, whole, tree, _⟩
    exact ⟨wrote, by omega, wrote.okay, data, counted, limit', leaves, .of_eq whole, tree⟩
  · intro _ t stopped
    exact stopped.why.imp_right fun far => by omega

theorem wp_buildMaps {placed : List (Fact × FactRef)} (fits : MapsFit postcard (indexesOf placed)) {s : Dev C}
    (okay : s.Ok) {start : Nat} (data : start ≠ 0) (dense : start ≤ s.header.pageCount)
    (limit : start ≤ PAGE_LIMIT) :
    Wp (buildMaps crc postcard (indexesOf placed) start) s
      (fun r t => Wrote crc (IndexAt start) s t ∧ MapsPlanted postcard (indexesOf placed) t start r.2 r.1)
      (fun _ _ => s.faults ≠ none ∨ PAGE_LIMIT < start + 12 * placed.length + 4) := by
  rw [indexesOf_eq] at fits ⊢
  rw [buildMaps, chainTrees, wp_bind]
  refine (wp_plantMap okay data dense limit fits.eavt).mono ?_ fun _ _ why => why.imp_right (by omega)
  rintro ⟨r1, next1⟩ t1 ⟨wrote1, near1, tree1⟩
  have b1 := tree1.bounds
  simp only at b1 near1
  rw [wp_bind]
  refine (wp_plantMap wrote1.okay (by omega) tree1.counted tree1.limit fits.aevt).mono ?_
    fun _ _ why => why.imp (mt wrote1.calm) (by omega)
  rintro ⟨r2, next2⟩ t2 ⟨wrote2, near2, tree2⟩
  have b2 := tree2.bounds
  have through2 := wrote1.trans (wrote2.mono fun _ _ => IndexAt.mono (by omega))
  simp only at b2 near2
  rw [wp_bind]
  refine (wp_plantMap wrote2.okay (by omega) tree2.counted tree2.limit fits.avet).mono ?_
    fun _ _ why => why.imp (mt through2.calm) (by omega)
  rintro ⟨r3, next3⟩ t3 ⟨wrote3, near3, tree3⟩
  have b3 := tree3.bounds
  have through3 := through2.trans (wrote3.mono fun _ _ => IndexAt.mono (by omega))
  simp only at b3 near3
  rw [wp_bind]
  refine (wp_plantMap wrote3.okay (by omega) tree3.counted tree3.limit fits.vaet).mono ?_
    fun _ _ why => why.imp (mt through3.calm) (by omega)
  rintro ⟨r4, next4⟩ t4 ⟨wrote4, -, tree4⟩
  have late3 := wrote3.trans (wrote4.mono fun _ _ => IndexAt.mono (by omega))
  have late2 := wrote2.trans (late3.mono fun _ _ => IndexAt.mono (by omega))
  exact ⟨through3.trans (wrote4.mono fun _ _ => IndexAt.mono (by omega)), next1, next2, next3,
    tree1.after late2, tree2.after late3, tree3.after wrote4, tree4⟩

end Trees

/-! ## Version 5 files -/

section Files

variable {H C : Type} (crc : Crc H C) (postcard : Postcard) (blobs : BlobCodecs) [DecidableEq C]

/-- The old indexes pass the checksum. -/
def Disk.trustsOld (d : Disk C) : Bool :=
  decide (0 < d.header.pagesBeforeIndexes ∧ d.header.indexChecksum ≠ crc.zero ∧
    (pagesChecksum crc d.page (d.header.pageCount - 1) = d.header.indexChecksum ∨
      pagesChecksum crc d.page d.header.pagesBeforeIndexes = d.header.indexChecksum))

/-- An open version 5 file with packed facts at their places. Old indexes that pass the
checksum hold the places, whatever order they were made in. -/
structure Dev.V5File (s : Dev C) (placed : List (Fact × FactRef)) : Prop where
  okay : s.Ok
  synced : s.disk.header = s.header
  counted : s.disk.header.pagesBeforeIndexes < s.disk.header.pageCount
  limit : s.disk.header.pageCount ≤ PAGE_LIMIT
  facts : readPageList postcard.fact 1 (pagesFrom s.disk.page 1 s.disk.header.pagesBeforeIndexes) = .ok placed
  old : s.disk.trustsOld crc = true → ∃ order : List (Fact × FactRef), order.Perm placed ∧
    oldIndexes crc blobs s.disk.header s = .ok (indexesOf order) s

/-- The places the rebuilding branch gives to facts. -/
def madeUpPlaces (facts : List Fact) : List (Fact × FactRef) := facts.zipIdx.map fun p => (p.1, ⟨1, p.2⟩)

/-- The places the new trees are built from. -/
def Disk.usedPlaces (d : Disk C) (placed : List (Fact × FactRef)) : List (Fact × FactRef) :=
  if d.trustsOld crc then placed else madeUpPlaces (placed.map Prod.fst)

theorem length_madeUpPlaces (facts : List Fact) : (madeUpPlaces facts).length = facts.length := by
  rw [madeUpPlaces, List.length_map, List.length_zipIdx]

theorem length_usedPlaces (d : Disk C) (placed : List (Fact × FactRef)) :
    (d.usedPlaces crc placed).length = placed.length := by
  unfold Disk.usedPlaces
  split
  · rfl
  · rw [length_madeUpPlaces, List.length_map]

theorem madeUpRefs_few {facts : List Fact} {e : ErrorCode} (h : madeUpRefs facts = .error e) :
    2 ^ 16 < facts.length := by
  by_contra few
  have run : madeUpRefs facts = .ok (facts.zipIdx.map fun p => (p.1, (⟨1, p.2⟩ : FactRef))) := by
    rw [madeUpRefs]
    apply List.mapM_ok
    intro p hp
    have inside := List.snd_lt_of_mem_zipIdx hp
    exact if_pos (by omega)
  rw [run] at h
  cases h

theorem madeUpRefs_eq {facts : List Fact} {placed : List (Fact × FactRef)}
    (h : madeUpRefs facts = .ok placed) : placed = madeUpPlaces facts := by
  have each := List.forall₂_of_mapM_ok h
  have same : List.Forall₂ (fun a b => (a.1, (⟨1, a.2⟩ : FactRef)) = b) facts.zipIdx placed := by
    refine each.imp fun a b here => ?_
    dsimp only at here
    split at here
    · cases here
      rfl
    · cases here
  have whole : List.Forall₂ Eq (madeUpPlaces facts) placed := List.forall₂_map_left_iff.mpr same
  rw [List.forall₂_eq_eq_eq] at whole
  exact whole.symm

variable {crc postcard blobs}

theorem mapsFit_of_perm {placed order : List (Fact × FactRef)} (perm : order.Perm placed)
    (fits : IndexFits postcard placed) : MapsFit postcard (indexesOf order) := by
  have each {K : Type} [LinearOrder K] {codec : IndexCodec K} {key : Fact → Option K}
      (fit : EntriesFit codec key placed) : ∀ e ∈ (mapOf key order).entries, EntryFits codec e := by
    intro e he
    obtain ⟨p, hp, same, same'⟩ := exists_of_mem_mapOf he
    refine fit e (List.mem_filterMap.mpr ⟨p, perm.mem_iff.mp hp, ?_⟩)
    rw [same, same']
    rfl
  rw [indexesOf_eq]
  exact ⟨each fits.eavt, each fits.aevt, each fits.avet, each fits.vaet⟩

/-! ## Running the migration -/

/-- What the migration leaves: the fact pages and trees of the maps. -/
structure Migrated (postcard : Postcard) (s t : Store H C) (idx : Indexes) (n : Nat) : Prop where
  okay : t.dev.Ok
  kept : ∀ i, i ≤ n → t.dev.disk.page i = s.dev.disk.page i
  reader : t.storage.committed = true
  counted : n < t.dev.header.pageCount
  limit : n < PAGE_LIMIT
  planted : ∃ stop, MapsPlanted postcard idx t.dev (1 + n) stop t.dev.disk.header.roots

theorem wp_validatedFactPages {s : Dev C} {placed : List (Fact × FactRef)}
    (file : s.V5File crc postcard blobs placed) :
    Wp (validatedFactPages crc s.disk.header) s
      (fun n t => t = s ∧ n = s.disk.header.pagesBeforeIndexes) (fun _ _ => False) := by
  have counted := file.counted
  have limit := file.limit
  rw [validatedFactPages, wp_bind, wp_get]
  refine wp_ite (fun some_ => ?_) fun _ => ⟨rfl, rfl⟩
  have readable : Wp (readPage crc 1) s (fun _ _ => True) (fun _ _ => False) := by
    refine wp_readPage crc file.okay.inside (by decide) trivial fun why _ => ?_
    rw [← file.synced] at why
    omega
  obtain ⟨page, t, run, -⟩ := readable.exists_ok
  rw [run]
  exact ⟨rfl, rfl⟩

theorem wp_useOldIndexes {s : Dev C} {placed : List (Fact × FactRef)}
    (file : s.V5File crc postcard blobs placed) :
    Wp (useOldIndexes crc s.disk.header s.disk.header.pagesBeforeIndexes) s
      (fun trusted t => t = s ∧ trusted = s.disk.trustsOld crc) (fun _ _ => False) := by
  have counted := file.counted
  have limit := file.limit
  have pages := congrArg FileHeader.pageCount file.synced
  unfold useOldIndexes Disk.trustsOld
  refine wp_ite (fun present => ?_) fun absent => ?_
  · rw [wp_bind]
    refine (wp_computePageChecksum crc file.okay (by decide)).mono ?_ ?_
    · rintro _ _ ⟨rfl, rfl⟩
      refine wp_ite (fun full => ⟨rfl, (decide_eq_true ⟨present.1, present.2, .inl full⟩).symm⟩)
        fun other => ?_
      rw [wp_bind]
      refine (wp_computePageChecksum crc file.okay (by decide)).mono ?_ ?_
      · rintro _ _ ⟨rfl, rfl⟩
        refine ⟨rfl, decide_eq_decide.mpr ⟨fun same => ⟨present.1, present.2, .inr same⟩, ?_⟩⟩
        rintro ⟨-, -, full | same⟩
        · exact absurd full other
        · exact same
      · rintro _ _ ⟨rfl, why⟩
        omega
    · rintro _ _ ⟨rfl, why⟩
      omega
  · refine ⟨rfl, (decide_eq_false fun trusts => ?_).symm⟩
    exact absent ⟨trusts.1, trusts.2.1⟩

/-- The maps the trees are built from. -/
theorem wp_oldOrRebuilt {s : Dev C} {placed : List (Fact × FactRef)}
    (file : s.V5File crc postcard blobs placed) :
    Wp (if s.disk.trustsOld crc then oldIndexes crc blobs s.disk.header
        else rebuiltIndexes crc postcard s.disk.header.pagesBeforeIndexes) s
      (fun idx t => t = s ∧ ∃ used : List (Fact × FactRef), used.Perm (s.disk.usedPlaces crc placed) ∧
        (s.disk.trustsOld crc = false → used = madeUpPlaces (placed.map Prod.fst)) ∧ idx = indexesOf used)
      (fun _ _ => 2 ^ 16 < placed.length) := by
  have counted := file.counted
  have limit := file.limit
  have pages := congrArg FileHeader.pageCount file.synced
  rw [Disk.usedPlaces]
  cases trusts : s.disk.trustsOld crc with
  | true =>
      obtain ⟨order, perm, run⟩ := file.old trusts
      rw [if_pos rfl, if_pos rfl, Wp, run]
      exact ⟨rfl, order, perm, fun no => absurd no Bool.noConfusion, rfl⟩
  | false =>
      rw [if_neg Bool.false_ne_true, if_neg Bool.false_ne_true, rebuiltIndexes, readAllFromPages, wp_bind,
        wp_bind]
      refine (wp_readAllWithRefs crc postcard.fact file.okay.inside (by decide) file.facts).mono ?_ ?_
      · rintro _ _ ⟨rfl, rfl⟩
        rw [wp_pure, wp_bind]
        refine wp_ofResult (fun made run => ?_) fun _ run => ?_
        · have same := madeUpRefs_eq run
          exact ⟨rfl, made, .of_eq same, fun _ => same, rfl⟩
        · have many := madeUpRefs_few run
          rwa [List.length_map] at many
      · rintro _ _ ⟨rfl, why⟩
        omega

theorem wp_migrateV5ToV6 {s : Store H C} {placed : List (Fact × FactRef)}
    (file : s.dev.V5File crc postcard blobs placed)
    (fits : IndexFits postcard (s.dev.disk.usedPlaces crc placed)) :
    Wp (migrateV5ToV6 crc postcard blobs s.dev.disk.header) s
      (fun _ t => ∃ used : List (Fact × FactRef), used.Perm (s.dev.disk.usedPlaces crc placed) ∧
        (s.dev.disk.trustsOld crc = false → used = madeUpPlaces (placed.map Prod.fst)) ∧
        Migrated postcard s t (indexesOf used) s.dev.disk.header.pagesBeforeIndexes)
      (fun _ _ => s.dev.faults ≠ none ∨ 2 ^ 16 < placed.length ∨
        PAGE_LIMIT < 1 + s.dev.disk.header.pagesBeforeIndexes + 12 * placed.length + 4) := by
  have counted := file.counted
  have limit := file.limit
  have pages := congrArg FileHeader.pageCount file.synced
  simp only [migrateV5ToV6, wp_bind, onDev, onFacts, wp_zoom, wp_modify]
  refine (wp_validatedFactPages file).mono ?_ fun _ _ no => no.elim
  rintro _ _ ⟨rfl, rfl⟩
  refine (wp_useOldIndexes file).mono ?_ fun _ _ no => no.elim
  rintro _ _ ⟨rfl, rfl⟩
  refine (wp_oldOrRebuilt file).mono ?_ fun _ _ many => .inr (.inl many)
  rintro _ _ ⟨rfl, used, perm, made, rfl⟩
  have size : used.length = placed.length := perm.length_eq.trans (length_usedPlaces crc _ placed)
  refine (wp_buildMaps (mapsFit_of_perm perm fits) file.okay (by omega) (by omega) (by omega)).mono ?_
    fun _ _ why => why.imp_right fun far => .inr (by rwa [size] at far)
  rintro ⟨roots, next⟩ d ⟨wrote, planted⟩
  obtain ⟨next1, next2, next3, tree1, tree2, tree3, tree4⟩ := planted.trees
  have b1 := tree1.bounds
  have b2 := tree2.bounds
  have b3 := tree3.bounds
  have b4 := tree4.bounds
  simp only at b1 b2 b3 b4
  have counted' := tree4.counted
  have limit' := tree4.limit
  simp only at counted' limit'
  refine (wp_computePageChecksum crc wrote.okay (by decide)).mono ?_ (by rintro _ _ ⟨rfl, why⟩; omega)
  rintro checksum t ⟨same, rfl⟩
  subst t
  simp only [writeHeaderPage, sync, setCommittedReader, setCommittedIndexReader, restoreTxCounterFrom, wp_bind]
  apply wp_tick
  · intro f hf
    simp only [wp_modify]
    apply wp_tick
    · intro g hg
      have behind : ∀ header : FileHeader C, header.pageCount = next →
          Dev.Ok { d with disk := d.disk.writeHeader header, header := header, faults := g } :=
        fun header same => wrote.okay.withHeader (same ▸ tree4.counted) g
      refine ⟨used, perm, made, behind _ rfl, fun i low => ?_, rfl, ?_, by omega, next, next1, next2, next3,
        ⟨behind _ rfl, tree1.data, ?_, tree1.limit, tree1.tree⟩,
        ⟨behind _ rfl, tree2.data, ?_, tree2.limit, tree2.tree⟩,
        ⟨behind _ rfl, tree3.data, ?_, tree3.limit, tree3.tree⟩,
        ⟨behind _ rfl, tree4.data, le_rfl, tree4.limit, tree4.tree⟩⟩
      · obtain same | later := wrote.writes.page i
        · exact same
        · exact absurd later.1 (by omega)
      all_goals
        simp only [FileHeader.sealed]
        omega
    · exact fun fault => .inl fun calm => fault (hf (wrote.calm calm))
  · exact fun fault => .inl (mt wrote.calm fault)

end Files

/-! ## What the trees lead to -/

section Resolving

variable {H C : Type} (crc : Crc H C) (postcard : Postcard)

/-- Every reference of a tree leads to a fact with its key. -/
def EntriesResolve {K : Type} [LinearOrder K] (codec : IndexCodec K) (key : Fact → Option K) (root : Nat)
    (t : Store H C) : Prop :=
  ∃ entries d, streamAllEntries crc codec root t.dev = .ok entries d ∧
    ∀ e ∈ entries, ∃ f u, resolveFactRef crc postcard e.2 t = .ok f u ∧ key f = some e.1

/-- A scan from the key of a fact finds a reference that leads to it. -/
def FactsReached {K : Type} [LinearOrder K] (codec : IndexCodec K) (key : Fact → K) (root : Nat)
    (facts : List Fact) (t : Store H C) : Prop :=
  ∀ f ∈ facts, ∃ refs d, rangeScan crc codec root (key f) none t.dev = .ok refs d ∧
    ∃ r ∈ refs, ∃ u, resolveFactRef crc postcard r t = .ok f u

/-- The four trees resolve, and three of them reach every fact. -/
structure IndexesResolve (facts : List Fact) (t : Store H C) : Prop where
  eavt : EntriesResolve crc postcard postcard.eavt (some ∘ Fact.eavtKey) t.dev.disk.header.eavtRootPage t
  aevt : EntriesResolve crc postcard postcard.aevt (some ∘ Fact.aevtKey) t.dev.disk.header.aevtRootPage t
  avet : EntriesResolve crc postcard postcard.avet (some ∘ Fact.avetKey) t.dev.disk.header.avetRootPage t
  vaet : EntriesResolve crc postcard postcard.vaet Fact.vaetKey t.dev.disk.header.vaetRootPage t
  byEavt : FactsReached crc postcard postcard.eavt Fact.eavtKey t.dev.disk.header.eavtRootPage facts t
  byAevt : FactsReached crc postcard postcard.aevt Fact.aevtKey t.dev.disk.header.aevtRootPage facts t
  byAvet : FactsReached crc postcard postcard.avet Fact.avetKey t.dev.disk.header.avetRootPage facts t

variable {postcard}

theorem Planted.stream {K : Type} [LinearOrder K] {codec : IndexCodec K} {s : Dev C} {start stop root : Nat}
    {m : OrdMap K FactRef} (h : Planted codec s start stop root m.entries) :
    ∃ entries d, streamAllEntries crc codec root s = .ok entries d ∧ ∀ e, e ∈ entries ↔ e ∈ m.entries := by
  obtain ⟨leaves, whole, tree⟩ := h.tree
  obtain ⟨_, d, run, -, rfl⟩ := (tree.wp_streamAllEntries crc h.okay h.data h.counted h.limit).exists_ok
  exact ⟨_, d, run, fun e => whole.mem_iff⟩

theorem Planted.scan {K : Type} [LinearOrder K] {codec : IndexCodec K} {s : Dev C} {start stop root : Nat}
    {m : OrdMap K FactRef} (h : Planted codec s start stop root m.entries) (lower : K) :
    ∃ refs d, rangeScan crc codec root lower none s = .ok refs d ∧
      ∀ r, r ∈ refs ↔ ∃ k, lower ≤ k ∧ (k, r) ∈ m.entries := by
  obtain ⟨leaves, whole, tree⟩ := h.tree
  have apart : (leaves.flatten.map Prod.fst).Nodup := by
    rw [(whole.map Prod.fst).nodup_iff, List.Nodup, List.pairwise_map]
    exact m.sorted.imp fun lt => ne_of_lt lt
  obtain ⟨_, d, run, -, rfl⟩ := (tree.wp_rangeScan crc h.okay h.data h.counted h.limit
    (.inl (pairwise_lt_of_nodup tree.sorted apart)) none).exists_ok
  refine ⟨_, d, run, fun r => ?_⟩
  simp only [List.mem_map, List.mem_filter, whole.mem_iff, inRange, Prod.exists]
  constructor
  · rintro ⟨k, _, ⟨here, low⟩, rfl⟩
    exact ⟨k, by simpa using low, here⟩
  · rintro ⟨k, low, here⟩
    exact ⟨k, r, ⟨here, by simpa using low⟩, rfl⟩

section Tree

variable {K : Type} [LinearOrder K] {codec : IndexCodec K} {key : Fact → Option K} {t : Store H C}
  {start stop root : Nat} {used : List (Fact × FactRef)}

theorem Resolves.run (okay : t.dev.Ok) {r : FactRef} {f : Fact} (h : Resolves postcard t r f) :
    ∃ u, resolveFactRef crc postcard r t = .ok f u := by
  obtain ⟨_, u, run, rfl, -⟩ := (wp_resolveFactRef crc okay h).exists_ok
  exact ⟨u, run⟩

variable {crc}

theorem Resolves.unique (okay : t.dev.Ok) {r : FactRef} {f g : Fact} {u : Store H C}
    (h : Resolves postcard t r f) (run : resolveFactRef crc postcard r t = .ok g u) : g = f :=
  ((wp_resolveFactRef crc okay h).of_ok run).1

theorem Planted.entriesResolve (h : Planted codec t.dev start stop root (mapOf key used).entries)
    (resolves : ∀ p ∈ used, Resolves postcard t p.2 p.1) : EntriesResolve crc postcard codec key root t := by
  obtain ⟨entries, d, run, same⟩ := h.stream crc
  refine ⟨entries, d, run, fun e he => ?_⟩
  obtain ⟨p, hp, hkey, href⟩ := exists_of_mem_mapOf ((same e).mp he)
  obtain ⟨u, resolved⟩ := (resolves p hp).run crc h.okay
  exact ⟨p.1, u, href ▸ resolved, hkey⟩

/-- Facts that differ have different keys. -/
def KeysApart (key : Fact → K) (placed : List (Fact × FactRef)) : Prop :=
  ∀ p ∈ placed, ∀ q ∈ placed, key p.1 = key q.1 → p.1 = q.1

theorem Planted.factsReached {key : Fact → K}
    (h : Planted codec t.dev start stop root (mapOf (some ∘ key) used).entries)
    (resolves : ∀ p ∈ used, Resolves postcard t p.2 p.1) (apart : KeysApart key used) {facts : List Fact}
    (placed : ∀ f ∈ facts, ∃ r, (f, r) ∈ used) : FactsReached crc postcard codec key root facts t := by
  intro f hf
  obtain ⟨r, hr⟩ := placed f hf
  obtain ⟨refs, d, run, same⟩ := h.scan crc (key f)
  obtain ⟨q, hq, hkey, kept⟩ := @exists_mem_mapOf K _ (some ∘ key) used (key f) ⟨_, hr, rfl⟩
  have fact : q.1 = f := apart q hq _ hr (Option.some.inj hkey)
  obtain ⟨u, resolved⟩ := (resolves q hq).run crc h.okay
  exact ⟨refs, d, run, q.2, (same q.2).mpr ⟨_, le_rfl, kept⟩, u, fact ▸ resolved⟩

/-- Facts that are all reached have different keys. -/
theorem Planted.keysApart {key : Fact → K}
    (h : Planted codec t.dev start stop root (mapOf (some ∘ key) used).entries)
    (resolves : ∀ p ∈ used, Resolves postcard t p.2 p.1) {facts : List Fact}
    (placed : ∀ p ∈ used, p.1 ∈ facts) (reached : FactsReached crc postcard codec key root facts t) :
    KeysApart key used := by
  have entry (f : Fact) (hf : f ∈ facts) :
      ∃ r, (key f, r) ∈ (mapOf (some ∘ key) used).entries ∧ Resolves postcard t r f := by
    obtain ⟨refs, d, run, r, hr, u, resolved⟩ := reached f hf
    obtain ⟨refs', d', run', same⟩ := h.scan crc (key f)
    rw [run] at run'
    cases run'
    obtain ⟨k, -, kept⟩ := (same r).mp hr
    obtain ⟨p, hp, hkey, href⟩ := exists_of_mem_mapOf kept
    simp only at hkey href
    subst href
    obtain rfl := (resolves p hp).unique h.okay resolved
    cases hkey
    exact ⟨p.2, kept, resolves p hp⟩
  intro p hp q hq same
  obtain ⟨r, kept, resolved⟩ := entry p.1 (placed p hp)
  obtain ⟨r', kept', resolved'⟩ := entry q.1 (placed q hq)
  rw [same] at kept
  rw [← OrdMap.get?_eq_some] at kept kept'
  obtain rfl : r = r' := Option.some.inj (kept.symm.trans kept')
  obtain ⟨u, run⟩ := resolved.run crc h.okay
  exact resolved'.unique h.okay run

end Tree

/-! ## Made-up places -/

variable {first : Nat} {page : Page} {placed : List (Fact × FactRef)}

theorem readSlots_places (h : readSlots postcard.fact 1 page = .ok placed) :
    placed = madeUpPlaces (placed.map Prod.fst) := by
  unfold readSlots at h
  split at h
  · cases h
    rfl
  · have each := List.forall₂_of_mapM_ok h
    refine List.ext_getElem (by rw [madeUpPlaces, List.length_map, List.length_zipIdx, List.length_map]) ?_
    intro i inside inside'
    have inside'' : i < (List.range (recordCount page)).length := by rwa [each.length_eq]
    have here := each.get inside'' inside
    simp only [List.get_eq_getElem, List.getElem_range, bind, Except.bind, pure, Except.pure] at here
    simp only [madeUpPlaces, List.getElem_map, List.getElem_zipIdx, Nat.zero_add]
    cases read : readSlot postcard.fact page i with
    | error e =>
        rw [read] at here
        cases here
    | ok f =>
        rw [read] at here
        have same : placed[i] = (f, ⟨1, i⟩) := (Except.ok.inj here).symm
        rw [same]

/-- Facts on the first page have the places that are made up for them. -/
theorem readPageList_places {pages : List Page} (h : readPageList postcard.fact 1 pages = .ok placed)
    (first : ∀ p ∈ placed, p.2.pageId = 1) : madeUpPlaces (placed.map Prod.fst) = placed := by
  cases pages with
  | nil =>
      cases h
      rfl
  | cons page pages =>
      simp only [readPageList, bind, Except.bind] at h
      split at h
      · cases h
      rename_i front hfront
      split at h
      · cases h
      rename_i later hlater
      cases h
      have none_ : later = [] := by
        refine List.eq_nil_iff_forall_not_mem.mpr fun p hp => ?_
        have low := (readPageList_mem hlater hp).1
        have low' := first p (List.mem_append_right _ hp)
        omega
      rw [none_, List.append_nil]
      exact (readSlots_places hfront).symm

/-- With a fact behind the first page, that page has no slot for the last fact. -/
theorem readPageList_behind {pages : List Page} (h : readPageList postcard.fact 1 pages = .ok placed)
    {p : Fact × FactRef} (hp : p ∈ placed) (behind : p.2.pageId ≠ 1) :
    ∃ page, pages[0]? = some page ∧ ∀ f, readSlot postcard.fact page (placed.length - 1) ≠ .ok f := by
  cases pages with
  | nil =>
      cases h
      cases hp
  | cons page pages =>
      simp only [readPageList, bind, Except.bind] at h
      split at h
      · cases h
      rename_i front hfront
      split at h
      · cases h
      rename_i later hlater
      cases h
      refine ⟨page, rfl, fun f read => ?_⟩
      rw [List.length_append] at read
      have some_ : 0 < later.length := by
        obtain here | here := List.mem_append.mp hp
        · exact absurd (readSlots_mem hfront here).1 behind
        · exact List.length_pos_of_mem here
      generalize hslot : front.length + later.length - 1 = slot at read
      have here := mem_readSlots hfront read
      rw [readSlots_places hfront] at here
      obtain ⟨q, hq, same⟩ := List.mem_map.mp here
      have slot : q.2 = slot := congrArg (fun p => p.2.slotIndex) same
      have inside := List.snd_lt_of_mem_zipIdx hq
      rw [List.length_map] at inside
      omega

theorem wp_resolveFactRef_read {t : Store H C} (okay : t.dev.Ok) {r : FactRef} (data : r.pageId ≠ 0) :
    Wp (resolveFactRef crc postcard r) t
      (fun f _ => readSlot postcard.fact (t.dev.disk.page r.pageId) r.slotIndex = .ok f)
      (fun _ _ => True) := by
  rw [resolveFactRef, wp_bind, wp_get, if_neg data]
  refine wp_ite (fun _ => ?_) fun _ => trivial
  rw [wp_bind, onDev, wp_zoom]
  refine (wp_getOrLoad crc okay data).mono ?_ fun _ _ _ => trivial
  rintro _ _ ⟨rfl, -⟩
  exact wp_ofResult (fun _ read => read) fun _ _ => trivial

/-! ## The migrated file -/

variable {crc} [DecidableEq C] {blobs : BlobCodecs} {s t : Store H C}

/-- Facts where the file has them are found there after the migration. -/
theorem Migrated.resolves {idx : Indexes}
    (h : Migrated postcard s t idx s.dev.disk.header.pagesBeforeIndexes)
    (file : s.dev.V5File crc postcard blobs placed) {p : Fact × FactRef} (hp : p ∈ placed) :
    Resolves postcard t p.2 p.1 := by
  obtain ⟨low, page, hpage, read⟩ := readPageList_mem file.facts hp
  have inside : p.2.pageId - 1 < s.dev.disk.header.pagesBeforeIndexes := by
    have := (List.getElem?_eq_some_iff.mp hpage).1
    rwa [length_pagesFrom] at this
  have same : s.dev.disk.page p.2.pageId = page := by
    simp only [pagesFrom, List.getElem?_map, List.getElem?_range' inside, Option.map_some,
      Option.some.injEq] at hpage
    rw [← hpage]
    congr 1
    omega
  have counted := h.counted
  have limit := h.limit
  refine .inr ⟨by omega, h.reader, by omega, by omega, ?_⟩
  rw [h.kept _ (by omega), same]
  exact read

/-- Where the references were made up and a fact is behind the first page, the last fact's
reference leads nowhere. -/
theorem Migrated.madeUp_stuck
    (h : Migrated postcard s t (indexesOf (madeUpPlaces (placed.map Prod.fst)))
      s.dev.disk.header.pagesBeforeIndexes)
    (file : s.dev.V5File crc postcard blobs placed) {p : Fact × FactRef} (hp : p ∈ placed)
    (behind : p.2.pageId ≠ 1) :
    ¬ EntriesResolve crc postcard postcard.eavt (some ∘ Fact.eavtKey) t.dev.disk.header.eavtRootPage t := by
  rintro ⟨entries, d, run, resolves⟩
  obtain ⟨stop, _, _, _, tree, _⟩ := h.planted
  rw [indexesOf_eq] at tree
  obtain ⟨entries', d', run', same⟩ := tree.stream crc
  rw [FileHeader.roots, run] at run'
  cases run'
  obtain ⟨page, hpage, nowhere⟩ := readPageList_behind file.facts hp behind
  obtain ⟨front, last, rfl⟩ := List.eq_nil_or_concat' placed |>.resolve_left (List.ne_nil_of_mem hp)
  have kept : (last.1.eavtKey, (⟨1, front.length⟩ : FactRef)) ∈ entries := by
    refine (same _).mpr (mem_mapOf.mpr ⟨madeUpPlaces (front.map Prod.fst), (last.1, ⟨1, front.length⟩), [],
      ?_, rfl, rfl, fun _ no => absurd no List.not_mem_nil⟩)
    simp [madeUpPlaces, List.zipIdx_append]
  obtain ⟨f, u, resolved, -⟩ := resolves _ kept
  have read := (wp_resolveFactRef_read crc h.okay (by simp only; decide)).of_ok resolved
  have counted : 0 < s.dev.disk.header.pagesBeforeIndexes := by
    have := (List.getElem?_eq_some_iff.mp hpage).1
    rwa [length_pagesFrom] at this
  have first : s.dev.disk.page 1 = page := by
    simpa [pagesFrom, List.getElem?_range' counted] using hpage
  rw [h.kept 1 (by omega), first] at read
  refine nowhere f ?_
  rw [List.length_append, List.length_singleton, Nat.add_sub_cancel]
  exact read

/-- The trees of a migrated file resolve and reach its facts exactly if the references were
not made up for a fact behind the first page and no two facts share a key. -/
theorem migrateV5ToV6_resolves (file : s.dev.V5File crc postcard blobs placed)
    (fits : IndexFits postcard (s.dev.disk.usedPlaces crc placed))
    (run : migrateV5ToV6 crc postcard blobs s.dev.disk.header s = .ok () t) :
    IndexesResolve crc postcard (placed.map Prod.fst) t ↔
      (s.dev.disk.trustsOld crc = true ∨ ∀ p ∈ placed, p.2.pageId = 1) ∧ KeysApart Fact.eavtKey placed := by
  obtain ⟨used, perm, made, migrated⟩ := (wp_migrateV5ToV6 file fits).of_ok run
  obtain ⟨stop, next1, next2, next3, tree1, tree2, tree3, tree4⟩ := migrated.planted
  rw [indexesOf_eq] at tree1 tree2 tree3 tree4
  -- References that are right are those of the file.
  have right (h : s.dev.disk.trustsOld crc = true ∨ ∀ p ∈ placed, p.2.pageId = 1) : used.Perm placed := by
    cases trusts : s.dev.disk.trustsOld crc with
    | true =>
        rw [Disk.usedPlaces, trusts] at perm
        exact perm
    | false =>
        rw [made trusts, readPageList_places file.facts (h.resolve_left (by rw [trusts]; decide))]
  constructor
  · intro h
    have places : s.dev.disk.trustsOld crc = true ∨ ∀ p ∈ placed, p.2.pageId = 1 := by
      rw [← Bool.not_eq_false, ← imp_iff_not_or]
      intro trusts p hp
      by_contra behind
      rw [made trusts] at migrated
      exact migrated.madeUp_stuck file hp behind h.eavt
    have same := right places
    have resolves : ∀ p ∈ used, Resolves postcard t p.2 p.1 := fun p hp =>
      migrated.resolves file (same.mem_iff.mp hp)
    have apart := tree1.keysApart resolves (fun p hp => List.mem_map_of_mem (same.mem_iff.mp hp)) h.byEavt
    exact ⟨places, fun p hp q hq => apart p (same.mem_iff.mpr hp) q (same.mem_iff.mpr hq)⟩
  · rintro ⟨places, apart⟩
    have same := right places
    have resolves : ∀ p ∈ used, Resolves postcard t p.2 p.1 := fun p hp =>
      migrated.resolves file (same.mem_iff.mp hp)
    have reached : ∀ f ∈ placed.map Prod.fst, ∃ r, (f, r) ∈ used := by
      intro f hf
      obtain ⟨p, hp, rfl⟩ := List.mem_map.mp hf
      exact ⟨p.2, same.mem_iff.mpr hp⟩
    have apart' {K : Type} {key : Fact → K} (finer : ∀ f g, key f = key g → f.eavtKey = g.eavtKey) :
        ∀ p ∈ used, ∀ q ∈ used, key p.1 = key q.1 → p.1 = q.1 := fun p hp q hq eq =>
      apart p (same.mem_iff.mp hp) q (same.mem_iff.mp hq) (finer _ _ eq)
    have byAevt : ∀ f g : Fact, f.aevtKey = g.aevtKey → f.eavtKey = g.eavtKey := by
      intro f g eq
      simp only [Fact.aevtKey, Fact.eavtKey, AevtKey.mk.injEq, EavtKey.mk.injEq] at eq ⊢
      tauto
    have byAvet : ∀ f g : Fact, f.avetKey = g.avetKey → f.eavtKey = g.eavtKey := by
      intro f g eq
      simp only [Fact.avetKey, Fact.eavtKey, AvetKey.mk.injEq, EavtKey.mk.injEq] at eq ⊢
      tauto
    exact ⟨tree1.entriesResolve resolves, tree2.entriesResolve resolves, tree3.entriesResolve resolves,
      tree4.entriesResolve resolves, tree1.factsReached resolves (apart' fun _ _ eq => eq) reached,
      tree2.factsReached resolves (apart' byAevt) reached, tree3.factsReached resolves (apart' byAvet) reached⟩

end Resolving

/-! ## Files without an index checksum -/

section Unindexed

/-- A file of fact pages whose indexes have to be rebuilt. -/
def unindexedFile (pages : List Page) : Dev (List UInt8) where
  disk := ⟨{ FileHeader.new Crc.lossless with pageCount := 1 + pages.length }, 1 + pages.length,
    fun i => (pages[i - 1]?).getD (Block.zeros PAGE_SIZE)⟩
  header := { FileHeader.new Crc.lossless with pageCount := 1 + pages.length }
  isNew := false
  cache := .new 64
  faults := none

theorem unindexedFile_before (pages : List Page) :
    (unindexedFile pages).disk.header.pagesBeforeIndexes = pages.length := Nat.add_sub_cancel_left 1 _

theorem unindexedFile_distrusts (pages : List Page) :
    (unindexedFile pages).disk.trustsOld Crc.lossless = false :=
  decide_eq_false fun trusts => trusts.2.1 rfl

theorem unindexedFile_v5 {groups : List (List Fact)} {pages : List Page} (few : 1 + pages.length ≤ PAGE_LIMIT)
    (packed : List.Forall₂ (fun group page =>
      PackedPage page (group.map Postcard.standard.fact.encode)) groups pages) :
    (unindexedFile pages).V5File Crc.lossless Postcard.standard .standard
      (groups.flatten.zip (packedRefs 1 groups)) where
  okay _ := ⟨le_rfl, (fun _ no => nomatch no), fun _ => rfl⟩
  synced := rfl
  counted := by
    rw [unindexedFile_before]
    exact Nat.lt_add_of_pos_left Nat.one_pos
  limit := few
  facts := by
    have same : pagesFrom (unindexedFile pages).disk.page 1 pages.length = pages := by
      refine List.ext_getElem (length_pagesFrom _ _ _) fun i _ inside => ?_
      simp [pagesFrom, unindexedFile, inside]
    rw [unindexedFile_before, same]
    exact readPageList_packed Postcard.standard.fact 1 packed
  old trusts := by
    rw [unindexedFile_distrusts] at trusts
    cases trusts

/-- Such a file with few small facts is migrated. -/
theorem unindexedFile_migrates {groups : List (List Fact)} {pages : List Page}
    (few : pages.length + groups.flatten.length < 2 ^ 16)
    (packed : List.Forall₂ (fun group page =>
      PackedPage page (group.map Postcard.standard.fact.encode)) groups pages)
    (small : ∀ f ∈ groups.flatten, Postcard.factBytes f ≤ 3900) :
    IndexFits Postcard.standard ((unindexedFile pages).disk.usedPlaces Crc.lossless
      (groups.flatten.zip (packedRefs 1 groups))) ∧
    ∃ t : Store (List UInt8) (List UInt8), migrateV5ToV6 Crc.lossless Postcard.standard .standard
      (unindexedFile pages).disk.header (Store.init (unindexedFile pages)) = .ok () t := by
  have size : (groups.flatten.zip (packedRefs 1 groups)).length = groups.flatten.length := by
    rw [List.length_zip, length_packedRefs, Nat.min_self]
  have facts : (groups.flatten.zip (packedRefs 1 groups)).map Prod.fst = groups.flatten :=
    List.map_fst_zip (by rw [length_packedRefs])
  have fits : IndexFits Postcard.standard ((unindexedFile pages).disk.usedPlaces Crc.lossless
      (groups.flatten.zip (packedRefs 1 groups))) := by
    rw [Disk.usedPlaces, unindexedFile_distrusts, if_neg Bool.false_ne_true, facts]
    refine Postcard.indexFits fun p hp => ?_
    obtain ⟨q, hq, rfl⟩ := List.mem_map.mp hp
    have inside := List.snd_lt_of_mem_zipIdx hq
    exact ⟨small _ (List.fst_mem_of_mem_zipIdx hq), by simp only; decide, by simp only; omega⟩
  have file := unindexedFile_v5 (by simp only [PAGE_LIMIT]; omega) packed
  have calm : ¬ ((unindexedFile pages).faults ≠ none ∨
      2 ^ 16 < (groups.flatten.zip (packedRefs 1 groups)).length ∨
      PAGE_LIMIT < 1 + (unindexedFile pages).disk.header.pagesBeforeIndexes +
        12 * (groups.flatten.zip (packedRefs 1 groups)).length + 4) := by
    rw [unindexedFile_before, size]
    rintro (fault | many | far)
    · exact fault rfl
    · omega
    · simp only [PAGE_LIMIT] at far
      omega
  obtain ⟨_, t, run, -⟩ := ((@wp_migrateV5ToV6 _ _ _ _ _ _ (Store.init (unindexedFile pages)) _ file
    fits).mono (fun _ _ h => h) fun _ _ why => calm why).exists_ok
  exact ⟨fits, t, run⟩

/-- One fact page: the references that were made up are right. -/
theorem migrateV5ToV6_resolves_one :
    ∃ (page : Page) (t : Store (List UInt8) (List UInt8)),
      (unindexedFile [page]).V5File Crc.lossless Postcard.standard .standard [(narrowFact, ⟨1, 0⟩)] ∧
      migrateV5ToV6 Crc.lossless Postcard.standard .standard (unindexedFile [page]).disk.header
        (Store.init (unindexedFile [page])) = .ok () t ∧
      IndexesResolve Crc.lossless Postcard.standard [narrowFact] t := by
  have places : [[narrowFact]].flatten.zip (packedRefs 1 [[narrowFact]]) = [(narrowFact, ⟨1, 0⟩)] := rfl
  have small : ∀ f ∈ [[narrowFact]].flatten, Postcard.factBytes f ≤ 3900 := by decide
  obtain ⟨page, -, packed⟩ := @encodePackedPage_room ([narrowFact].map Postcard.standard.fact.encode)
    (by decide)
  have pages : List.Forall₂ (fun group page => PackedPage page
      (group.map Postcard.standard.fact.encode)) [[narrowFact]] [page] := .cons packed .nil
  have file := unindexedFile_v5 (by rw [List.length_singleton]; decide) pages
  obtain ⟨fits, t, run⟩ := unindexedFile_migrates (by rw [List.length_singleton]; decide) pages small
  rw [places] at file fits
  refine ⟨page, t, file, run, (@migrateV5ToV6_resolves _ _ _ _ _ _ _
    (Store.init (unindexedFile [page])) t file fits run).mpr ⟨.inr fun p hp => ?_, ?_⟩⟩
  · rw [List.mem_singleton.mp hp]
  · intro p hp q hq _
    rw [List.mem_singleton.mp hp, List.mem_singleton.mp hq]

/-- A fact of another entity. -/
def otherFact : Fact := { narrowFact with entity := 1 }

/-- Two fact pages with a fact each: the reference made up for the second leads nowhere. -/
theorem migrateV5ToV6_behind :
    ∃ (page page' : Page) (t : Store (List UInt8) (List UInt8)),
      (unindexedFile [page, page']).V5File Crc.lossless Postcard.standard .standard
        [(narrowFact, ⟨1, 0⟩), (otherFact, ⟨2, 0⟩)] ∧
      migrateV5ToV6 Crc.lossless Postcard.standard .standard (unindexedFile [page, page']).disk.header
        (Store.init (unindexedFile [page, page'])) = .ok () t ∧
      ¬ IndexesResolve Crc.lossless Postcard.standard [narrowFact, otherFact] t := by
  have places : [[narrowFact], [otherFact]].flatten.zip (packedRefs 1 [[narrowFact], [otherFact]]) =
      [(narrowFact, ⟨1, 0⟩), (otherFact, ⟨2, 0⟩)] := rfl
  have small : ∀ f ∈ [[narrowFact], [otherFact]].flatten, Postcard.factBytes f ≤ 3900 := by decide
  obtain ⟨page, -, packed⟩ := @encodePackedPage_room ([narrowFact].map Postcard.standard.fact.encode)
    (by decide)
  obtain ⟨page', -, packed'⟩ := @encodePackedPage_room ([otherFact].map Postcard.standard.fact.encode)
    (by decide)
  have pages : List.Forall₂ (fun group page => PackedPage page (group.map Postcard.standard.fact.encode))
      [[narrowFact], [otherFact]] [page, page'] := .cons packed (.cons packed' .nil)
  have two : [page, page'].length = 2 := rfl
  have file := unindexedFile_v5 (by rw [two]; decide) pages
  obtain ⟨fits, t, run⟩ := unindexedFile_migrates (by rw [two]; decide) pages small
  rw [places] at file fits
  refine ⟨page, page', t, file, run, fun h => ?_⟩
  obtain ⟨used, -, made, migrated⟩ := (@wp_migrateV5ToV6 _ _ _ _ _ _
    (Store.init (unindexedFile [page, page'])) _ file fits).of_ok run
  rw [made (unindexedFile_distrusts _)] at migrated
  exact migrated.madeUp_stuck file (List.mem_cons_of_mem _ List.mem_cons_self) (by simp only; decide) h.eavt

end Unindexed
end Minigraf
