import Mathlib.Data.List.Perm.Basic
import Minigraf.Graph.Ranges
import Minigraf.Storage.Load

/-!
What the lookups answer on a store in good order: the facts they ask for, committed and
pending alike, as long as no two facts share an index key.
-/

namespace Minigraf

open Bytes EStateM

/-! ## Reading facts -/

section Reading

variable {H C : Type} (crc : Crc H C) (postcard : Postcard)

/-- Reading a store moves nothing but its cache. -/
def StoreReads (s t : Store H C) : Prop := ∃ d, t = { s with dev := d } ∧ Reads s.dev d

theorem StoreReads.refl {s : Store H C} (h : s.dev.Ok) : StoreReads s s := ⟨s.dev, rfl, .refl h⟩

theorem StoreReads.trans {s t u : Store H C} (h : StoreReads s t) (h' : StoreReads t u) :
    StoreReads s u := by
  obtain ⟨d, rfl, reads⟩ := h
  obtain ⟨d', rfl, reads'⟩ := h'
  exact ⟨d', rfl, reads.trans reads'⟩

/-- A reference that leads to a fact. -/
def Resolves (s : Store H C) (r : FactRef) (f : Fact) : Prop :=
  (r.pageId = 0 ∧ s.storage.facts[r.slotIndex]? = some f) ∨
    (r.pageId ≠ 0 ∧ s.storage.committed = true ∧ r.pageId < s.dev.header.pageCount ∧
      r.pageId < PAGE_LIMIT ∧ readSlot postcard.fact (s.dev.disk.page r.pageId) r.slotIndex = .ok f)

variable {postcard}

theorem Resolves.reads {s t : Store H C} (h : StoreReads s t) {r : FactRef} {f : Fact}
    (resolves : Resolves postcard s r f) : Resolves postcard t r f := by
  obtain ⟨d, rfl, reads⟩ := h
  rw [Resolves, reads.header, reads.disk]
  exact resolves

theorem wp_resolveFactRef {s : Store H C} (okay : s.dev.Ok) {r : FactRef} {f : Fact}
    (h : Resolves postcard s r f) :
    Wp (resolveFactRef crc postcard r) s (fun g t => g = f ∧ StoreReads s t) (fun _ _ => False) := by
  rw [resolveFactRef, wp_bind, wp_get]
  obtain ⟨pending, here⟩ | ⟨committed, reader, counted, limit, here⟩ := h
  · rw [if_pos pending, here]
    exact ⟨rfl, .refl okay⟩
  · rw [if_neg committed, if_pos reader, wp_bind, onDev, wp_zoom]
    refine (wp_load crc okay committed counted limit).post ?_
    rintro page d ⟨rfl, reads⟩
    rw [here]
    exact ⟨rfl, d, rfl, reads⟩

theorem wp_resolveAll {s : Store H C} (okay : s.dev.Ok) {refs : List FactRef} {facts : List Fact}
    (h : List.Forall₂ (Resolves postcard s) refs facts) :
    Wp (resolveAll crc postcard refs) s (fun r t => r = facts ∧ StoreReads s t) (fun _ _ => False) := by
  induction refs generalizing s facts with
  | nil =>
      cases h
      exact ⟨rfl, .refl okay⟩
  | cons r refs ih =>
      cases h with
      | @cons _ f _ facts here later =>
          rw [resolveAll, wp_bind]
          refine (wp_resolveFactRef crc okay here).post ?_
          rintro _ t ⟨rfl, reads⟩
          have okay' : t.dev.Ok := by
            obtain ⟨d, rfl, reads⟩ := reads
            exact reads.okay
          rw [wp_bind]
          refine (ih okay' (later.imp fun _ _ => Resolves.reads reads)).post ?_
          rintro _ u ⟨rfl, reads'⟩
          exact ⟨rfl, reads.trans reads'⟩

theorem resolveWhile_eq {K : Type} (pred : K → Bool) (entries : List (K × FactRef)) :
    (resolveWhile crc postcard pred entries : StoreM H C (List Fact)) =
      resolveAll crc postcard ((entries.takeWhile fun e => pred e.1).map Prod.snd) := by
  induction entries with
  | nil => rfl
  | cons e entries ih =>
      obtain ⟨key, r⟩ := e
      cases hp : pred key with
      | true => simp only [resolveWhile, hp, if_true, ih, List.takeWhile_cons, List.map_cons, resolveAll]
      | false =>
          simp only [resolveWhile, hp, Bool.false_eq_true, if_false, List.takeWhile_cons, List.map_nil,
            resolveAll]

theorem readSlots_mem {pageId : Nat} {page : Page} {placed : List (Fact × FactRef)}
    (h : readSlots postcard.fact pageId page = .ok placed) {p : Fact × FactRef} (hp : p ∈ placed) :
    p.2.pageId = pageId ∧ readSlot postcard.fact page p.2.slotIndex = .ok p.1 := by
  unfold readSlots at h
  split at h
  · cases h
    cases hp
  · obtain ⟨slot, _, hslot⟩ := List.exists_of_mapM_ok h hp
    cases hread : readSlot postcard.fact page slot with
    | error e =>
        rw [hread] at hslot
        cases hslot
    | ok fact =>
        rw [hread] at hslot
        cases hslot
        exact ⟨rfl, hread⟩

theorem readPageList_mem {first : Nat} {pages : List Page} {placed : List (Fact × FactRef)}
    (h : readPageList postcard.fact first pages = .ok placed) {p : Fact × FactRef} (hp : p ∈ placed) :
    first ≤ p.2.pageId ∧ ∃ page, pages[p.2.pageId - first]? = some page ∧
      readSlot postcard.fact page p.2.slotIndex = .ok p.1 := by
  induction pages generalizing first placed with
  | nil =>
      cases h
      cases hp
  | cons page pages ih =>
      simp only [readPageList, bind, Except.bind] at h
      split at h
      · cases h
      rename_i here hhere
      split at h
      · cases h
      rename_i rest hrest
      cases h
      obtain hp | hp := List.mem_append.mp hp
      · obtain ⟨same, hread⟩ := readSlots_mem hhere hp
        exact ⟨same.ge, page, by rw [same, Nat.sub_self]; rfl, hread⟩
      · obtain ⟨low, page', hpage, hread⟩ := ih hrest hp
        refine ⟨by omega, page', ?_, hread⟩
        rw [show p.2.pageId - first = p.2.pageId - (first + 1) + 1 by omega, List.getElem?_cons_succ]
        exact hpage

theorem latestPlaced_resolves (s : Store H C) {p : Fact × FactRef}
    (hp : p ∈ latestPlaced s.storage.facts) : Resolves postcard s p.2 p.1 := by
  obtain ⟨⟨f, i⟩, hfi, rfl⟩ := List.mem_map.mp ((lastBy_sublist _ _).subset hp)
  exact .inl ⟨rfl, List.mem_zipIdx_iff_getElem?.mp hfi⟩

/-- References that are those of facts at their places lead to these facts. -/
theorem exists_resolved {s : Store H C} {placed : List (Fact × FactRef)} {refs : List FactRef}
    (resolves : ∀ p ∈ placed, Resolves postcard s p.2 p.1) (perm : refs.Perm (placed.map Prod.snd)) :
    ∃ facts, List.Forall₂ (Resolves postcard s) refs facts ∧ facts.Perm (placed.map Prod.fst) := by
  have each : List.Forall₂ (Resolves postcard s) (placed.map Prod.snd) (placed.map Prod.fst) := by
    rw [List.forall₂_map_left_iff, List.forall₂_map_right_iff, List.forall₂_same]
    exact resolves
  obtain ⟨facts, hfacts, hperm⟩ := List.perm_comp_forall₂ perm each
  exact ⟨facts, hfacts, hperm⟩

theorem wp_resolveAll_perm {s : Store H C} (okay : s.dev.Ok) {placed : List (Fact × FactRef)}
    {refs : List FactRef} (resolves : ∀ p ∈ placed, Resolves postcard s p.2 p.1)
    (perm : refs.Perm (placed.map Prod.snd)) :
    Wp (resolveAll crc postcard refs) s
      (fun r t => r.Perm (placed.map Prod.fst) ∧ StoreReads s t) (fun _ _ => False) := by
  obtain ⟨facts, hfacts, hperm⟩ := exists_resolved resolves perm
  refine (wp_resolveAll crc okay hfacts).post ?_
  rintro _ t ⟨rfl, reads⟩
  exact ⟨hperm, reads⟩

end Reading

/-! ## Scans -/

section Scans

variable {K : Type}

theorem entriesOf_filter (key : Fact → Option K) (q : K → Bool) (placed : List (Fact × FactRef)) :
    ((entriesOf key placed).filter fun e => q e.1).map Prod.snd =
      (placed.filter fun p => (key p.1).any q).map Prod.snd := by
  induction placed with
  | nil => rfl
  | cons p placed ih =>
      rw [entriesOf] at ih ⊢
      cases hkey : key p.1 with
      | none => simp only [List.filterMap_cons, List.filter_cons, hkey, Option.map_none, Option.any_none,
          Bool.false_eq_true, if_false, ih]
      | some k =>
          simp only [List.filterMap_cons, List.filter_cons, hkey, Option.map_some, Option.any_some]
          cases q k with
          | true => simp only [if_true, List.map_cons, ih]
          | false => simp only [Bool.false_eq_true, if_false, ih]

variable [LinearOrder K]

theorem pairwise_lt_of_nodup {entries : List (K × FactRef)}
    (sorted : entries.Pairwise fun a b => a.1 ≤ b.1) (distinct : (entries.map Prod.fst).Nodup) :
    entries.Pairwise fun a b => a.1 < b.1 := by
  rw [List.Nodup, List.pairwise_map] at distinct
  exact (sorted.and distinct).imp fun ⟨le, ne⟩ => lt_of_le_of_ne le ne

variable {H C : Type} (crc : Crc H C) {codec : IndexCodec K}

/-- A scan of a tree of facts finds those whose keys are in range. -/
theorem TreeOf.wp_rangeScan {key : Fact → Option K} {s : Dev C} {start stop root : Nat}
    {placed : List (Fact × FactRef)} (h : TreeOf codec key s.disk.page start stop root placed)
    (okay : s.Ok) (data : start ≠ 0) (counted : stop ≤ s.header.pageCount) (limit : stop ≤ PAGE_LIMIT)
    {from_ : K} (clear : ((entriesOf key placed).map Prod.fst).Nodup ∨ ∀ p ∈ placed, key p.1 ≠ some from_)
    (until_ : Option K) :
    Wp (rangeScan crc codec root from_ until_) s
      (fun refs t => Reads s t ∧ refs.Perm
        ((placed.filter fun p => (key p.1).any (inRange from_ until_)).map Prod.snd))
      (fun _ _ => False) := by
  obtain ⟨leaves, whole, tree⟩ := h
  have clear' : (leaves.flatten.Pairwise fun a b => a.1 < b.1) ∨ ∀ e ∈ leaves.flatten, e.1 ≠ from_ := by
    refine clear.imp (fun distinct => ?_) fun other e he same => ?_
    · exact pairwise_lt_of_nodup tree.sorted ((whole.map Prod.fst).nodup_iff.mpr distinct)
    · obtain ⟨p, hp, own⟩ := List.mem_filterMap.mp (whole.subset he)
      obtain ⟨k, key, rfl⟩ := Option.map_eq_some_iff.mp own
      exact other p hp (key.trans (congrArg some same))
  refine (tree.wp_rangeScan crc okay data counted limit clear' until_).post ?_
  rintro refs t ⟨reads, rfl⟩
  refine ⟨reads, ?_⟩
  rw [← entriesOf_filter]
  exact (whole.filter _).map _

end Scans

/-! ## Lookups -/

/-- The facts a lookup asks for. -/
def Lookup.selects : Lookup → Fact → Bool
  | .entity entityId => fun f => f.entity = entityId
  | .entityAttribute entityId name => fun f => f.entity = entityId ∧ f.attr = name
  | .attr name => fun f => f.attr = name

/-- The end of an entity's range wraps around for the last UUID. -/
def Lookup.wraps (lookup : Lookup) : Bool := lookup = .entity (Fin.last _)

/-- What a lookup finds among facts that have their keys to themselves: nothing when its
range wraps around. -/
def Lookup.answers (lookup : Lookup) (facts : List Fact) : List Fact :=
  if lookup.wraps then [] else facts.filter lookup.selects

section Answers

variable {H C : Type} (crc : Crc H C) {postcard : Postcard} {s : Store H C}
  {placed : List (Fact × FactRef)}

theorem Store.Committed.eavtTree (h : s.Committed crc postcard placed) :
    ∃ lo hi, lo ≠ 0 ∧ hi ≤ s.dev.header.pageCount ∧
      TreeOf postcard.eavt (some ∘ Fact.eavtKey) s.dev.disk.page lo hi s.dev.header.roots.eavt placed := by
  obtain ⟨next1, next2, next3, eavt, aevt, avet, vaet⟩ := h.indexed.trees
  have b2 := aevt.bounds
  have b3 := avet.bounds
  have b4 := vaet.bounds
  exact ⟨_, next1, by omega, by omega, eavt⟩

theorem Store.Committed.aevtTree (h : s.Committed crc postcard placed) :
    ∃ lo hi, lo ≠ 0 ∧ hi ≤ s.dev.header.pageCount ∧
      TreeOf postcard.aevt (some ∘ Fact.aevtKey) s.dev.disk.page lo hi s.dev.header.roots.aevt placed := by
  obtain ⟨next1, next2, next3, eavt, aevt, avet, vaet⟩ := h.indexed.trees
  have b1 := eavt.bounds
  have b3 := avet.bounds
  have b4 := vaet.bounds
  exact ⟨next1, next2, by omega, by omega, aevt⟩

/-- The fact pages can be read, whatever stands behind them. -/
structure Store.Readable (postcard : Postcard) (s : Store H C) (placed : List (Fact × FactRef)) : Prop where
  inside : s.dev.header.pageCount ≤ s.dev.disk.len
  counted : 1 + s.committedFactPages ≤ s.dev.header.pageCount
  limit : 1 + s.committedFactPages ≤ PAGE_LIMIT
  facts : readPageList postcard.fact 1 (pagesFrom s.dev.disk.page 1 s.committedFactPages) =
    .ok placed
  unread : s.storage.committed = false → placed = []

theorem Store.Readable.wp_committedFacts (h : s.Readable postcard placed) :
    Wp (committedFacts crc postcard) s (fun r t => r = placed.map Prod.fst ∧ t = s)
      (fun _ _ => False) := by
  have counted := h.counted
  have limit := h.limit
  rw [committedFacts, wp_bind, wp_get]
  refine wp_ite (fun _ => ?_) fun none_ => ?_
  · simp only [streamAll, readAllFromPages, onDev, wp_bind, wp_get, wp_zoom]
    refine (wp_readAllWithRefs crc postcard.fact h.inside (by omega) h.facts).mono ?_ ?_
    · rintro _ t ⟨rfl, rfl⟩
      exact ⟨rfl, rfl⟩
    · rintro _ t ⟨_, why⟩
      omega
  · rw [h.unread (by simpa using none_)]
    exact ⟨rfl, rfl⟩

theorem Store.Readable.wp_allFacts (h : s.Readable postcard placed) :
    Wp (allFacts crc postcard) s (fun r t => r = placed.map Prod.fst ++ s.storage.facts ∧ t = s)
      (fun _ _ => False) := by
  rw [allFacts, wp_bind]
  refine (h.wp_committedFacts crc).post ?_
  rintro _ t ⟨rfl, rfl⟩
  exact ⟨rfl, rfl⟩

/-- A tree at `root` indexes the facts; root 0 is no tree. -/
def IndexTree {K : Type} [LinearOrder K] (codec : IndexCodec K) (key : Fact → K) (d : Dev C) (root : Nat)
    (placed : List (Fact × FactRef)) : Prop :=
  (root = 0 ∧ placed = []) ∨ ∃ lo hi, lo ≠ 0 ∧ hi ≤ d.header.pageCount ∧ hi ≤ PAGE_LIMIT ∧
    TreeOf codec (some ∘ key) d.disk.page lo hi root placed

/-- A store that lookups can read: its fact pages, its pending indexes and, where there is
a committed index reader, the trees behind its roots. -/
structure Store.Legible (postcard : Postcard) (s : Store H C) (placed : List (Fact × FactRef)) : Prop where
  okay : s.dev.Ok
  readable : s.Readable postcard placed
  pending : s.storage.Ok
  eavt : ∀ roots, s.storage.committedIndexReader = some roots →
    IndexTree postcard.eavt Fact.eavtKey s.dev roots.eavt placed
  aevt : ∀ roots, s.storage.committedIndexReader = some roots →
    IndexTree postcard.aevt Fact.aevtKey s.dev roots.aevt placed

/-- The committed facts that references lead to: without an index reader there are none. -/
def Store.indexed (s : Store H C) (placed : List (Fact × FactRef)) : List (Fact × FactRef) :=
  if s.storage.committedIndexReader.isNone then [] else placed

theorem Store.Legible.reads {t : Store H C} (h : s.Legible postcard placed) (reads : StoreReads s t) :
    t.Legible postcard placed := by
  obtain ⟨d, rfl, reads⟩ := reads
  obtain ⟨inside, counted, limit, facts, unread⟩ := h.readable
  refine ⟨reads.okay, ⟨?_, ?_, limit, ?_, unread⟩, h.pending, ?_, ?_⟩
  · rw [reads.header, reads.disk]
    exact inside
  · rw [reads.header]
    exact counted
  · rw [reads.disk]
    exact facts
  · intro roots reader
    rw [IndexTree, reads.header, reads.disk]
    exact h.eavt roots reader
  · intro roots reader
    rw [IndexTree, reads.header, reads.disk]
    exact h.aevt roots reader

theorem Store.Readable.resolves (h : s.Readable postcard placed) :
    ∀ p ∈ placed, Resolves postcard s p.2 p.1 := by
  intro p hp
  have committed : s.storage.committed = true := by
    by_contra none_
    rw [h.unread (by simpa using none_)] at hp
    cases hp
  have counted := h.counted
  have limit := h.limit
  obtain ⟨low, page, hpage, hread⟩ := readPageList_mem h.facts hp
  obtain ⟨high, rfl⟩ := List.getElem?_eq_some_iff.mp hpage
  rw [length_pagesFrom] at high
  refine .inr ⟨by omega, committed, by omega, by omega, ?_⟩
  rw [← hread]
  congr 1
  simp only [pagesFrom, List.getElem_map, List.getElem_range', Nat.one_mul]
  rw [Nat.add_sub_cancel' low]

theorem map_filter_fst (l : List (Fact × FactRef)) (q : Fact → Bool) :
    (l.filter fun p => q p.1).map Prod.fst = (l.map Prod.fst).filter q := by
  rw [List.filter_map]
  rfl

/-- A scan of the committed tree of an index. -/
theorem wp_scanCommitted {K : Type} [LinearOrder K] {codec : IndexCodec K} {key : Fact → K}
    {root : Roots → Nat} (okay : s.dev.Ok)
    (tree : ∀ roots, s.storage.committedIndexReader = some roots →
      IndexTree codec key s.dev (root roots) placed)
    {start : K} (clear : (placed.map (key ∘ Prod.fst)).Nodup ∨ ∀ p ∈ placed, key p.1 ≠ start) (stop : K) :
    Wp (scanCommitted crc codec root start stop) s
      (fun refs t => refs.Perm (((s.indexed placed).filter fun p =>
        inRange start (some stop) (key p.1)).map Prod.snd) ∧ StoreReads s t) (fun _ _ => False) := by
  have keys : (entriesOf (some ∘ key) placed).map Prod.fst = placed.map (key ∘ Prod.fst) := by
    rw [entriesOf, List.map_filterMap, ← List.filterMap_eq_map]
    rfl
  rw [scanCommitted, wp_bind, wp_get]
  cases reader : s.storage.committedIndexReader with
  | none =>
      rw [Store.indexed, reader]
      exact ⟨.refl _, .refl okay⟩
  | some roots =>
      have seen : s.indexed placed = placed := by rw [Store.indexed, reader]; rfl
      simp only [seen]
      obtain ⟨none_, rfl⟩ | ⟨lo, hi, data, counted, limit, tree⟩ := tree roots reader
      · rw [if_pos none_]
        exact ⟨.refl _, .refl okay⟩
      · have bounds := tree.bounds
        simp only [if_neg (by omega : ¬ root roots = 0), onDev, wp_zoom]
        refine (tree.wp_rangeScan crc okay data counted limit
          (clear.imp (fun distinct => by rw [keys]; exact distinct)
            fun other p hp same => other p hp (Option.some.inj same)) (some stop)).post ?_
        intro refs t ⟨reads, perm⟩
        exact ⟨perm, t, rfl, reads⟩

/-- The part all lookups share: the pending references are resolved, then the committed
ones, which are filtered once more. -/
theorem Store.Legible.wp_parts {K : Type} [LinearOrder K] {codec : IndexCodec K} {key : Fact → K}
    {root : Roots → Nat} (h : s.Legible postcard placed)
    (tree : ∀ roots, s.storage.committedIndexReader = some roots →
      IndexTree codec key s.dev (root roots) placed)
    {start stop : K} (clear : (placed.map (key ∘ Prod.fst)).Nodup ∨ ∀ p ∈ placed, key p.1 ≠ start) (q post : Fact → Bool)
    (ranged : ∀ f, inRange start (some stop) (key f) = q f) (passes : ∀ f, q f = true → post f = true)
    {refs : List FactRef}
    (pending : refs.Perm (((latestPlaced s.storage.facts).filter fun p => q p.1).map Prod.snd)) :
    Wp (do
        let pending ← resolveAll crc postcard refs
        let refs ← scanCommitted crc codec root start stop
        let committed ← resolveAll crc postcard refs
        pure (pending ++ committed.filter post)) s
      (fun r t => r.Perm (((s.indexed placed).map Prod.fst ++ latestFacts s.storage.facts).filter q) ∧
        StoreReads s t) (fun _ _ => False) := by
  have some_ {l : List (Fact × FactRef)} (resolves : ∀ p ∈ l, Resolves postcard s p.2 p.1) :
      ∀ p ∈ l.filter (fun p => q p.1), Resolves postcard s p.2 p.1 :=
    fun p hp => resolves p (List.mem_filter.mp hp).1
  rw [wp_bind]
  refine (wp_resolveAll_perm crc h.okay
    (some_ fun p hp => latestPlaced_resolves s hp) pending).post ?_
  intro found t ⟨hfound, reads⟩
  rw [map_filter_fst, map_latestPlaced] at hfound
  have h' := h.reads reads
  have tree' : ∀ roots, t.storage.committedIndexReader = some roots →
      IndexTree codec key t.dev (root roots) placed := by
    obtain ⟨d, rfl, reads⟩ := reads
    intro roots reader
    rw [IndexTree, reads.header, reads.disk]
    exact tree roots reader
  have seen : t.indexed placed = s.indexed placed := by
    obtain ⟨d, rfl, _⟩ := reads
    rfl
  have inside : ∀ p ∈ s.indexed placed, p ∈ placed := by
    intro p hp
    unfold Store.indexed at hp
    split at hp
    · cases hp
    · exact hp
  rw [wp_bind]
  refine (wp_scanCommitted crc h'.okay tree' clear stop).post ?_
  intro refs' u ⟨hrefs, reads'⟩
  simp only [ranged, seen] at hrefs
  rw [wp_bind]
  refine (wp_resolveAll_perm crc (h'.reads reads').okay (fun p hp => ?_) hrefs).post ?_
  · have resolves := some_ (fun p hp => h.readable.resolves p (inside p hp)) p hp
    exact (resolves.reads reads).reads reads'
  intro committed v ⟨hcommitted, reads''⟩
  refine ⟨?_, (reads.trans reads').trans reads''⟩
  have kept : committed.filter post = committed := by
    rw [List.filter_eq_self]
    intro f hf
    obtain ⟨p, hp, rfl⟩ := List.mem_map.mp (hcommitted.subset hf)
    exact passes p.1 (List.mem_filter.mp hp).2
  rw [kept, List.filter_append]
  rw [map_filter_fst] at hcommitted
  exact (hfound.append hcommitted).trans List.perm_append_comm

/-- No two facts of a store share an index key. -/
def Store.Distinct (s : Store H C) (placed : List (Fact × FactRef)) : Prop :=
  ((placed.map Prod.fst ++ s.storage.facts).map Fact.eavtKey).Nodup

theorem Store.Distinct.parts (h : s.Distinct placed) :
    (placed.map (Fact.eavtKey ∘ Prod.fst)).Nodup ∧ (s.storage.facts.map Fact.eavtKey).Nodup := by
  rw [Store.Distinct, List.map_append, List.map_map] at h
  obtain ⟨front, back, _⟩ := List.nodup_append.mp h
  exact ⟨front, back⟩

/-- The keys of the other index are as distinct. -/
theorem nodup_aevtKey {ι : Type} {l : List ι} {fact : ι → Fact} (h : (l.map (Fact.eavtKey ∘ fact)).Nodup) :
    (l.map (Fact.aevtKey ∘ fact)).Nodup := by
  rw [List.Nodup, List.pairwise_map] at h ⊢
  refine h.imp fun {a b} ne same => ne ?_
  simp only [Function.comp_apply, Fact.aevtKey, Fact.eavtKey, AevtKey.mk.injEq, EavtKey.mk.injEq]
    at same ⊢
  exact ⟨same.2.1, same.1, same.2.2⟩

/-- A scan finds its first key: the committed facts have keys of their own, or none of them
the key a scan starts at, which no transaction counts. -/
def Scannable (placed : List (Fact × FactRef)) : Prop :=
  (placed.map (Fact.eavtKey ∘ Prod.fst)).Nodup ∨ ∀ p ∈ placed, 1 ≤ p.1.txCount

theorem Scannable.eavt (h : Scannable placed) (entity : EntityId) (attr : Attribute) :
    (placed.map (Fact.eavtKey ∘ Prod.fst)).Nodup ∨ ∀ p ∈ placed, p.1.eavtKey ≠ EavtKey.first entity attr := by
  refine h.imp_right fun counted p hp same => ?_
  have zero : p.1.txCount = 0 := congrArg EavtKey.txCount same
  exact absurd (counted p hp) (by rw [zero]; decide)

theorem Scannable.aevt (h : Scannable placed) (attr : Attribute) :
    (placed.map (Fact.aevtKey ∘ Prod.fst)).Nodup ∨ ∀ p ∈ placed, p.1.aevtKey ≠ AevtKey.first attr := by
  refine h.imp nodup_aevtKey fun counted p hp same => ?_
  have zero : p.1.txCount = 0 := congrArg AevtKey.txCount same
  exact absurd (counted p hp) (by rw [zero]; decide)

/-- A pending index is empty when nothing is pending, and only then. -/
theorem isEmpty_eq {K : Type} [LinearOrder K] {m : OrdMap K FactRef} {key : Fact → K}
    (perm : m.entries.Perm ((latestPlaced s.storage.facts).map fun p => (key p.1, p.2))) :
    m.isEmpty = s.storage.facts.isEmpty := by
  rw [OrdMap.isEmpty, Bool.eq_iff_iff]
  simp only [List.isEmpty_iff]
  rw [← latestPlaced_eq_nil]
  constructor
  · intro empty
    rw [empty] at perm
    exact List.map_eq_nil_iff.mp perm.symm.eq_nil
  · intro empty
    rw [empty] at perm
    exact perm.eq_nil

/-- The committed facts that a lookup looks through: with an index reader all of them, but
none where its range wraps around; without one all of them while nothing is pending, and
else none. -/
def Store.reach (s : Store H C) (placed : List (Fact × FactRef)) (lookup : Lookup) : List Fact :=
  if s.storage.committedIndexReader.isNone && !s.storage.facts.isEmpty then []
  else if s.storage.committedIndexReader.isSome && lookup.wraps then []
  else placed.map Prod.fst

/-- Without an index reader and with nothing pending the facts are read one by one. -/
theorem Store.reach_unindexed {lookup : Lookup} (none_ : s.storage.committedIndexReader.isNone = true)
    (empty : s.storage.facts = []) : s.reach placed lookup = placed.map Prod.fst := by
  rw [Store.reach, empty, if_neg (by simp), if_neg (by simp [Option.isNone_iff_eq_none.mp none_])]

theorem Store.reach_indexed {lookup : Lookup} (inner : lookup.wraps = false)
    (some_ : ¬ (s.storage.facts.isEmpty && s.storage.committedIndexReader.isNone) = true) :
    s.reach placed lookup = (s.indexed placed).map Prod.fst := by
  rw [Store.reach, Store.indexed]
  cases reader : s.storage.committedIndexReader with
  | none =>
      rw [reader, Option.isNone_none, Bool.and_true] at some_
      simp [some_]
  | some roots => simp [inner]

theorem Store.Legible.wp_entityFacts (h : s.Legible postcard placed)
    (clear : Scannable placed)
    {entityId : EntityId} (inner : entityId = Fin.last _ → s.storage.facts = []) :
    Wp (entityFacts crc postcard entityId) s
      (fun r t => r.Perm ((s.reach placed (.entity entityId) ++ latestFacts s.storage.facts).filter
        (Lookup.entity entityId).selects) ∧ StoreReads s t) (fun _ _ => False) := by
  have perm := h.pending.eavt_perm
  simp only [entityFacts, wp_bind, wp_get, isEmpty_eq perm]
  refine wp_ite (fun none_ => ?_) fun some_ => ?_
  · obtain ⟨empty, none_⟩ := Bool.and_eq_true_iff.mp none_
    rw [List.isEmpty_iff] at empty
    rw [Store.reach_unindexed none_ empty, wp_bind]
    refine (h.readable.wp_committedFacts crc).post ?_
    rintro _ t ⟨rfl, rfl⟩
    rw [wp_pure, empty, latestFacts_nil, List.append_nil]
    exact ⟨.refl _, .refl h.okay⟩
  by_cases last : entityId = Fin.last _
  · -- The range is empty, and so are the pending indexes, which would refuse it.
    subst last
    have empty := inner rfl
    have reader : s.storage.committedIndexReader.isSome = true := by
      rw [empty] at some_
      simpa [Option.isSome_iff_ne_none] using some_
    have nothing : s.reach placed (.entity (Fin.last _)) = [] := by
      have wraps : (Lookup.entity (Fin.last _)).wraps = true := by simp [Lookup.wraps]
      rw [Store.reach, reader, wraps, empty]
      simp
    rw [empty] at perm
    have none_ := perm.eq_nil
    rw [nothing, OrdMap.range_eq (.inr none_), none_]
    simp only [List.filter_nil, resolveWhile_eq, List.takeWhile_nil, List.map_nil]
    have noRefs : List.Perm [] (((latestPlaced s.storage.facts).filter fun _ => false).map
        (Prod.snd : Fact × FactRef → FactRef)) := by simp
    have parts := h.wp_parts crc h.eavt (clear.eavt _ _) (fun _ => false) (fun _ => true)
      (fun f => EavtKey.inRange_last f.eavtKey) (fun _ _ => rfl) noRefs
    simp only [List.filter_true, List.filter_false, empty] at parts ⊢
    exact parts
  · have ordered : EavtKey.first entityId "" ≤ EavtKey.first (entityId + 1) "" := by
      rw [EavtKey.first_empty_le]
      exact (Fin.lt_add_one_iff.mpr (Fin.lt_last_iff_ne_last.mpr last)).le
    rw [Store.reach_indexed (by simpa [Lookup.wraps] using last) some_,
      OrdMap.range_eq (.inl ordered)]
    simp only [resolveWhile_eq, EavtKey.inRange_entity last]
    have all : (s.storage.pendingIndexes.eavt.entries.filter fun e => decide (e.1.entity = entityId)).takeWhile
        (fun e => decide (e.1.entity = entityId)) =
        s.storage.pendingIndexes.eavt.entries.filter fun e => decide (e.1.entity = entityId) := by
      rw [List.takeWhile_eq_self_iff]
      exact fun e he => (List.mem_filter.mp he).2
    rw [all]
    have parts := h.wp_parts crc h.eavt (clear.eavt _ _)
      (fun f => f.entity = entityId) (fun _ => true) (fun f => EavtKey.inRange_entity last f.eavtKey)
      (fun _ _ => rfl) (refs_perm perm fun key => decide (key.entity = entityId))
    simp only [List.filter_true] at parts
    exact parts

theorem Store.Legible.wp_entityAttributeFacts (h : s.Legible postcard placed)
    (clear : Scannable placed) (entityId : EntityId) (attr : Attribute) :
    Wp (entityAttributeFacts crc postcard entityId attr) s
      (fun r t => r.Perm ((s.reach placed (.entityAttribute entityId attr) ++ latestFacts s.storage.facts).filter
        (Lookup.entityAttribute entityId attr).selects) ∧ StoreReads s t) (fun _ _ => False) := by
  have perm := h.pending.eavt_perm
  simp only [entityAttributeFacts, wp_bind, wp_get, isEmpty_eq perm]
  refine wp_ite (fun none_ => ?_) fun some_ => ?_
  · obtain ⟨empty, none_⟩ := Bool.and_eq_true_iff.mp none_
    rw [List.isEmpty_iff] at empty
    rw [Store.reach_unindexed none_ empty, wp_bind]
    refine (h.readable.wp_committedFacts crc).post ?_
    rintro _ t ⟨rfl, rfl⟩
    rw [wp_pure, empty, latestFacts_nil, List.append_nil]
    exact ⟨.refl _, .refl h.okay⟩
  · rw [Store.reach_indexed (by simp [Lookup.wraps]) some_]
    simp only [resolveWhile_eq, EavtKey.takeWhile_rangeFrom]
    exact h.wp_parts crc h.eavt (clear.eavt _ _)
      (fun f => decide (f.entity = entityId ∧ f.attr = attr))
      (fun f => decide (f.entity = entityId ∧ f.attr = attr))
      (fun f => EavtKey.inRange_attr entityId attr f.eavtKey) (fun _ => id)
      (refs_perm perm fun key => decide (key.entity = entityId ∧ key.attr = attr))

theorem Store.Legible.wp_attributeFacts (h : s.Legible postcard placed)
    (clear : Scannable placed) (attr : Attribute) :
    Wp (attributeFacts crc postcard attr) s
      (fun r t => r.Perm ((s.reach placed (.attr attr) ++ latestFacts s.storage.facts).filter
        (Lookup.attr attr).selects) ∧ StoreReads s t) (fun _ _ => False) := by
  have perm := h.pending.aevt_perm
  simp only [attributeFacts, wp_bind, wp_get, isEmpty_eq perm]
  refine wp_ite (fun none_ => ?_) fun some_ => ?_
  · obtain ⟨empty, none_⟩ := Bool.and_eq_true_iff.mp none_
    rw [List.isEmpty_iff] at empty
    rw [Store.reach_unindexed none_ empty, wp_bind]
    refine (h.readable.wp_allFacts crc).post ?_
    rintro _ t ⟨rfl, rfl⟩
    rw [empty, latestFacts_nil]
    exact ⟨.refl _, .refl h.okay⟩
  · have ordered : AevtKey.first attr ≤ AevtKey.first (nextAttribute attr) := by
      rw [AevtKey.first_le]
      exact ((attr_in_range attr attr).mpr rfl).2.le
    rw [Store.reach_indexed (by simp [Lookup.wraps]) some_,
      OrdMap.range_eq (.inl ordered)]
    simp only [AevtKey.inRange_attr]
    exact h.wp_parts crc h.aevt (clear.aevt _)
      (fun f => decide (f.attr = attr)) (fun f => decide (f.attr = attr))
      (fun f => AevtKey.inRange_attr attr f.aevtKey) (fun _ => id)
      (refs_perm perm fun key => decide (key.attr = attr))

/-- What a lookup answers: of pending facts with one key the last. The last UUID may be looked
up only while nothing is pending. -/
theorem Store.Legible.wp_lookupLatest (h : s.Legible postcard placed)
    (clear : Scannable placed) (lookup : Lookup)
    (inner : lookup.wraps = true → s.storage.facts = []) :
    Wp (lookupFacts crc postcard lookup) s
      (fun r t => r.Perm ((s.reach placed lookup ++ latestFacts s.storage.facts).filter lookup.selects) ∧
        StoreReads s t) (fun _ _ => False) := by
  cases lookup with
  | entity entityId =>
      exact h.wp_entityFacts crc clear fun last => inner (by simpa [Lookup.wraps] using last)
  | entityAttribute entityId name => exact h.wp_entityAttributeFacts crc clear entityId name
  | attr name => exact h.wp_attributeFacts crc clear name

/-- What a lookup answers where the facts have their keys to themselves. -/
theorem Store.Legible.wp_lookupFacts (h : s.Legible postcard placed) (distinct : s.Distinct placed)
    (lookup : Lookup) (inner : lookup.wraps = true → s.storage.facts = []) :
    Wp (lookupFacts crc postcard lookup) s
      (fun r t => r.Perm ((s.reach placed lookup ++ s.storage.facts).filter lookup.selects) ∧
        StoreReads s t) (fun _ _ => False) := by
  have latest := h.wp_lookupLatest crc (.inl distinct.parts.1) lookup inner
  rw [latestFacts_eq distinct.parts.2] at latest
  exact latest

/-- While facts are pending the range of the last UUID is refused. -/
theorem FactStorage.Ok.lookup_last (postcard : Postcard) (h : s.storage.Ok) (pending : s.storage.facts ≠ []) :
    lookupFacts crc postcard (.entity (Fin.last _)) s = .error .panicked s := by
  have perm := h.eavt_perm
  have filled : s.storage.pendingIndexes.eavt.isEmpty = false := by
    rw [isEmpty_eq perm, List.isEmpty_eq_false_iff]
    exact pending
  have wrapped : EavtKey.first ((Fin.last _ : EntityId) + 1) "" < EavtKey.first (Fin.last _) "" := by
    rw [← not_le, EavtKey.first_empty_le]
    simp [EavtKey.first]
  have refused : s.storage.pendingIndexes.eavt.range (EavtKey.first (Fin.last _) "")
      (EavtKey.first (Fin.last _ + 1) "") = none := by
    rw [OrdMap.range, if_neg (by simp [filled]), if_pos wrapped]
  simp only [lookupFacts, entityFacts, bind, EStateM.bind, get, getThe, MonadStateOf.get, EStateM.get_at,
    filled, Bool.false_and, Bool.false_eq_true, if_false, refused]
  rfl

variable [DecidableEq C]

variable {crc} in
theorem Store.Clean.readable (h : s.Clean crc postcard placed) : s.Readable postcard placed := by
  refine ⟨h.okay.inside, h.inside, h.inside.trans h.limit, h.facts, fun none_ => ?_⟩
  obtain fresh | committed := h.state
  · exact h.placed_nil fresh.pages
  · rw [committed.committed] at none_
    cases none_

theorem Store.Clean.wp_allFacts (h : s.Clean crc postcard placed) :
    Wp (allFacts crc postcard) s (fun r t => r = placed.map Prod.fst ++ s.storage.facts ∧ t = s)
      (fun _ _ => False) := h.readable.wp_allFacts crc

variable {crc} in
theorem Store.Clean.legible (h : s.Clean crc postcard placed) : s.Legible postcard placed := by
  refine ⟨h.okay, h.readable, h.pending, fun roots reader => ?_, fun roots reader => ?_⟩
  · obtain fresh | committed := h.state
    · exact absurd (fresh.reader.symm.trans reader) (by simp)
    · obtain ⟨lo, hi, data, counted, tree⟩ := committed.eavtTree
      cases committed.reader.symm.trans reader
      exact .inr ⟨lo, hi, data, counted, counted.trans h.limit, tree⟩
  · obtain fresh | committed := h.state
    · exact absurd (fresh.reader.symm.trans reader) (by simp)
    · obtain ⟨lo, hi, data, counted, tree⟩ := committed.aevtTree
      cases committed.reader.symm.trans reader
      exact .inr ⟨lo, hi, data, counted, counted.trans h.limit, tree⟩

/-- In good order every committed fact is in reach, unless the range wraps around. -/
theorem Store.Clean.reach_eq (h : s.Clean crc postcard placed) (lookup : Lookup) :
    s.reach placed lookup = if lookup.wraps then [] else placed.map Prod.fst := by
  rw [Store.reach]
  obtain fresh | committed := h.state
  · simp [h.placed_nil fresh.pages]
  · simp [committed.reader]

/-- What a lookup answers. The last UUID may be looked up only while nothing is pending. -/
theorem Store.Clean.wp_lookupFacts (h : s.Clean crc postcard placed) (distinct : s.Distinct placed)
    (lookup : Lookup) (inner : lookup.wraps = false ∨ s.storage.facts = []) :
    Wp (lookupFacts crc postcard lookup) s
      (fun r t => r.Perm (lookup.answers (placed.map Prod.fst ++ s.storage.facts)) ∧ StoreReads s t)
      (fun _ _ => False) := by
  have none_ : lookup.wraps = true → s.storage.facts = [] := fun wraps =>
    inner.resolve_left (by simp [wraps])
  refine (h.legible.wp_lookupFacts crc distinct lookup none_).post ?_
  intro found t ⟨perm, reads⟩
  refine ⟨?_, reads⟩
  rw [h.reach_eq crc] at perm
  cases wraps : lookup.wraps with
  | false =>
      rw [wraps, if_neg Bool.false_ne_true] at perm
      rw [Lookup.answers, wraps, if_neg Bool.false_ne_true]
      exact perm
  | true =>
      rw [wraps, if_pos rfl, none_ wraps] at perm
      rw [Lookup.answers, wraps, if_pos rfl]
      exact perm

end Answers
end Minigraf
