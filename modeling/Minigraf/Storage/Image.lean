import Minigraf.Storage.PersistentFacts

/-!
What a file holds: fact pages that read back as facts at their places, and behind them
four trees with an entry for each of these facts. The programs that read and write the
four trees together, in terms of this.
-/

namespace Minigraf

open Bytes EStateM

/-- `n` pages from `first` on. -/
def pagesFrom (page : Nat → Page) (first n : Nat) : List Page := (List.range' first n).map page

theorem pagesFrom_succ (page : Nat → Page) (first n : Nat) :
    pagesFrom page first (n + 1) = page first :: pagesFrom page (first + 1) n := by
  rw [pagesFrom, List.range'_succ, List.map_cons]
  rfl

theorem pagesFrom_add (page : Nat → Page) (first m n : Nat) :
    pagesFrom page first (m + n) = pagesFrom page first m ++ pagesFrom page (first + m) n := by
  rw [pagesFrom, pagesFrom, pagesFrom, ← List.map_append, List.range'_append_1]

theorem length_pagesFrom (page : Nat → Page) (first n : Nat) :
    (pagesFrom page first n).length = n := by
  rw [pagesFrom, List.length_map, List.length_range']

theorem pagesFrom_congr {page page' : Nat → Page} {first n : Nat}
    (same : ∀ i, first ≤ i → i < first + n → page' i = page i) :
    pagesFrom page' first n = pagesFrom page first n := by
  refine List.map_congr_left fun i hi => ?_
  rw [List.mem_range'_1] at hi
  exact same i hi.1 hi.2

theorem eq_of_pagesFrom_eq {page page' : Nat → Page} {first n : Nat}
    (h : pagesFrom page' first n = pagesFrom page first n) {i : Nat} (low : first ≤ i)
    (high : i < first + n) : page' i = page i :=
  List.map_inj_left.mp h i (List.mem_range'_1.mpr ⟨low, high⟩)

section Programs

variable {H C : Type} (crc : Crc H C)

/-- Reading a counted page from the file. -/
theorem wp_readPage {s : Dev C} (inside : s.header.pageCount ≤ s.disk.len) {id : Nat} (data : id ≠ 0)
    {Q : Page → Dev C → Prop} {E : ErrorCode → Dev C → Prop} (hok : Q (s.disk.page id) s)
    (herr : s.header.pageCount ≤ id ∨ PAGE_LIMIT ≤ id → ∀ e, E e s) :
    Wp (readPage crc id) s Q E := by
  unfold readPage
  simp only [wp_bind, wp_get]
  refine wp_ite (fun beyond => herr (.inl beyond) _) fun counted => ?_
  refine wp_ite (fun far => herr (.inr ((far_iff id).mp far)) _) fun near => ?_
  refine wp_ite (fun outside => ?_) fun _ => ?_
  · omega
  · rw [if_neg data]
    exact hok

theorem wp_hashPages {s : Dev C} (h : s.Ok) (hasher : H) {first n : Nat} (data : first ≠ 0) :
    Wp (hashPages crc hasher first n) s
      (fun r t => t = s ∧ r = crc.feed hasher (pagesFrom s.disk.page first n))
      (fun _ t => t = s ∧ (s.header.pageCount < first + n ∨ PAGE_LIMIT < first + n)) := by
  induction n generalizing hasher first with
  | zero =>
      rw [hashPages, wp_pure]
      exact ⟨rfl, rfl⟩
  | succ n ih =>
      rw [hashPages, wp_bind]
      refine wp_readPage crc h.inside data ?_ fun why _ => ⟨rfl, by omega⟩
      refine (@ih (crc.update hasher (s.disk.page first).val) (first + 1) (by omega)).mono ?_ ?_
      · rintro r t ⟨rfl, rfl⟩
        rw [pagesFrom_succ]
        exact ⟨rfl, rfl⟩
      · rintro _ t ⟨rfl, why⟩
        exact ⟨rfl, by omega⟩

theorem wp_computePageChecksum {s : Dev C} (h : s.Ok) {first n : Nat} (data : first ≠ 0) :
    Wp (computePageChecksum crc first n) s
      (fun r t => t = s ∧ r = crc.finalize (crc.feed crc.new (pagesFrom s.disk.page first n)))
      (fun _ t => t = s ∧ (s.header.pageCount < first + n ∨ PAGE_LIMIT < first + n)) := by
  rw [computePageChecksum, wp_bind]
  refine (wp_hashPages crc h crc.new data).post ?_
  rintro r t ⟨rfl, rfl⟩
  exact ⟨rfl, rfl⟩

theorem wp_readAllWithRefs (postcard : Codec Fact) {s : Dev C}
    (inside : s.header.pageCount ≤ s.disk.len) {first n : Nat} (data : first ≠ 0) {placed : List (Fact × FactRef)}
    (hread : readPageList postcard first (pagesFrom s.disk.page first n) = .ok placed) :
    Wp (readAllWithRefs postcard crc first n) s (fun r t => t = s ∧ r = placed)
      (fun _ t => t = s ∧ (s.header.pageCount < first + n ∨ PAGE_LIMIT < first + n)) := by
  induction n generalizing first placed with
  | zero =>
      cases hread
      rw [readAllWithRefs, wp_pure]
      exact ⟨rfl, rfl⟩
  | succ n ih =>
      rw [pagesFrom_succ, readPageList] at hread
      simp only [bind, Except.bind] at hread
      split at hread
      · cases hread
      rename_i here hhere
      split at hread
      · cases hread
      rename_i rest hrest
      cases hread
      rw [readAllWithRefs, wp_bind]
      refine wp_readPage crc inside data ?_ fun why _ => ⟨rfl, by omega⟩
      rw [wp_bind, hhere, ofResult, wp_pure, wp_bind]
      refine (ih (by omega) hrest).mono ?_ ?_
      · rintro r t ⟨rfl, rfl⟩
        rw [wp_pure]
        exact ⟨rfl, rfl⟩
      · rintro _ t ⟨rfl, why⟩
        exact ⟨rfl, by omega⟩

end Programs

/-! ## Trees of facts -/

section Trees

variable {K : Type}

/-- The entries of an index, in the order of the facts. -/
def entriesOf (key : Fact → Option K) (placed : List (Fact × FactRef)) : List (K × FactRef) :=
  placed.filterMap fun p => (key p.1).map (·, p.2)

theorem entriesOf_append (key : Fact → Option K) (placed placed' : List (Fact × FactRef)) :
    entriesOf key (placed ++ placed') = entriesOf key placed ++ entriesOf key placed' :=
  List.filterMap_append

theorem length_entriesOf_le (key : Fact → Option K) (placed : List (Fact × FactRef)) :
    (entriesOf key placed).length ≤ placed.length := List.length_filterMap_le _ _

variable (codec : IndexCodec K)

/-- The entries of a fact that has a key fit the pages of the index. -/
def EntriesFit (key : Fact → Option K) (placed : List (Fact × FactRef)) : Prop :=
  ∀ e ∈ entriesOf key placed, EntryFits codec e

theorem EntriesFit.append {key : Fact → Option K} {placed placed' : List (Fact × FactRef)}
    (h : EntriesFit codec key placed) (h' : EntriesFit codec key placed') :
    EntriesFit codec key (placed ++ placed') := by
  intro e he
  rw [entriesOf_append] at he
  obtain he | he := List.mem_append.mp he
  · exact h e he
  · exact h' e he

variable [LinearOrder K]

theorem indexEntries_sorted (key : Fact → Option K) (placed : List (Fact × FactRef)) :
    (indexEntries key placed).Pairwise fun a b => a.1 ≤ b.1 := sortEntries_sorted _

theorem indexEntries_perm (key : Fact → Option K) (placed : List (Fact × FactRef)) :
    (indexEntries key placed).Perm (entriesOf key placed) := sortEntries_perm _

/-- A tree with an entry for each fact that has a key. -/
def TreeOf (key : Fact → Option K) (page : Nat → Page) (start stop root : Nat)
    (placed : List (Fact × FactRef)) : Prop :=
  ∃ leaves, leaves.flatten.Perm (entriesOf key placed) ∧ Tree codec page start stop root leaves

theorem TreeOf.agree {key : Fact → Option K} {page page' : Nat → Page} {start stop root : Nat}
    {placed : List (Fact × FactRef)} (h : TreeOf codec key page start stop root placed)
    (same : ∀ i, start ≤ i → i < stop → page' i = page i) :
    TreeOf codec key page' start stop root placed := by
  obtain ⟨leaves, whole, tree⟩ := h
  exact ⟨leaves, whole, tree.agree codec same⟩

theorem TreeOf.bounds {key : Fact → Option K} {page : Nat → Page} {start stop root : Nat}
    {placed : List (Fact × FactRef)} (h : TreeOf codec key page start stop root placed) :
    start ≤ root ∧ root < stop := by
  obtain ⟨leaves, _, tree⟩ := h
  obtain ⟨_, hcovers⟩ := tree.covers
  exact hcovers.bounds

variable {H C : Type} (crc : Crc H C)

/-- A bulk build, for facts at their places. -/
theorem wp_buildTree {key : Fact → Option K} {s : Dev C} (h : s.Ok) {start : Nat} (data : start ≠ 0)
    (dense : start ≤ s.header.pageCount) (limit : start ≤ PAGE_LIMIT)
    {placed : List (Fact × FactRef)} (fits : EntriesFit codec key placed) :
    Wp (buildBtree crc codec (indexEntries key placed) start) s
      (fun r t => Wrote crc (IndexAt start) s t ∧ r.2 ≤ start + 3 * placed.length + 1 ∧
        r.2 ≤ t.header.pageCount ∧ r.2 ≤ PAGE_LIMIT ∧
        TreeOf codec key t.disk.page start r.2 r.1 placed)
      (fun _ t => Stopped crc (IndexAt start) (PAGE_LIMIT < start + 3 * placed.length + 1) s t) := by
  have perm := indexEntries_perm key placed
  have few := length_entriesOf_le key placed
  refine (wp_buildBtree codec crc h data dense limit (fun e he => fits e (perm.mem_iff.mp he))
    (indexEntries_sorted key placed)).mono ?_ ?_
  · rintro r t ⟨wrote, near, hcount, limit', leaves, whole, tree, _⟩
    rw [perm.length_eq] at near
    exact ⟨wrote, by omega, hcount, limit', leaves, by rw [whole]; exact perm, tree⟩
  · intro _ t stopped
    exact stopped.mono (fun _ _ => id) (by rw [perm.length_eq]; omega)

/-- The old leaves of a tree, or none. -/
def LeavesOf (key : Fact → Option K) (pages : List Page) (placed : List (Fact × FactRef)) : Prop :=
  ∃ olds : List (List (K × FactRef)),
    List.Forall₂ (fun page entries => ∃ link, LeafOf codec page entries link) pages olds ∧
    (olds.flatten.Pairwise fun a b => a.1 ≤ b.1) ∧ olds.flatten.Perm (entriesOf key placed)

theorem TreeOf.wp_oldLeaves {key : Fact → Option K} {s : Dev C} (h : s.Ok) {start stop root : Nat}
    (data : start ≠ 0) {placed : List (Fact × FactRef)}
    (tree : TreeOf codec key s.disk.page start stop root placed)
    (counted : stop ≤ s.header.pageCount) (limit : stop ≤ PAGE_LIMIT) :
    Wp (oldLeaves crc root) s (fun pages t => Reads s t ∧ LeavesOf codec key pages placed)
      (fun _ _ => False) := by
  have bounds := tree.bounds
  obtain ⟨leaves, whole, tree⟩ := tree
  rw [oldLeaves, if_neg (by omega)]
  refine (tree.wp_collectLeafPages crc h data counted limit).post ?_
  rintro pages t ⟨reads, hpages⟩
  exact ⟨reads, leaves, hpages, tree.sorted, whole⟩

/-- An incremental rebuild, for old leaves and new facts at their places. -/
theorem wp_rebuildTree {key : Fact → Option K} {s : Dev C} (h : s.Ok) {start : Nat}
    (data : start ≠ 0) (dense : start ≤ s.header.pageCount) (limit : start ≤ PAGE_LIMIT)
    {pages : List Page} {old new : List (Fact × FactRef)} (hold : LeavesOf codec key pages old)
    (fits : EntriesFit codec key (old ++ new)) :
    Wp (rebuildBtreeIncremental crc codec pages (indexEntries key new) start) s
      (fun r t => Wrote crc (IndexAt start) s t ∧ r.2 ≤ start + 3 * (old ++ new).length + 1 ∧
        r.2 ≤ t.header.pageCount ∧ r.2 ≤ PAGE_LIMIT ∧
        TreeOf codec key t.disk.page start r.2 r.1 (old ++ new))
      (fun _ t => Stopped crc (IndexAt start)
        (PAGE_LIMIT < start + 3 * (old ++ new).length + 1) s t) := by
  obtain ⟨olds, hleaves, sorted, whole⟩ := hold
  have perm : (olds.flatten ++ indexEntries key new).Perm (entriesOf key (old ++ new)) := by
    rw [entriesOf_append]
    exact whole.append (indexEntries_perm key new)
  have few := length_entriesOf_le key (old ++ new)
  refine (wp_rebuildBtreeIncremental codec crc h data dense limit hleaves sorted
    (indexEntries_sorted key new) (fun e he => fits e (perm.mem_iff.mp he))).mono ?_ ?_
  · rintro r t ⟨wrote, near, hcount, limit', leaves, hperm, tree, _⟩
    rw [perm.length_eq] at near
    exact ⟨wrote, by omega, hcount, limit', leaves, hperm.trans perm, tree⟩
  · intro _ t stopped
    exact stopped.mono (fun _ _ => id) (by rw [perm.length_eq]; omega)

end Trees

/-! ## The four indexes -/

section Indexes

variable (postcard : Postcard)

/-- The four trees behind each other in `[start, stop)`. -/
structure Indexed (page : Nat → Page) (start stop : Nat) (roots : Roots)
    (placed : List (Fact × FactRef)) : Prop where
  trees : ∃ next1 next2 next3,
    TreeOf postcard.eavt (some ∘ Fact.eavtKey) page start next1 roots.eavt placed ∧
    TreeOf postcard.aevt (some ∘ Fact.aevtKey) page next1 next2 roots.aevt placed ∧
    TreeOf postcard.avet (some ∘ Fact.avetKey) page next2 next3 roots.avet placed ∧
    TreeOf postcard.vaet Fact.vaetKey page next3 stop roots.vaet placed

/-- The entries of facts at their places fit the pages of all four indexes. -/
structure IndexFits (placed : List (Fact × FactRef)) : Prop where
  eavt : EntriesFit postcard.eavt (some ∘ Fact.eavtKey) placed
  aevt : EntriesFit postcard.aevt (some ∘ Fact.aevtKey) placed
  avet : EntriesFit postcard.avet (some ∘ Fact.avetKey) placed
  vaet : EntriesFit postcard.vaet Fact.vaetKey placed

variable {postcard}

theorem IndexFits.append {placed placed' : List (Fact × FactRef)} (h : IndexFits postcard placed)
    (h' : IndexFits postcard placed') : IndexFits postcard (placed ++ placed') :=
  ⟨h.eavt.append _ h'.eavt, h.aevt.append _ h'.aevt, h.avet.append _ h'.avet,
    h.vaet.append _ h'.vaet⟩

theorem Indexed.agree {page page' : Nat → Page} {start stop : Nat} {roots : Roots}
    {placed : List (Fact × FactRef)} (h : Indexed postcard page start stop roots placed)
    (same : ∀ i, start ≤ i → i < stop → page' i = page i) :
    Indexed postcard page' start stop roots placed := by
  obtain ⟨next1, next2, next3, eavt, aevt, avet, vaet⟩ := h.trees
  have b1 := eavt.bounds
  have b2 := aevt.bounds
  have b3 := avet.bounds
  have b4 := vaet.bounds
  exact ⟨next1, next2, next3,
    eavt.agree _ fun i low high => same i (by omega) (by omega),
    aevt.agree _ fun i low high => same i (by omega) (by omega),
    avet.agree _ fun i low high => same i (by omega) (by omega),
    vaet.agree _ fun i low high => same i (by omega) (by omega)⟩

theorem Indexed.bounds {page : Nat → Page} {start stop : Nat} {roots : Roots}
    {placed : List (Fact × FactRef)} (h : Indexed postcard page start stop roots placed) :
    start ≤ roots.eavt ∧ start ≤ roots.aevt ∧ start ≤ roots.avet ∧ start ≤ roots.vaet ∧
      roots.eavt < stop ∧ start + 4 ≤ stop := by
  obtain ⟨next1, next2, next3, eavt, aevt, avet, vaet⟩ := h.trees
  have b1 := eavt.bounds
  have b2 := aevt.bounds
  have b3 := avet.bounds
  have b4 := vaet.bounds
  omega

/-- The first index page is a leaf. -/
theorem Indexed.firstLeaf {page : Nat → Page} {start stop : Nat} {roots : Roots}
    {placed : List (Fact × FactRef)} (h : Indexed postcard page start stop roots placed) :
    (page start).type = PAGE_TYPE_LEAF := by
  obtain ⟨_, _, _, ⟨leaves, _, tree⟩, _⟩ := h.trees
  have some_ : leaves ≠ [] := by
    obtain ⟨rfl, _⟩ | ⟨some_, _⟩ := tree.full
    · simp
    · exact some_
  obtain ⟨first, rest, rfl⟩ := List.exists_cons_of_ne_nil some_
  exact (tree.chain 0 first rfl).type

variable {H C : Type} (crc : Crc H C)

/-- Later index writes leave a tree alone. -/
theorem TreeOf.after {K : Type} {codec : IndexCodec K} [LinearOrder K] {key : Fact → Option K}
    {s t : Dev C} {start stop root : Nat} {placed : List (Fact × FactRef)}
    (h : TreeOf codec key s.disk.page start stop root placed)
    (wrote : Wrote crc (IndexAt stop) s t) :
    TreeOf codec key t.disk.page start stop root placed := by
  refine h.agree _ fun i _ high => ?_
  obtain same | later := wrote.writes.page i
  · exact same
  · exact absurd later.1 (by omega)

/-- A program that writes a tree of the facts from a page on. -/
def WritesTree {K : Type} (codec : IndexCodec K) [LinearOrder K] (key : Fact → Option K)
    (placed : List (Fact × FactRef)) (x : Nat → Io C (Nat × Nat)) : Prop :=
  ∀ s start, Dev.Ok s → start ≠ 0 → start ≤ s.header.pageCount → start ≤ PAGE_LIMIT →
    Wp (x start) s
      (fun r t => Wrote crc (IndexAt start) s t ∧ r.2 ≤ start + 3 * placed.length + 1 ∧
        r.2 ≤ t.header.pageCount ∧ r.2 ≤ PAGE_LIMIT ∧
        TreeOf codec key t.disk.page start r.2 r.1 placed)
      (fun _ t => Stopped crc (IndexAt start) (PAGE_LIMIT < start + 3 * placed.length + 1) s t)

/-- What writing the four trees of facts at their places leaves behind. -/
structure Built (postcard : Postcard) (start : Nat) (placed : List (Fact × FactRef)) (s : Dev C)
    (r : Roots × Nat) (t : Dev C) : Prop where
  wrote : Wrote crc (IndexAt start) s t
  near : r.2 ≤ start + 12 * placed.length + 4
  counted : r.2 ≤ t.header.pageCount
  limit : r.2 ≤ PAGE_LIMIT
  indexed : Indexed postcard t.disk.page start r.2 r.1 placed

theorem wp_chainTrees {placed : List (Fact × FactRef)} {eavt aevt avet vaet : Nat → Io C (Nat × Nat)}
    (heavt : WritesTree crc postcard.eavt (some ∘ Fact.eavtKey) placed eavt)
    (haevt : WritesTree crc postcard.aevt (some ∘ Fact.aevtKey) placed aevt)
    (havet : WritesTree crc postcard.avet (some ∘ Fact.avetKey) placed avet)
    (hvaet : WritesTree crc postcard.vaet Fact.vaetKey placed vaet)
    {s : Dev C} (h : s.Ok) {start : Nat} (data : start ≠ 0) (dense : start ≤ s.header.pageCount)
    (limit : start ≤ PAGE_LIMIT) :
    Wp (chainTrees eavt aevt avet vaet start) s (Built crc postcard start placed s)
      (fun _ t => Stopped crc (IndexAt start) (PAGE_LIMIT < start + 12 * placed.length + 4) s t) := by
  have widen {start' : Nat} (le : start ≤ start') (id : Nat) (p : Page) :
      IndexAt start' id p → IndexAt start id p := IndexAt.mono le
  rw [chainTrees, wp_bind]
  refine (heavt s start h data dense limit).mono ?_ fun _ t stopped =>
    stopped.mono (widen le_rfl) (by omega)
  rintro ⟨r1, next1⟩ t1 ⟨wrote1, near1, count1, limit1, tree1⟩
  have b1 := tree1.bounds
  simp only at near1 count1 limit1
  rw [wp_bind]
  refine (haevt t1 next1 wrote1.okay (by omega) count1 limit1).mono ?_ fun _ t stopped =>
    wrote1.stopped (stopped.mono (widen (by omega)) (by omega))
  rintro ⟨r2, next2⟩ t2 ⟨wrote2, near2, count2, limit2, tree2⟩
  have b2 := tree2.bounds
  have through2 := wrote1.trans (wrote2.mono (widen (by omega)))
  simp only at near2 count2 limit2
  rw [wp_bind]
  refine (havet t2 next2 wrote2.okay (by omega) count2 limit2).mono ?_ fun _ t stopped =>
    through2.stopped (stopped.mono (widen (by omega)) (by omega))
  rintro ⟨r3, next3⟩ t3 ⟨wrote3, near3, count3, limit3, tree3⟩
  have b3 := tree3.bounds
  have through3 := through2.trans (wrote3.mono (widen (by omega)))
  simp only at near3 count3 limit3
  rw [wp_bind]
  refine (hvaet t3 next3 wrote3.okay (by omega) count3 limit3).mono ?_ fun _ t stopped =>
    through3.stopped (stopped.mono (widen (by omega)) (by omega))
  rintro ⟨r4, next4⟩ t4 ⟨wrote4, near4, count4, limit4, tree4⟩
  have b4 := tree4.bounds
  simp only at near4 count4 limit4
  rw [wp_pure]
  have late2 := wrote2.trans ((wrote3.mono fun _ _ => IndexAt.mono (by omega)).trans
    (wrote4.mono fun _ _ => IndexAt.mono (by omega)))
  have late3 := wrote3.trans (wrote4.mono fun _ _ => IndexAt.mono (by omega))
  exact ⟨through3.trans (wrote4.mono (widen (by omega))), by simp only; omega, count4, limit4,
    next1, next2, next3, tree1.after crc late2, tree2.after crc late3, tree3.after crc wrote4, tree4⟩

theorem wp_buildIndexes {placed : List (Fact × FactRef)} (fits : IndexFits postcard placed)
    {s : Dev C} (h : s.Ok) {start : Nat} (data : start ≠ 0) (dense : start ≤ s.header.pageCount)
    (limit : start ≤ PAGE_LIMIT) :
    Wp (buildIndexes crc postcard placed start) s (Built crc postcard start placed s)
      (fun _ t => Stopped crc (IndexAt start) (PAGE_LIMIT < start + 12 * placed.length + 4) s t) :=
  wp_chainTrees crc
    (fun _ _ h data dense limit => wp_buildTree postcard.eavt crc h data dense limit fits.eavt)
    (fun _ _ h data dense limit => wp_buildTree postcard.aevt crc h data dense limit fits.aevt)
    (fun _ _ h data dense limit => wp_buildTree postcard.avet crc h data dense limit fits.avet)
    (fun _ _ h data dense limit => wp_buildTree postcard.vaet crc h data dense limit fits.vaet)
    h data dense limit

/-- The leaves of the four trees of facts at their places. -/
structure OldLeaves.Of (old : OldLeaves) (postcard : Postcard) (placed : List (Fact × FactRef)) :
    Prop where
  eavt : LeavesOf postcard.eavt (some ∘ Fact.eavtKey) old.eavt placed
  aevt : LeavesOf postcard.aevt (some ∘ Fact.aevtKey) old.aevt placed
  avet : LeavesOf postcard.avet (some ∘ Fact.avetKey) old.avet placed
  vaet : LeavesOf postcard.vaet Fact.vaetKey old.vaet placed

theorem wp_rebuildIndexes {old : OldLeaves} {placed new : List (Fact × FactRef)}
    (hold : old.Of postcard placed) (fits : IndexFits postcard (placed ++ new))
    {s : Dev C} (h : s.Ok) {start : Nat} (data : start ≠ 0) (dense : start ≤ s.header.pageCount)
    (limit : start ≤ PAGE_LIMIT) :
    Wp (rebuildIndexes crc postcard old new start) s (Built crc postcard start (placed ++ new) s)
      (fun _ t => Stopped crc (IndexAt start)
        (PAGE_LIMIT < start + 12 * (placed ++ new).length + 4) s t) :=
  wp_chainTrees crc
    (fun _ _ h data dense limit =>
      wp_rebuildTree postcard.eavt crc h data dense limit hold.eavt fits.eavt)
    (fun _ _ h data dense limit =>
      wp_rebuildTree postcard.aevt crc h data dense limit hold.aevt fits.aevt)
    (fun _ _ h data dense limit =>
      wp_rebuildTree postcard.avet crc h data dense limit hold.avet fits.avet)
    (fun _ _ h data dense limit =>
      wp_rebuildTree postcard.vaet crc h data dense limit hold.vaet fits.vaet)
    h data dense limit

theorem Indexed.wp_collectOldLeaves {s : Dev C} (h : s.Ok) {start stop : Nat} (data : start ≠ 0)
    {header : FileHeader C} {placed : List (Fact × FactRef)}
    (indexed : Indexed postcard s.disk.page start stop header.roots placed)
    (counted : stop ≤ s.header.pageCount) (limit : stop ≤ PAGE_LIMIT) :
    Wp (collectOldLeaves crc header) s (fun old t => Reads s t ∧ old.Of postcard placed)
      (fun _ _ => False) := by
  obtain ⟨next1, next2, next3, eavt, aevt, avet, vaet⟩ := indexed.trees
  have b1 := eavt.bounds
  have b2 := aevt.bounds
  have b3 := avet.bounds
  have b4 := vaet.bounds
  rw [collectOldLeaves, wp_bind]
  refine (eavt.wp_oldLeaves postcard.eavt crc h data (by omega) (by omega)).post ?_
  rintro p1 t1 ⟨reads1, leaves1⟩
  have disk1 := reads1.disk
  have header1 := reads1.header
  rw [wp_bind]
  rw [← disk1] at aevt
  refine (aevt.wp_oldLeaves postcard.aevt crc reads1.okay (by omega) (by rw [header1]; omega)
    (by omega)).post ?_
  rintro p2 t2 ⟨reads2, leaves2⟩
  have disk2 := reads2.disk
  have header2 := reads2.header
  rw [wp_bind]
  rw [← disk1, ← disk2] at avet
  refine (avet.wp_oldLeaves postcard.avet crc reads2.okay (by omega)
    (by rw [header2, header1]; omega) (by omega)).post ?_
  rintro p3 t3 ⟨reads3, leaves3⟩
  have disk3 := reads3.disk
  have header3 := reads3.header
  rw [wp_bind]
  rw [← disk1, ← disk2, ← disk3] at vaet
  refine (vaet.wp_oldLeaves postcard.vaet crc reads3.okay (by omega)
    (by rw [header3, header2, header1]; omega) (by omega)).post ?_
  rintro p4 t4 ⟨reads4, leaves4⟩
  rw [wp_pure]
  exact ⟨((reads1.trans reads2).trans reads3).trans reads4, leaves1, leaves2, leaves3, leaves4⟩

/-- Without trees there are no old leaves. -/
theorem wp_collectOldLeaves_none {s : Dev C} (h : s.Ok) {header : FileHeader C}
    (none_ : header.roots = ⟨0, 0, 0, 0⟩) :
    Wp (collectOldLeaves crc header) s (fun old t => Reads s t ∧ old.Of postcard [])
      (fun _ _ => False) := by
  simp only [FileHeader.roots, Roots.mk.injEq] at none_
  obtain ⟨h1, h2, h3, h4⟩ := none_
  have empty {K : Type} (codec : IndexCodec K) [LinearOrder K] (key : Fact → Option K) :
      LeavesOf codec key [] [] := ⟨[], .nil, .nil, .refl _⟩
  simp only [collectOldLeaves, oldLeaves, h1, h2, h3, h4, if_true, wp_bind, wp_pure]
  exact ⟨.refl h, empty _ _, empty _ _, empty _ _, empty _ _⟩

end Indexes
end Minigraf
