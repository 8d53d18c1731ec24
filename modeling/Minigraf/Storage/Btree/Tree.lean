import Minigraf.Storage.Btree.Levels

/-!
On-disk trees: a chain of leaf pages holding sorted entries, and a root that covers
them. A bulk build writes such a tree for the entries it is given.
-/

namespace Minigraf

open Bytes EStateM

section Trees

variable {K : Type} (codec : IndexCodec K)

/-- The bytes of the first key of a leaf. -/
def firstKeyBytes (entries : List (K × FactRef)) : List UInt8 :=
  (entries.head?.map fun e => codec.key.encode e.1).getD []

/-- Leaves at consecutive pages as the level above them sees them. -/
def infosFrom (start : Nat) : List (List (K × FactRef)) → List NodeInfo
  | [] => []
  | entries :: leaves => (start, firstKeyBytes codec entries) :: infosFrom (start + 1) leaves

/-- A leaf page that reads as these entries. -/
structure LeafOf (page : Page) (entries : List (K × FactRef)) (nextLeaf : Nat) : Prop where
  type : page.type = PAGE_TYPE_LEAF
  next : readU64At page 4 = .ok nextLeaf
  slots : validateLeafSlots page = .ok ()
  entries : readLeafEntries codec page = .ok entries

/-- The leaves of a tree at pages `start, start + 1, …`, each linked to the next. -/
def Chain (page : Nat → Page) (start : Nat) (leaves : List (List (K × FactRef))) : Prop :=
  ∀ i entries, leaves[i]? = some entries → LeafOf codec (page (start + i)) entries
    (if i + 1 = leaves.length then 0 else start + i + 1)

variable [LinearOrder K]

/-- A tree in the pages `[start, stop)`: its chain of leaves and the root that covers
them. Only the tree without entries has an empty leaf. -/
structure Tree (page : Nat → Page) (start stop root : Nat) (leaves : List (List (K × FactRef))) :
    Prop where
  chain : Chain codec page start leaves
  covers : ∃ h, Covers page start stop h root (infosFrom codec start leaves)
  sorted : leaves.flatten.Pairwise fun a b => a.1 ≤ b.1
  full : leaves = [[]] ∧ root = start ∨ leaves ≠ [] ∧ ∀ entries ∈ leaves, entries ≠ []
  bound : start + leaves.length ≤ stop

/-- Pages elsewhere do not matter. -/
theorem Tree.agree {page page' : Nat → Page} {start stop root : Nat}
    {leaves : List (List (K × FactRef))} (h : Tree codec page start stop root leaves)
    (same : ∀ i, start ≤ i → i < stop → page' i = page i) :
    Tree codec page' start stop root leaves := by
  have bound := h.bound
  refine ⟨?_, ?_, h.sorted, h.full, bound⟩
  · intro i entries hi
    have inside := (List.getElem?_eq_some_iff.mp hi).1
    rw [same (start + i) (by omega) (by omega)]
    exact h.chain i entries hi
  · obtain ⟨height, hcovers⟩ := h.covers
    exact ⟨height, hcovers.agree same le_rfl⟩

/-- An entry that leaves room for its slot in a leaf, and whose key leaves room for a
child and a slot in an internal page. -/
structure EntryFits (e : K × FactRef) : Prop where
  leaf : LEAF_HEADER_SIZE + 4 + (codec.entry.encode e).length ≤ PAGE_SIZE
  sep : SepFits (codec.key.encode e.1)

end Trees

section Leaves

variable {K : Type} (codec : IndexCodec K)

theorem length_infosFrom (start : Nat) (leaves : List (List (K × FactRef))) :
    (infosFrom codec start leaves).length = leaves.length := by
  induction leaves generalizing start with
  | nil => rfl
  | cons entries leaves ih => rw [infosFrom, List.length_cons, List.length_cons, ih]

theorem infosFrom_append (start : Nat) (leaves leaves' : List (List (K × FactRef))) :
    infosFrom codec start (leaves ++ leaves') =
      infosFrom codec start leaves ++ infosFrom codec (start + leaves.length) leaves' := by
  induction leaves generalizing start with
  | nil => rfl
  | cons entries leaves ih =>
      rw [List.cons_append, infosFrom, ih, infosFrom, List.cons_append, List.length_cons,
        show start + 1 + leaves.length = start + (leaves.length + 1) by omega]

theorem leafInfos_eq (start : Nat) (leaves : List ((K × FactRef) × List (K × FactRef))) :
    leafInfos codec start leaves = infosFrom codec start (leaves.map Greedy.members) := by
  induction leaves generalizing start with
  | nil => rfl
  | cons leaf leaves ih =>
      rw [leafInfos, List.map_cons, infosFrom, ih]
      rfl

/-- Leaves are the level at height zero. -/
theorem levelCovers_infosFrom (page : Nat → Page) {lo hi start : Nat}
    {leaves : List (List (K × FactRef))} (hlo : lo ≤ start) (hhi : start + leaves.length ≤ hi) :
    LevelCovers page lo hi 0 (infosFrom codec start leaves)
      ((infosFrom codec start leaves).map fun info => [info]) := by
  induction leaves generalizing start with
  | nil => exact .nil
  | cons entries leaves ih =>
      rw [List.length_cons] at hhi
      refine .cons ⟨⟨hlo, by simp only; omega, _, rfl⟩, rfl, by simp⟩ ?_
      exact ih (by omega) (by omega)

theorem sepFits_infosFrom {start : Nat} {leaves : List (List (K × FactRef))}
    (fits : ∀ entries ∈ leaves, ∀ e ∈ entries, EntryFits codec e) :
    ∀ info ∈ infosFrom codec start leaves, SepFits info.2 := by
  induction leaves generalizing start with
  | nil => simp [infosFrom]
  | cons entries leaves ih =>
      intro info hinfo
      obtain rfl | hinfo := List.mem_cons.mp hinfo
      · cases entries with
        | nil => exact (by decide : SepFits [])
        | cons e entries => exact (fits _ List.mem_cons_self e List.mem_cons_self).sep
      · exact ih (fun g hg => fits g (List.mem_cons_of_mem _ hg)) info hinfo

/-- Relinking a leaf keeps its entries. -/
theorem LeafPage.relink {page : Page} {records : List (List UInt8)} {next : Nat}
    (h : LeafPage page records next) {next' : Nat} (small : next' < 256 ^ 8) :
    ∃ page', withNextLeaf page next' = .ok page' ∧ LeafPage page' records next' := by
  obtain ⟨page', hwrite, hval⟩ := page.write_inside 4 (leBytes 8 next')
    (by rw [length_leBytes]; decide)
  have agree : Block.AgreeOutside page page' 4 12 :=
    Block.write_agree hwrite le_rfl (by rw [length_leBytes])
  refine ⟨page', by rw [withNextLeaf, hwrite]; rfl, ?_, ?_, ?_, h.room, ?_⟩
  · rw [Page.type_of_readAt (agree 0 1 (by omega)), h.type]
  · rw [agree.readNat (by omega), h.count]
  · rw [hval, readNat_writeAt_self (by rw [page.property]; decide) small]
  · intro i r hr
    refine (h.stored i r hr).agree agree (.inr ?_) ?_ <;> simp only [LEAF_HEADER_SIZE] <;> omega

variable {codec} in
/-- A page that holds the entries of a leaf reads as them. -/
theorem LeafPage.leafOf {page : Page} {entries : List (K × FactRef)} {next : Nat}
    (h : LeafPage page (entries.map codec.entry.encode) next) : LeafOf codec page entries next :=
  ⟨h.type, h.readNext, h.validateLeafSlots, readLeafEntries_leaf codec h⟩

variable {codec} in
/-- A slot of a leaf keeps its bytes behind the slot directory. -/
theorem readSlotBytes_relink {page page' : Page} (agree : Block.AgreeOutside page page' 4 12)
    (slots : validateLeafSlots page = .ok ()) {count : Nat} (hcount : readU16At page 2 = .ok count)
    {i : Nat} (inside : i < count) :
    readSlotBytes page' (LEAF_HEADER_SIZE + i * SLOT_SIZE) =
      readSlotBytes page (LEAF_HEADER_SIZE + i * SLOT_SIZE) := by
  have same (off : Nat) (low : 12 ≤ off) : readU16At page' off = readU16At page off := by
    rw [readU16At, readU16At, agree.readNat (.inr low)]
  simp only [validateLeafSlots, hcount, bind, Except.bind] at slots
  by_cases wide : LEAF_HEADER_SIZE + count * SLOT_SIZE > PAGE_SIZE
  · rw [if_pos wide] at slots
    cases slots
  rw [if_neg wide] at slots
  have slot := List.of_forM_ok slots (List.mem_range.mpr inside)
  simp only [readSlotBytes, bind, Except.bind]
  rw [same _ (by simp only [LEAF_HEADER_SIZE]; omega), same _ (by simp only [LEAF_HEADER_SIZE]; omega)]
  cases hoff : readU16At page (LEAF_HEADER_SIZE + i * SLOT_SIZE) with
  | error e => rfl
  | ok off =>
      cases hlen : readU16At page (LEAF_HEADER_SIZE + i * SLOT_SIZE + 2) with
      | error e => rfl
      | ok len =>
          rw [hoff, hlen] at slot
          have low : ¬ (off < LEAF_HEADER_SIZE + count * SLOT_SIZE ∨ off + len > PAGE_SIZE) := by
            intro bad
            simp only [if_pos bad] at slot
            cases slot
          simp only
          rw [agree off len (.inr (by simp only [LEAF_HEADER_SIZE] at low; omega))]

variable {codec} in
/-- Relinking a leaf keeps its entries. -/
theorem LeafOf.relink {page : Page} {entries : List (K × FactRef)} {next : Nat}
    (h : LeafOf codec page entries next) {next' : Nat} (small : next' < 256 ^ 8) :
    ∃ page', withNextLeaf page next' = .ok page' ∧ LeafOf codec page' entries next' := by
  obtain ⟨page', hwrite, hval⟩ := page.write_inside 4 (leBytes 8 next')
    (by rw [length_leBytes]; decide)
  have agree : Block.AgreeOutside page page' 4 12 :=
    Block.write_agree hwrite le_rfl (by rw [length_leBytes])
  have same (off : Nat) (out : off + 2 ≤ 4 ∨ 12 ≤ off) : readU16At page' off = readU16At page off := by
    rw [readU16At, readU16At, agree.readNat out]
  have counted : readU16At page' 2 = readU16At page 2 := same 2 (by omega)
  have behind (i : Nat) : readU16At page' (LEAF_HEADER_SIZE + i * SLOT_SIZE) =
      readU16At page (LEAF_HEADER_SIZE + i * SLOT_SIZE) :=
    same _ (by simp only [LEAF_HEADER_SIZE]; omega)
  have behind' (i : Nat) : readU16At page' (LEAF_HEADER_SIZE + i * SLOT_SIZE + 2) =
      readU16At page (LEAF_HEADER_SIZE + i * SLOT_SIZE + 2) :=
    same _ (by simp only [LEAF_HEADER_SIZE]; omega)
  refine ⟨page', by rw [withNextLeaf, hwrite]; rfl, ?_, ?_, ?_, ?_⟩
  · rw [Page.type_of_readAt (agree 0 1 (by omega)), h.type]
  · rw [readU64At, hval, readNat_writeAt_self (by rw [page.property]; decide) small]
    rfl
  · rw [← h.slots]
    simp only [validateLeafSlots, counted, behind, behind']
  · rw [← h.entries]
    simp only [readLeafEntries, counted]
    cases hcount : readU16At page 2 with
    | error e => rfl
    | ok count =>
        simp only [bind, Except.bind]
        apply List.mapM_congr
        intro i hi
        rw [readSlotBytes_relink agree h.slots hcount (List.mem_range.mp hi)]

variable {codec} in
/-- The first key of a leaf is that of its first entry. -/
theorem LeafOf.firstKey {page : Page} {entries : List (K × FactRef)} {next : Nat}
    (h : LeafOf codec page entries next) : leafFirstKey codec page = .ok (entries.head?.map Prod.fst) := by
  have read := h.entries
  simp only [readLeafEntries, bind, Except.bind] at read
  simp only [leafFirstKey, bind, Except.bind]
  cases hcount : readU16At page 2 with
  | error e =>
      rw [hcount] at read
      cases read
  | ok count =>
      rw [hcount] at read
      cases count with
      | zero =>
          cases read
          rfl
      | succ count =>
          simp only [List.range_succ_eq_map] at read
          obtain ⟨first, rest, hfirst, _, rfl⟩ := List.mapM_cons_eq_ok read
          rw [Nat.zero_mul, Nat.add_zero] at hfirst
          simp only [Nat.add_one_ne_zero, if_false]
          cases hbytes : readSlotBytes page LEAF_HEADER_SIZE with
          | error e =>
              rw [hbytes] at hfirst
              cases hfirst
          | ok bytes =>
              rw [hbytes] at hfirst
              simp only at hfirst ⊢
              rw [hfirst]
              rfl

variable {H C : Type} (crc : Crc H C)

/-- The entries of a leaf have room. -/
def LeafRoom (entries : List (K × FactRef)) : Prop :=
  LEAF_HEADER_SIZE + 4 * entries.length +
    Block.recordBytes (entries.map codec.entry.encode) ≤ PAGE_SIZE

theorem wp_writeLeaves {s : Dev C} (h : s.Ok) {next : Nat} (dense : next ≤ s.header.pageCount)
    (limit : next ≤ PAGE_LIMIT) {leaves : List ((K × FactRef) × List (K × FactRef))}
    (room : ∀ leaf ∈ leaves, LeafRoom codec (Greedy.members leaf)) :
    Wp (writeLeaves crc codec next leaves) s
      (fun _ t => Wrote crc (IndexAt next) s t ∧ next + leaves.length ≤ t.header.pageCount ∧
        next + leaves.length ≤ PAGE_LIMIT ∧
        ∀ i leaf, leaves[i]? = some leaf →
          LeafPage (t.disk.page (next + i)) (leafRecords codec leaf) 0)
      (fun _ t => Stopped crc (IndexAt next) (PAGE_LIMIT < next + leaves.length) s t) := by
  induction leaves generalizing s next with
  | nil =>
      rw [writeLeaves, wp_pure]
      exact ⟨.refl h, dense, limit, by simp⟩
  | cons leaf leaves ih =>
      have first := room leaf List.mem_cons_self
      obtain ⟨page, hpage, hleaf⟩ := @encodeLeafPage_room (leafRecords codec leaf) 0
        (by rw [leafRecords, List.length_map]; exact first) (by decide)
      rw [writeLeaves, wp_bind, writeLeafPage, wp_bind, hpage, ofResult, wp_pure]
      refine (wp_writeCached crc (IndexAt next) h dense ⟨le_rfl, .inl hleaf.type⟩).mono ?_ ?_
      · rintro _ t ⟨wrote, hpages, hcount, near⟩
        rw [← not_le, far_iff] at near
        refine (@ih t wrote.okay (next + 1) (by omega) (by omega)
          fun l hl => room l (List.mem_cons_of_mem _ hl)).mono ?_ ?_
        · rintro _ u ⟨wrote', hcount', limit', hleaves⟩
          rw [List.length_cons]
          refine ⟨wrote.trans (wrote'.mono fun _ _ => IndexAt.mono (Nat.le_succ _)), by omega,
            by omega, ?_⟩
          intro i l hl
          cases i with
          | zero =>
              obtain rfl : leaf = l := by simpa using hl
              obtain same | later := wrote'.writes.page next
              · rw [Nat.add_zero, same, hpages, Function.update_self]
                exact hleaf
              · exact absurd later.1 (by omega)
          | succ i =>
              rw [show next + (i + 1) = next + 1 + i by omega]
              exact hleaves i l (by simpa using hl)
        · intro _ u stopped
          rw [List.length_cons]
          exact wrote.stopped (stopped.mono (fun _ _ => IndexAt.mono (Nat.le_succ _)) (by omega))
      · intro _ t stopped
        rw [List.length_cons]
        exact stopped.mono (fun _ _ => id) (fun far => by rw [far_iff] at far; omega)

/-- Patching links each leaf to the next and leaves the other pages alone. -/
theorem wp_patchLeaves {s : Dev C} (h : s.Ok) {id n : Nat} (data : id ≠ 0)
    (counted : id + n ≤ s.header.pageCount) (limit : id + n < PAGE_LIMIT)
    {records : Nat → List (List UInt8)}
    (leaf : ∀ i, i < n → LeafPage (s.disk.page (id + i)) (records i) 0) :
    Wp (patchLeaves crc id n) s
      (fun _ t => Wrote crc (IndexAt id) s t ∧ t.header.pageCount = s.header.pageCount ∧
        (∀ i, i < n → LeafPage (t.disk.page (id + i)) (records i) (id + i + 1)) ∧
        ∀ j, id + n ≤ j → t.disk.page j = s.disk.page j)
      (fun _ t => Stopped crc (IndexAt id) False s t) := by
  induction n generalizing s id records with
  | zero =>
      rw [patchLeaves, wp_pure]
      exact ⟨.refl h, rfl, by simp, fun _ _ => rfl⟩
  | succ n ih =>
      rw [patchLeaves, wp_bind]
      refine (wp_getOrLoad crc h data).mono ?_ ?_
      · rintro _ t ⟨rfl, cache, rfl, hok⟩
        obtain ⟨page, hpage, hlinked⟩ := (leaf 0 (Nat.succ_pos n)).relink
          (by simp only [PAGE_LIMIT] at limit; omega : id + 1 < 256 ^ 8)
        rw [Nat.add_zero] at hpage
        rw [wp_bind, hpage, ofResult, wp_pure, wp_bind]
        have moved : Wrote crc (IndexAt id) s { s with cache := cache } :=
          ⟨.single (.other s cache s.faults), hok, fun calm => calm⟩
        refine (wp_writeCached crc (IndexAt id) hok (by simp only; omega)
          ⟨le_rfl, .inl hlinked.type⟩).mono ?_ ?_
        · rintro _ u ⟨wrote, hpages, hcount, -⟩
          have others (j : Nat) (hj : j ≠ id) : u.disk.page j = s.disk.page j := by
            rw [hpages, Function.update_of_ne hj]
          simp only at hcount
          refine (@ih u wrote.okay (id + 1) (by omega) (by omega) (by omega)
            (fun i => records (i + 1)) ?_).mono ?_ ?_
          · intro i hi
            rw [others _ (by omega), show id + 1 + i = id + (i + 1) by omega]
            exact leaf (i + 1) (by omega)
          · rintro _ v ⟨wrote', hcount', hleaves, hrest⟩
            refine ⟨(moved.trans wrote).trans (wrote'.mono fun _ _ => IndexAt.mono (Nat.le_succ _)),
              by omega, ?_, ?_⟩
            · intro i hi
              cases i with
              | zero =>
                  obtain same | later := wrote'.writes.page id
                  · rw [Nat.add_zero, same, hpages, Function.update_self]
                    exact hlinked
                  · exact absurd later.1 (by omega)
              | succ i =>
                  rw [show id + (i + 1) = id + 1 + i by omega]
                  exact hleaves i (by omega)
            · intro j hj
              rw [hrest j (by omega), others j (by omega)]
          · intro _ v stopped
            exact (moved.trans wrote).stopped
              (stopped.mono (fun _ _ => IndexAt.mono (Nat.le_succ _)) (fun no => no))
        · intro _ u stopped
          refine moved.stopped (stopped.mono (fun _ _ => fun h => h) ?_)
          intro far
          rw [far_iff] at far
          omega
      · rintro _ t ⟨rfl, why⟩
        rw [far_iff] at why
        omega

end Leaves

section Build

variable {K : Type} (codec : IndexCodec K) {H C : Type} (crc : Crc H C)

/-- Leaves cut by a fill bound below the page size have room. -/
theorem packLeaves_room {full : PageFill → Nat → Bool}
    (tight : ∀ p len, full p len = false →
      LEAF_HEADER_SIZE + 4 * (p.records + 1) + (p.bytes + len) ≤ PAGE_SIZE)
    {entries : List (K × FactRef)}
    (fits : ∀ e ∈ entries, LEAF_HEADER_SIZE + 4 + (codec.entry.encode e).length ≤ PAGE_SIZE) :
    ∀ leaf ∈ packLeaves codec full entries, LeafRoom codec (Greedy.members leaf) := by
  let Fits (p : PageFill) : Prop := LEAF_HEADER_SIZE + 4 * p.records + p.bytes ≤ PAGE_SIZE
  have start : ∀ e ∈ entries, Fits (.one (codec.entry.encode e).length) := fits
  have step : ∀ (p : PageFill) (e : K × FactRef), e ∈ entries → Fits p →
      full p (codec.entry.encode e).length = false → Fits (p.add (codec.entry.encode e).length) :=
    fun p e _ _ hopen => tight p _ hopen
  intro leaf hleaf
  have room := Greedy.groups_invariant _ _ _ start step leaf hleaf
  rw [PageFill.foldl_add fun e => (codec.entry.encode e).length] at room
  simp only [Fits, PageFill.one] at room
  simp only [LeafRoom, Greedy.members, List.length_cons, Block.recordBytes, List.map_cons,
    List.map_map, List.sum_cons, Function.comp_def]
  omega

theorem leafOverflows_tight (p : PageFill) (len : Nat) (h : leafOverflows p len = false) :
    LEAF_HEADER_SIZE + 4 * (p.records + 1) + (p.bytes + len) ≤ PAGE_SIZE := by
  have near := of_decide_eq_false h
  simp only [LEAF_HEADER_SIZE, SLOT_SIZE, PAGE_FILL_BYTES, PAGE_SIZE] at near ⊢
  omega

theorem length_packLeaves_le (full : PageFill → Nat → Bool) (entries : List (K × FactRef)) :
    (packLeaves codec full entries).length ≤ entries.length :=
  Greedy.groups_length_le _ _ _ entries

theorem packLeaves_flatten (full : PageFill → Nat → Bool) (entries : List (K × FactRef)) :
    ((packLeaves codec full entries).map Greedy.members).flatten = entries := by
  rw [← List.flatMap_def]
  exact Greedy.groups_flatMap _ _ _ entries

theorem flatten_infosFrom (start : Nat) (leaves : List (List (K × FactRef))) :
    ((infosFrom codec start leaves).map fun info => [info]).flatten =
      infosFrom codec start leaves := by
  rw [← List.flatMap_def, List.flatMap_singleton']

variable [LinearOrder K]

/-- The levels over a chain of leaves make it a tree. -/
theorem Chain.wp_levels {s : Dev C} (h : s.Ok) {start : Nat}
    {leaves : List (List (K × FactRef))} (chain : Chain codec s.disk.page start leaves)
    (some_ : leaves ≠ []) (full : ∀ entries ∈ leaves, entries ≠ [])
    (fits : ∀ e ∈ leaves.flatten, EntryFits codec e)
    (sorted : leaves.flatten.Pairwise fun a b => a.1 ≤ b.1)
    (dense : start + leaves.length ≤ s.header.pageCount)
    (limit : start + leaves.length ≤ PAGE_LIMIT) :
    Wp (buildInternalLevels crc (infosFrom codec start leaves) (start + leaves.length)) s
      (fun r t => Wrote crc (IndexAt start) s t ∧ r.2 ≤ start + 3 * leaves.length ∧
        r.2 ≤ t.header.pageCount ∧ r.2 ≤ PAGE_LIMIT ∧ Tree codec t.disk.page start r.2 r.1 leaves ∧
        ∀ id, start + leaves.length ≤ id → id < r.2 → InternalAt t.disk.page id)
      (fun _ t => Stopped crc (IndexAt start) (PAGE_LIMIT < start + 3 * leaves.length) s t) := by
  have level := levelCovers_infosFrom codec s.disk.page (le_refl start) (le_refl (start + leaves.length))
  refine (wp_buildInternalLevels crc h level ?_ (by omega) dense limit
    (sepFits_infosFrom codec fun g hg e he => fits e (List.mem_flatten_of_mem hg he))).mono ?_ ?_
  · rw [← List.length_pos_iff, length_infosFrom]
    exact List.length_pos_iff.mpr some_
  · rintro r t ⟨wrote, hnext, few, hcount, limit', above, height, hcovers⟩
    rw [flatten_infosFrom] at hcovers
    rw [length_infosFrom] at few
    refine ⟨wrote.mono fun _ _ => IndexAt.mono (by omega), by omega, hcount, limit', ⟨?_, ⟨height, hcovers⟩,
      sorted, .inr ⟨some_, full⟩, hnext⟩, above⟩
    intro i g hi
    have inside := (List.getElem?_eq_some_iff.mp hi).1
    obtain same | later := wrote.writes.page (start + i)
    · rw [same]
      exact chain i g hi
    · exact absurd later.1 (by omega)
  · intro _ t stopped
    refine stopped.mono (fun _ _ => IndexAt.mono (by omega)) ?_
    rw [length_infosFrom]
    omega

/-- A bulk build writes a tree of its entries. -/
theorem wp_buildBtree {s : Dev C} (h : s.Ok) {start : Nat} (data : start ≠ 0)
    (dense : start ≤ s.header.pageCount) (limit : start ≤ PAGE_LIMIT)
    {entries : List (K × FactRef)} (fits : ∀ e ∈ entries, EntryFits codec e)
    (sorted : entries.Pairwise fun a b => a.1 ≤ b.1) :
    Wp (buildBtree crc codec entries start) s
      (fun r t => Wrote crc (IndexAt start) s t ∧ r.2 ≤ start + 3 * entries.length + 1 ∧
        r.2 ≤ t.header.pageCount ∧ r.2 ≤ PAGE_LIMIT ∧
        ∃ leaves, leaves.flatten = entries ∧ Tree codec t.disk.page start r.2 r.1 leaves ∧
          ∀ id, start + leaves.length ≤ id → id < r.2 → InternalAt t.disk.page id)
      (fun _ t => Stopped crc (IndexAt start) (PAGE_LIMIT < start + 3 * entries.length + 1) s t) := by
  have whole := packLeaves_flatten codec leafOverflows entries
  have few := length_packLeaves_le codec leafOverflows entries
  have room := packLeaves_room codec leafOverflows_tight fun e he => (fits e he).leaf
  unfold buildBtree
  split
  · rename_i none_
    rw [none_] at whole
    obtain ⟨page, hpage, hleaf⟩ := @encodeLeafPage_room [] 0 (by decide) (by decide)
    rw [wp_bind, writeLeafPage, wp_bind, hpage, ofResult, wp_pure]
    refine (wp_writeCached crc (IndexAt start) h dense ⟨le_rfl, .inl hleaf.type⟩).mono ?_ ?_
    · rintro _ t ⟨wrote, hpages, hcount, near⟩
      rw [← not_le, far_iff] at near
      rw [wp_pure]
      refine ⟨wrote, by simp only; omega, by simp only; omega, by simp only; omega, [[]], whole,
        ⟨?_, ⟨0, le_rfl, by simp, _, rfl⟩, by simp, .inl ⟨rfl, rfl⟩, by simp⟩, fun id low high => ?_⟩
      · intro i entries hi
        cases i with
        | zero =>
            obtain rfl : [] = entries := by simpa using hi
            rw [Nat.add_zero, hpages, Function.update_self]
            exact @LeafPage.leafOf K codec _ [] _ hleaf
        | succ i => simp at hi
      · rw [List.length_singleton] at low
        simp only at high
        omega
    · intro _ t stopped
      exact stopped.mono (fun _ _ => id) (fun far => by rw [far_iff] at far; omega)
  · rename_i some_
    generalize packLeaves codec leafOverflows entries = leaves at *
    have pos : 0 < leaves.length := List.length_pos_iff.mpr some_
    rw [wp_bind]
    refine (wp_writeLeaves codec crc h dense limit room).mono ?_ ?_
    · rintro _ t ⟨wrote, hcount, limit', hleaves⟩
      rw [wp_bind]
      refine (@wp_patchLeaves H C crc t wrote.okay start (leaves.length - 1) data (by omega)
        (by omega) (fun i => ((leaves[i]?).map (leafRecords codec)).getD []) ?_).mono ?_ ?_
      · intro i hi
        have hget : leaves[i]? = some leaves[i] := List.getElem?_eq_getElem (by omega)
        rw [hget]
        exact hleaves i _ hget
      · rintro _ u ⟨wrote', hcount', hlinked, hrest⟩
        have chain : Chain codec u.disk.page start (leaves.map Greedy.members) := by
          intro i g hi
          rw [List.getElem?_map] at hi
          obtain ⟨leaf, hleaf, rfl⟩ := Option.map_eq_some_iff.mp hi
          have inside := (List.getElem?_eq_some_iff.mp hleaf).1
          rw [List.length_map]
          by_cases last : i + 1 = leaves.length
          · rw [if_pos last, hrest _ (by omega)]
            exact (hleaves i leaf hleaf).leafOf
          · rw [if_neg last]
            have := hlinked i (by omega)
            rw [hleaf] at this
            exact this.leafOf
        have full : ∀ g ∈ leaves.map Greedy.members, g ≠ [] := by
          intro g hg
          obtain ⟨leaf, _, rfl⟩ := List.mem_map.mp hg
          exact List.cons_ne_nil _ _
        have levels := Chain.wp_levels codec crc wrote'.okay chain (by simpa using some_) full
          (by rwa [whole]) (by rwa [whole]) (by rw [List.length_map]; omega)
          (by rw [List.length_map]; exact limit')
        rw [List.length_map] at levels
        rw [leafInfos_eq]
        refine levels.mono ?_ ?_
        · rintro r v ⟨wrote'', few', hcount'', limit'', tree, above⟩
          refine ⟨(wrote.trans wrote').trans wrote'', by omega, hcount'', limit'', _, whole, tree, ?_⟩
          rwa [List.length_map]
        · intro _ v stopped
          exact (wrote.trans wrote').stopped (stopped.mono (fun _ _ => id) (by omega))
      · intro _ u stopped
        exact wrote.stopped (stopped.mono (fun _ _ => id) False.elim)
    · intro _ t stopped
      exact stopped.mono (fun _ _ => id) (by omega)

end Build
end Minigraf
