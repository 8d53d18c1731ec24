import Minigraf.Storage.Save

/-!
What a file looks like between two opens, whether the last save finished or was cut
short: the facts can be read, and the header's checksum is that of the trees it tells
of, though other pages may have been written over them since.
-/

namespace Minigraf

open Bytes EStateM

section Headers

variable {H C : Type} {crc : Crc H C} {h : FileHeader C}

theorem FileHeader.Grown.factPages (grown : (FileHeader.new crc).Grown crc h) :
    h.factPageCount = 0 ∧ h.roots = ⟨0, 0, 0, 0⟩ ∧ h.factPages + 1 = h.pageCount ∧
      h.nodeCount = 0 ∧ h.lastCheckpointedTxCount = 0 := by
  obtain rfl | ⟨n, large, rfl⟩ := grown
  · exact ⟨rfl, rfl, rfl, rfl, rfl⟩
  · refine ⟨rfl, rfl, ?_, rfl, rfl⟩
    have large : 1 < n := large
    change n - 1 + 1 = n
    omega

theorem FileHeader.factPages_of_pos (pos : 0 < h.factPageCount) : h.factPages = h.factPageCount :=
  if_pos pos

theorem FileHeader.Grown.trans {h' h'' : FileHeader C} (grown : h.Grown crc h')
    (grown' : h'.Grown crc h'') : h.Grown crc h'' := by
  obtain rfl | ⟨n, large, rfl⟩ := grown
  · exact grown'
  · obtain rfl | ⟨m, larger, rfl⟩ := grown'
    · exact .inr ⟨n, large, rfl⟩
    · exact .inr ⟨m, large.trans larger, FileHeader.grown_grown crc h n m⟩

theorem FileHeader.Grown.fields {h' : FileHeader C} (grown : h.Grown crc h') :
    h'.factPageCount = h.factPageCount ∧ h'.roots = h.roots ∧ h'.nodeCount = h.nodeCount ∧
      h'.indexChecksum = h.indexChecksum ∧ h'.lastCheckpointedTxCount = h.lastCheckpointedTxCount ∧
      h.pageCount ≤ h'.pageCount := by
  obtain rfl | ⟨n, large, rfl⟩ := grown
  · exact ⟨rfl, rfl, rfl, rfl, rfl, le_rfl⟩
  · exact ⟨rfl, rfl, rfl, rfl, rfl, large.le⟩

theorem IndexAt.type_ne {start id : Nat} {p : Page} (h : IndexAt start id p) :
    p.type ≠ PAGE_TYPE_PACKED := by
  obtain leaf | internal := h.2
  · rw [leaf]
    decide
  · rw [internal]
    decide

end Headers

section Pending

variable {H C : Type} (postcard : Postcard)

/-- The pending facts on the first `m` pages of their packing. -/
def Store.pendingUpTo (s : Store H C) (m : Nat) : List (Fact × FactRef) :=
  ((packGroups postcard.fact s.storage.facts).take m).flatten.zip
    (packedRefs (1 + s.committedFactPages) ((packGroups postcard.fact s.storage.facts).take m))

variable {postcard}

theorem Store.map_pendingAt (s : Store H C) :
    (s.pendingAt postcard).map Prod.fst = s.storage.facts := by
  rw [Store.pendingAt, List.map_fst_zip]
  rw [length_packedRefs, packGroups_flatten]

theorem Store.map_pendingUpTo (s : Store H C) (m : Nat) :
    (s.pendingUpTo postcard m).map Prod.fst =
      ((packGroups postcard.fact s.storage.facts).take m).flatten := by
  rw [Store.pendingUpTo, List.map_fst_zip]
  rw [length_packedRefs]

theorem Store.pendingUpTo_isPrefix (s : Store H C) (m : Nat) :
    s.pendingUpTo postcard m <+: s.pendingAt postcard := by
  have whole := packGroups_flatten postcard.fact s.storage.facts
  rw [Store.pendingUpTo, Store.pendingAt]
  generalize packGroups postcard.fact s.storage.facts = groups at whole ⊢
  rw [← whole]
  conv_rhs => rw [← List.take_append_drop m groups, List.flatten_append, packedRefs_append]
  rw [List.zip_append (length_packedRefs _ _).symm]
  exact List.prefix_append _ _

theorem IndexFits.of_prefix {placed placed' : List (Fact × FactRef)}
    (h : IndexFits postcard placed') (front : placed <+: placed') : IndexFits postcard placed := by
  obtain ⟨rest, rfl⟩ := front
  have left {K : Type} {key : Fact → Option K} {e : K × FactRef} (he : e ∈ entriesOf key placed) :
      e ∈ entriesOf key (placed ++ rest) := by
    rw [entriesOf_append]
    exact List.mem_append_left _ he
  exact ⟨fun e he => h.eavt e (left he), fun e he => h.aevt e (left he),
    fun e he => h.avet e (left he), fun e he => h.vaet e (left he)⟩

/-- The first pages of a new file, when a save got so far. -/
theorem readPageList_torn {groups : List (List Fact)} {pages : List Page} {page : Nat → Page} {m : Nat}
    (h : List.Forall₂ (fun group page => PackedPage page (group.map postcard.fact.encode)) groups pages)
    (kinds : ∀ id, 1 ≤ id → id ≤ m → SaveAt 0 pages id (page id)) :
    readPageList postcard.fact 1 (pagesFrom page 1 m) =
      .ok ((groups.take m).flatten.zip (packedRefs 1 (groups.take m))) := by
  have width := h.length_eq
  have front : pagesFrom page 1 (min m pages.length) = pages.take m := by
    apply List.ext_getElem
    · rw [length_pagesFrom, List.length_take]
    · intro i low high
      rw [length_pagesFrom] at low
      obtain ⟨_, here⟩ | ⟨at_, _⟩ := kinds (1 + i) (by omega) (by omega)
      · rw [Nat.add_zero, Nat.add_sub_cancel_left] at here
        rw [List.getElem_take]
        simp only [pagesFrom, List.getElem_map, List.getElem_range', Nat.one_mul]
        exact (Option.some.inj ((List.getElem?_eq_getElem (by omega)).symm.trans here)).symm
      · omega
  have read := readPageList_packed postcard.fact 1 (List.forall₂_take m h)
  have split : pagesFrom page 1 m =
      pages.take m ++ pagesFrom page (1 + min m pages.length) (m - min m pages.length) := by
    rw [← front, ← pagesFrom_add]
    congr 1
    omega
  rw [split, readPageList_append postcard.fact 1 _ _ read,
    readPageList_skip postcard.fact _ fun p hp => ?_]
  · simp only [bind, Except.bind, List.append_nil]
    rfl
  · obtain ⟨i, hi, rfl⟩ := List.mem_map.mp hp
    rw [List.mem_range'_1] at hi
    obtain ⟨_, here⟩ | at_ := kinds i (by omega) (by omega)
    · have := (List.getElem?_eq_some_iff.mp here).1
      omega
    · exact at_.type_ne

end Pending

section Sound

variable {H C : Type} (crc : Crc H C) (postcard : Postcard)

/-- The trees the header tells of, as they were when its checksum was taken. -/
def Disk.Imaged (d : Disk C) (placed : List (Fact × FactRef)) : Prop :=
  0 < d.header.factPageCount ∧ ∃ image size,
    Indexed postcard image (1 + d.header.factPageCount) size d.header.roots placed ∧
    d.header.indexChecksum = pagesChecksum crc image (size - 1) ∧ size ≤ d.header.pageCount

variable {crc postcard} in
theorem Store.Committed.imaged {s : Store H C} {placed : List (Fact × FactRef)} (h : s.Committed crc postcard placed)
    (synced : s.dev.disk.header = s.dev.header) : s.dev.disk.Imaged crc postcard placed := by
  rw [Disk.Imaged, synced, h.counted]
  exact ⟨h.pages, s.dev.disk.page, s.dev.header.pageCount, h.indexed, h.checksum, le_rfl⟩

variable [DecidableEq C]

/-- A file that holds the facts at `placed`. -/
structure Disk.Sound (d : Disk C) (placed : List (Fact × FactRef)) : Prop where
  checked : checkHeader crc d.header = .ok ()
  inside : d.header.pageCount ≤ d.len
  limit : d.header.pageCount ≤ PAGE_LIMIT
  facts : readPageList postcard.fact 1 (pagesFrom d.page 1 d.header.factPages) = .ok placed
  fits : IndexFits postcard placed
  nodes : 0 < d.header.factPageCount → d.header.nodeCount = placed.length
  indexes : (FileHeader.new crc).Grown crc d.header ∨ d.Imaged crc postcard placed

/-- Whether `load` rebuilds the indexes of a file. -/
def Disk.rebuilds (d : Disk C) : Bool :=
  if d.header.factPages = 0 ∨ d.header.eavtRootPage = 0 then decide (d.header.factPages > 0)
  else
    decide (pagesChecksum crc d.page (d.header.pageCount - 1) ≠ d.header.indexChecksum) &&
      decide (pagesChecksum crc d.page d.header.factPages ≠ d.header.indexChecksum)

variable {crc postcard}

variable {d : Disk C} {placed : List (Fact × FactRef)}

theorem Disk.Sound.within (h : d.Sound crc postcard placed) :
    1 + d.header.factPages ≤ d.header.pageCount := by
  obtain grown | ⟨pos, image, size, indexed, _, counted⟩ := h.indexes
  · have := grown.factPages
    omega
  · rw [FileHeader.factPages_of_pos pos]
    have := indexed.bounds
    omega

theorem Disk.Sound.validated (h : d.Sound crc postcard placed) : d.header.validate = .ok () := by
  have within := h.within
  have root : ¬ (d.header.eavtRootPage ≠ 0 ∧ d.header.eavtRootPage ≥ d.header.pageCount) := by
    obtain grown | ⟨_, image, size, indexed, _, counted⟩ := h.indexes
    · obtain ⟨_, roots, _⟩ := grown.factPages
      exact fun bad => bad.1 (congrArg Roots.eavt roots)
    · have := indexed.bounds.2.2.2.2.1
      simp only [FileHeader.roots] at this
      omega
  have counts : ¬ d.header.factPageCount > d.header.pageCount := by
    obtain grown | ⟨pos, _⟩ := h.indexes
    · rw [grown.factPages.1]
      omega
    · rw [FileHeader.factPages_of_pos pos] at within
      omega
  simp only [FileHeader.validate, if_neg (by omega : ¬ d.header.pageCount = 0), if_neg root,
    if_neg counts]
  rfl

/-- What any run of page writes leaves of a file's header. -/
theorem Disk.Sound.grown {s t : Dev C} {ok : Nat → Page → Prop}
    (h : s.disk.Sound crc postcard placed) (synced : s.disk.header = s.header)
    (writes : Writes crc ok s t) :
    s.disk.header.Grown crc t.disk.header ∧ checkHeader crc t.disk.header = .ok () ∧
      t.disk.header.pageCount ≤ t.disk.len ∧ t.disk.header.pageCount ≤ PAGE_LIMIT := by
  obtain ⟨grown, behind⟩ := writes.diskHeader synced
  rw [← synced] at grown
  refine ⟨grown, ?_, behind.trans (writes.len ?_).1, behind.trans (writes.limit ?_ ?_)⟩
  · obtain same | ⟨n, _, same⟩ := grown
    · rw [same]
      exact h.checked
    · rw [same]
      exact if_neg fun bad => bad.2 rfl
  · rw [← synced]
    exact h.inside
  · intro id near
    rw [← not_le, far_iff] at near
    omega
  · rw [← synced]
    exact h.limit

/-- With committed trees, whatever is written behind the fact pages leaves a file sound. -/
theorem Disk.Sound.overwritten {s t : Dev C} {ok : Nat → Page → Prop}
    (h : s.disk.Sound crc postcard placed) (imaged : s.disk.Imaged crc postcard placed)
    (synced : s.disk.header = s.header) (writes : Writes crc ok s t)
    (behind : ∀ id p, ok id p → s.disk.header.factPages < id) : t.disk.Sound crc postcard placed := by
  obtain ⟨grown, checked, inside, limit⟩ := h.grown synced writes
  obtain ⟨pages, roots, nodes, checksum, _, count⟩ := grown.fields
  obtain ⟨pos, image, size, indexed, hchecksum, counted⟩ := imaged
  have same : t.disk.header.factPages = s.disk.header.factPages := by
    rw [FileHeader.factPages_of_pos pos, FileHeader.factPages_of_pos (by omega), pages]
  refine ⟨checked, inside, limit, ?_, h.fits, by rw [pages, nodes]; exact h.nodes,
    .inr ⟨by omega, image, size, ?_, by rw [checksum, hchecksum], by omega⟩⟩
  · rw [same, ← h.facts, pagesFrom_congr fun i _ high => ?_]
    obtain kept | admitted := writes.page i
    · exact kept
    · have := behind i _ admitted
      omega
  · rw [pages, roots]
    exact indexed

/-- Without trees every counted page is a fact page, so new pages add the facts they
hold. -/
theorem Disk.Sound.extended {s t : Dev C} {ok : Nat → Page → Prop}
    {more : List (Fact × FactRef)} (h : s.disk.Sound crc postcard placed)
    (bare : (FileHeader.new crc).Grown crc s.disk.header) (synced : s.disk.header = s.header)
    (writes : Writes crc ok s t) (behind : ∀ id p, ok id p → s.disk.header.factPages < id)
    (facts : readPageList postcard.fact (1 + s.disk.header.factPages) (pagesFrom t.disk.page
      (1 + s.disk.header.factPages) (t.disk.header.factPages - s.disk.header.factPages)) = .ok more)
    (fits : IndexFits postcard more) : t.disk.Sound crc postcard (placed ++ more) := by
  obtain ⟨grown, checked, inside, limit⟩ := h.grown synced writes
  have count := grown.fields.2.2.2.2.2
  have before := bare.factPages
  have after := (bare.trans grown).factPages
  refine ⟨checked, inside, limit, ?_, h.fits.append fits, by omega, .inl (bare.trans grown)⟩
  rw [show t.disk.header.factPages = s.disk.header.factPages +
    (t.disk.header.factPages - s.disk.header.factPages) by omega]
  refine readPageList_saved h.facts (fun i low => ?_) facts
  obtain kept | admitted := writes.page i
  · exact kept
  · have := behind i _ admitted
    omega

/-- Index pages written behind the fact pages of a sound file leave it sound. -/
theorem Disk.Sound.indexWrites {s t : Dev C} (h : s.disk.Sound crc postcard placed)
    (synced : s.disk.header = s.header)
    (writes : Writes crc (IndexAt (1 + s.disk.header.factPages)) s t) :
    t.disk.Sound crc postcard placed := by
  have behind : ∀ id p, IndexAt (1 + s.disk.header.factPages) id p → s.disk.header.factPages < id :=
    fun id p at_ => by have := at_.1; omega
  obtain bare | imaged := h.indexes
  · have grown := (h.grown synced writes).1
    have before := bare.factPages
    have after := (bare.trans grown).factPages
    have count := (writes.diskHeader synced).2
    have kinds : ∀ id, 1 + s.disk.header.factPages ≤ id → id < t.header.pageCount →
        IndexAt (1 + s.disk.header.factPages) id (t.disk.page id) := writes.counted
      (fun id low high => by rw [← synced] at high; omega) (fun id p at_ _ => at_)
    rw [← List.append_nil placed]
    refine h.extended bare synced writes behind (readPageList_skip postcard.fact _ fun p hp => ?_)
      ⟨nofun, nofun, nofun, nofun⟩
    obtain ⟨i, hi, rfl⟩ := List.mem_map.mp hp
    rw [List.mem_range'_1] at hi
    exact (kinds i hi.1 (by omega)).type_ne
  · exact h.overwritten imaged synced writes behind

/-! ## What a save leaves on disk -/

variable {s : Store H C}

theorem Store.Clean.factPages (h : s.Clean crc postcard placed) :
    s.dev.disk.header.factPages = s.committedFactPages := by
  rw [h.synced]
  obtain fresh | committed := h.state
  · rw [fresh.header, fresh.pages]
    rfl
  · rw [FileHeader.factPages_of_pos (by rw [committed.counted]; exact committed.pages),
      committed.counted]

theorem Store.Clean.sound (h : s.Clean crc postcard placed) :
    s.dev.disk.Sound crc postcard placed := by
  refine ⟨by rw [h.synced]; exact h.checked, by rw [h.synced]; exact h.okay.inside,
    by rw [h.synced]; exact h.limit, by rw [h.factPages]; exact h.facts, h.fits,
    fun _ => by rw [h.synced]; exact h.nodes, ?_⟩
  obtain fresh | committed := h.state
  · rw [h.synced, fresh.header]
    exact .inl (.inl rfl)
  · exact .inr (committed.imaged h.synced)

/-- A save that was cut short leaves a sound file: with the committed facts, in a new
file with the pending facts on the first pages of their packing, or with all facts when
only the last sync failed. -/
theorem Torn.sound {d : Dev C} (h : s.Clean crc postcard placed)
    (fits : IndexFits postcard (s.pendingAt postcard)) (torn : Torn crc postcard s placed d) :
    (d.disk.Sound crc postcard placed ∧ s.dev.header.Grown crc d.disk.header) ∨
      (s.Fresh crc ∧ (FileHeader.new crc).Grown crc d.disk.header ∧
        ∃ m, d.disk.Sound crc postcard (s.pendingUpTo postcard m)) ∨
      (d.disk.Sound crc postcard (placed ++ s.pendingAt postcard) ∧
        d.disk.header.lastCheckpointedTxCount = s.storage.txCounter) := by
  cases torn with
  | untouched header disk =>
      rw [disk]
      exact .inl ⟨h.sound, .inl h.synced⟩
  | unsynced u saved header disk =>
      rw [disk]
      refine .inr (.inr ⟨saved.clean.sound, ?_⟩)
      rw [saved.clean.synced]
      exact saved.last
  | overwritten pages refs packed writes =>
      have behind : ∀ id p, SaveAt s.committedFactPages pages id p →
          s.dev.disk.header.factPages < id := by
        rintro id p (⟨at_, _⟩ | ⟨at_, _⟩)
        · rw [h.factPages]
          omega
        · rw [h.factPages]
          omega
      have grown := (h.sound.grown h.synced writes).1
      obtain fresh | committed := h.state
      · obtain ⟨_, hpages, _⟩ := packFacts_ok postcard.fact packed
        have bare : (FileHeader.new crc).Grown crc s.dev.disk.header := by
          rw [h.synced, fresh.header]
          exact .inl rfl
        have after := (bare.trans grown).factPages
        have count := (writes.diskHeader h.synced).2
        have none_ : s.dev.disk.header.factPages = 0 := by rw [h.factPages, fresh.pages]
        -- The file had no data pages, so every counted page is one the save wrote.
        have kinds : ∀ id, 1 ≤ id → id < d.header.pageCount →
            SaveAt s.committedFactPages pages id (d.disk.page id) := writes.counted
          (fun id low high => by rw [fresh.header] at high; exact absurd low (not_le.mpr high))
          (fun id p at_ _ => at_)
        rw [fresh.pages] at kinds
        have read := readPageList_torn (m := d.disk.header.factPages) hpages
          fun id low high => kinds id low (by omega)
        have extended : d.disk.Sound crc postcard
            (placed ++ s.pendingUpTo postcard d.disk.header.factPages) :=
          h.sound.extended bare h.synced writes behind
          (by rw [none_, Nat.sub_zero, Nat.add_zero, read, Store.pendingUpTo, fresh.pages])
          (fits.of_prefix (s.pendingUpTo_isPrefix _))
        rw [h.placed_nil fresh.pages, List.nil_append] at extended
        exact .inr (.inl ⟨fresh, bare.trans grown, _, extended⟩)
      · rw [h.synced] at grown
        exact .inl ⟨h.sound.overwritten (committed.imaged h.synced) h.synced writes behind, grown⟩

end Sound

end Minigraf
