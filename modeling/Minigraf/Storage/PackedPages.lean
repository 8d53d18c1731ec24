import Minigraf.Lib.Greedy
import Minigraf.Lib.Results
import Minigraf.Lib.Slots
import Minigraf.Storage.Device
import Minigraf.Storage.Index

/-!
Packed fact pages of `src/storage/packed_pages.rs`. The packing loop fills a page
while the next fact fits, which is the greedy grouping of the serialised facts; each
group is one page.
-/

namespace Minigraf

open Bytes EStateM

def PAGE_TYPE_PACKED : UInt8 := 0x02

def PACKED_HEADER_SIZE : Nat := 12

def MAX_FACT_BYTES : Nat := PAGE_SIZE - PACKED_HEADER_SIZE - 4

/-- The page under construction: how many records it has and how many bytes they
take. -/
structure PageFill where
  records : Nat
  bytes : Nat

def PageFill.one (len : Nat) : PageFill := ⟨1, len⟩

def PageFill.add (p : PageFill) (len : Nat) : PageFill := ⟨p.records + 1, p.bytes + len⟩

theorem PageFill.foldl_add {α : Type} (len : α → Nat) (l : List α) (p : PageFill) :
    l.foldl (fun p a => p.add (len a)) p = ⟨p.records + l.length, p.bytes + (l.map len).sum⟩ := by
  induction l generalizing p with
  | nil => rfl
  | cons a l ih =>
      rw [List.foldl_cons, ih]
      simp only [PageFill.add, List.length_cons, List.map_cons, List.sum_cons, PageFill.mk.injEq]
      omega

/-- Whether `pack_facts` flushes the current page before a record of `len` bytes. -/
def packedFull (p : PageFill) (len : Nat) : Bool :=
  let free := (PAGE_SIZE - p.bytes) - (PACKED_HEADER_SIZE + 4 * p.records + 4)
  decide (len > free) || p.records == 65535

def newPackedPage : Page :=
  ⟨PAGE_TYPE_PACKED :: List.replicate (PAGE_SIZE - 1) 0, by
    rw [List.length_cons, List.length_replicate]
    rfl⟩

def encodePackedPage (records : List (List UInt8)) : Except ErrorCode Page :=
  let page := do
    let page ← newPackedPage.putRecords PACKED_HEADER_SIZE PAGE_SIZE records
    page.write 2 (leBytes 2 records.length)
  page.elim (.error .int024) .ok

/-- The type byte of a page. -/
def Page.type (page : Page) : UInt8 := page.val.headD 0

section Packing

variable (postcard : Codec Fact)

def serialiseFact (f : Fact) : Except ErrorCode (List UInt8) :=
  if (postcard.encode f).length > MAX_FACT_BYTES then throw .int023 else pure (postcard.encode f)

/-- The references of the records of a page. -/
def slotRefs (pageId n : Nat) : List FactRef := (List.range n).map (⟨pageId, ·⟩)

/-- The references of the facts of consecutive pages. -/
def packedRefs (start : Nat) : List (List Fact) → List FactRef
  | [] => []
  | group :: rest => slotRefs start group.length ++ packedRefs (start + 1) rest

/-- The facts of each page `pack_facts` makes; the last page is flushed even when
there is no fact. -/
def packGroups (facts : List Fact) : List (List Fact) :=
  match Greedy.groups (fun p f => packedFull p (postcard.encode f).length)
      (fun p f => p.add (postcard.encode f).length)
      (fun f => PageFill.one (postcard.encode f).length) facts with
  | [] => [[]]
  | groups => groups.map Greedy.members

def packFacts (facts : List Fact) (startPageId : Nat) :
    Except ErrorCode (List Page × List FactRef) := do
  let _ ← facts.mapM (serialiseFact postcard)
  let groups := packGroups postcard facts
  let pages ← groups.mapM fun group => encodePackedPage (group.map postcard.encode)
  pure (pages, packedRefs startPageId groups)

/-! ## Reading -/

/-- The `record_count` field. -/
def recordCount (page : Page) : Nat := (readNat page.val 2 2).getD 0

def readSlot (page : Page) (slot : Nat) : Except ErrorCode Fact :=
  if page.type ≠ PAGE_TYPE_PACKED then throw .stg014
  else if recordCount page ≤ slot then throw .int024
  else
    match readNat page.val (PACKED_HEADER_SIZE + slot * 4) 2,
        readNat page.val (PACKED_HEADER_SIZE + slot * 4 + 2) 2 with
    | some offset, some length =>
        if offset + length > PAGE_SIZE then throw .stg015
        else
          match readAt page.val offset length with
          | none => throw .int024
          | some bytes => (postcard.decode bytes).elim (.error .postcard) .ok
    | _, _ => throw .int024

/-- The facts of one page with their references; a page of another type has none. -/
def readSlots (pageId : Nat) (page : Page) : Except ErrorCode (List (Fact × FactRef)) :=
  if page.type ≠ PAGE_TYPE_PACKED then pure []
  else
    (List.range (recordCount page)).mapM fun slot => do
      let fact ← readSlot postcard page slot
      pure (fact, ⟨pageId, slot⟩)

variable {H C : Type} (crc : Crc H C)

def readAllWithRefs (firstPageId : Nat) : Nat → Io C (List (Fact × FactRef))
  | 0 => pure []
  | n + 1 => do
      let page ← readPage crc firstPageId
      let placed ← ofResult (readSlots postcard firstPageId page)
      let rest ← readAllWithRefs (firstPageId + 1) n
      pure (placed ++ rest)

def readAllFromPages (firstPageId n : Nat) : Io C (List Fact) := do
  let placed ← readAllWithRefs postcard crc firstPageId n
  pure (placed.map Prod.fst)

/-! ## What was packed is read back -/

theorem Page.type_of_readAt {page page' : Page} (h : readAt page'.val 0 1 = readAt page.val 0 1) :
    page'.type = page.type := by
  have front (p : Page) : readAt p.val 0 1 = some [p.type] := by
    obtain ⟨bytes, width⟩ := p
    cases bytes with
    | nil => cases width
    | cons b rest => simp [readAt, Page.type]
  rw [front, front] at h
  simpa using h

/-- A page holds records when it is a packed page with as many slots, each leading to
its record. -/
structure PackedPage (page : Page) (records : List (List UInt8)) : Prop where
  type : page.type = PAGE_TYPE_PACKED
  count : recordCount page = records.length
  stored : ∀ i r, records[i]? = some r → Block.Stored page (PACKED_HEADER_SIZE + 4 * i) 0 r

/-- The records lie behind the directory. -/
theorem encodePackedPage_stored {records : List (List UInt8)}
    (room : PACKED_HEADER_SIZE + 4 * records.length + Block.recordBytes records ≤ PAGE_SIZE) :
    ∃ page, encodePackedPage records = .ok page ∧ page.type = PAGE_TYPE_PACKED ∧
      recordCount page = records.length ∧
      ∀ i r, records[i]? = some r → Block.Stored page (PACKED_HEADER_SIZE + 4 * i)
        (PACKED_HEADER_SIZE + 4 * records.length) r := by
  obtain ⟨page, hput, hagree, hstored⟩ := newPackedPage.putRecords_stored
    (by decide : PAGE_SIZE < 65536) room le_rfl
  simp only [PACKED_HEADER_SIZE, PAGE_SIZE] at room hagree hstored
  have counted : 2 + (leBytes 2 records.length).length ≤ PAGE_SIZE := by
    rw [length_leBytes]
    decide
  obtain ⟨page', hwrite, hval⟩ := page.write_inside 2 (leBytes 2 records.length) counted
  have hagree' : Block.AgreeOutside page page' 2 4 :=
    Block.write_agree hwrite le_rfl (by rw [length_leBytes])
  have few : records.length < 256 ^ 2 := by omega
  refine ⟨page', ?_, ?_, ?_, ?_⟩
  · simp only [encodePackedPage, hput, Option.bind_eq_bind, Option.bind_some, hwrite,
      Option.elim_some]
  · have kept : readAt page'.val 0 1 = readAt newPackedPage.val 0 1 := by
      rw [hagree' 0 1 (by omega), hagree 0 1 (by simp)]
    rw [Page.type_of_readAt kept]
    rfl
  · rw [recordCount, hval, readNat_writeAt_self (by rw [page.property]; decide) few,
      Option.getD_some]
  · intro i r hr
    obtain ⟨off, hoff, hlen, hread, low⟩ :=
      (hstored i r hr).agree hagree' (.inr (by omega)) (by omega)
    exact ⟨off, hoff, hlen, hread, by simp only [PACKED_HEADER_SIZE]; omega⟩

theorem encodePackedPage_room {records : List (List UInt8)}
    (room : PACKED_HEADER_SIZE + 4 * records.length + Block.recordBytes records ≤ PAGE_SIZE) :
    ∃ page, encodePackedPage records = .ok page ∧ PackedPage page records := by
  obtain ⟨page, encoded, type, count, stored⟩ := encodePackedPage_stored room
  refine ⟨page, encoded, type, count, fun i r hr => ?_⟩
  obtain ⟨off, hoff, hlen, hread, _⟩ := stored i r hr
  exact ⟨off, hoff, hlen, hread, Nat.zero_le _⟩

theorem readSlot_packed {page : Page} {facts : List Fact}
    (h : PackedPage page (facts.map postcard.encode)) {i : Nat} {f : Fact}
    (hf : facts[i]? = some f) : readSlot postcard page i = .ok f := by
  have inside : i < facts.length := (List.getElem?_eq_some_iff.mp hf).1
  obtain ⟨off, hoff, hlen, hread, _⟩ :=
    h.stored i (postcard.encode f) (by rw [List.getElem?_map, hf, Option.map_some])
  have bound := (readAt_eq_some hread).1
  rw [page.property] at bound
  rw [Nat.mul_comm 4 i] at hoff hlen
  unfold readSlot
  rw [if_neg (by simp [h.type]), if_neg (by rw [h.count, List.length_map]; omega), hoff, hlen]
  simp only [if_neg (by omega : ¬ off + (postcard.encode f).length > PAGE_SIZE), hread,
    postcard.decode_encode, Option.elim_some]

theorem readSlots_packed {page : Page} {facts : List Fact}
    (h : PackedPage page (facts.map postcard.encode)) (pageId : Nat) :
    readSlots postcard pageId page = .ok (facts.zip (slotRefs pageId facts.length)) := by
  cases facts with
  | nil =>
      have empty : recordCount page = 0 := h.count
      rw [readSlots, if_neg (by simp [h.type]), empty]
      rfl
  | cons first rest =>
      have each : ∀ i ∈ List.range (recordCount page),
          (do let fact ← readSlot postcard page i; pure (fact, FactRef.mk pageId i)) =
            (Except.ok ((first :: rest).getD i first, FactRef.mk pageId i) :
              Except ErrorCode _) := by
        intro i hi
        rw [h.count, List.length_map, List.mem_range] at hi
        have hf : (first :: rest)[i]? = some ((first :: rest).getD i first) := by
          rw [List.getD_eq_getElem?_getD, List.getElem?_eq_getElem hi, Option.getD_some]
        rw [readSlot_packed postcard h hf]
        rfl
      rw [readSlots, if_neg (by simp [h.type]), List.mapM_ok each, h.count, List.length_map]
      congr 1
      apply List.ext_getElem
      · simp [slotRefs]
      · intro i h₁ h₂
        have inside : i < (first :: rest).length := by simpa using h₁
        simp [slotRefs, List.getElem?_eq_getElem inside]

/-! ## Whole packings -/

/-- The facts of consecutive pages with their references. -/
def readPageList (firstPageId : Nat) : List Page → Except ErrorCode (List (Fact × FactRef))
  | [] => pure []
  | page :: pages => do
      let placed ← readSlots postcard firstPageId page
      let rest ← readPageList (firstPageId + 1) pages
      pure (placed ++ rest)

/-- The page under construction has room for its header, its slots and its records. -/
def Room (p : PageFill) : Prop := PACKED_HEADER_SIZE + 4 * p.records + p.bytes ≤ PAGE_SIZE

def Fact.Fits (f : Fact) : Prop := (postcard.encode f).length ≤ MAX_FACT_BYTES

/-- The records of each group fit one page. -/
theorem packGroups_room {facts : List Fact} (fits : ∀ f ∈ facts, f.Fits postcard) :
    ∀ group ∈ packGroups postcard facts, PACKED_HEADER_SIZE + 4 * (group.map postcard.encode).length +
      Block.recordBytes (group.map postcard.encode) ≤ PAGE_SIZE := by
  have start : ∀ f ∈ facts, Room (PageFill.one (postcard.encode f).length) := by
    intro f hf
    have := fits f hf
    simp only [Fact.Fits, Room, MAX_FACT_BYTES, PACKED_HEADER_SIZE, PAGE_SIZE, PageFill.one]
      at this ⊢
    omega
  have step : ∀ p f, f ∈ facts → Room p → packedFull p (postcard.encode f).length = false →
      Room (p.add (postcard.encode f).length) := by
    intro p f _ hp hroom
    have some_ : 0 < (postcard.encode f).length :=
      List.length_pos_iff.mpr (postcard.encode_ne_nil f)
    obtain ⟨free, -⟩ := Bool.or_eq_false_iff.mp hroom
    have free := of_decide_eq_false free
    simp only [Room, PACKED_HEADER_SIZE, PAGE_SIZE, PageFill.add] at hp free ⊢
    omega
  have room := Greedy.groups_invariant _ _ _ start step
  intro group hgroup
  unfold packGroups at hgroup
  split at hgroup
  · rw [List.mem_singleton] at hgroup
    subst hgroup
    rw [List.map_nil]
    decide
  · obtain ⟨g, hg, rfl⟩ := List.mem_map.mp hgroup
    have := room g hg
    rw [PageFill.foldl_add fun f => (postcard.encode f).length] at this
    simp only [Room, Greedy.members, List.length_map, List.length_cons, Block.recordBytes,
      List.map_cons, List.map_map, List.sum_cons, PageFill.one] at this ⊢
    simp only [Function.comp_def]
    omega

theorem packGroups_flatten (facts : List Fact) : (packGroups postcard facts).flatten = facts := by
  have whole := Greedy.groups_flatMap
    (fun p f => packedFull p (postcard.encode f).length)
    (fun p f => p.add (postcard.encode f).length)
    (fun f => PageFill.one (postcard.encode f).length) facts
  unfold packGroups
  split
  · rename_i none_
    rw [none_] at whole
    rw [← whole]
    rfl
  · rw [← List.flatMap_def]
    exact whole

theorem packGroups_ne_nil (facts : List Fact) : packGroups postcard facts ≠ [] := by
  unfold packGroups
  split
  · simp
  · rename_i some_
    simpa using some_

/-- What a successful packing is: every fact fits, and each page holds its group. -/
theorem packFacts_ok {facts : List Fact} {start : Nat} {pages : List Page} {refs : List FactRef}
    (h : packFacts postcard facts start = .ok (pages, refs)) :
    (∀ f ∈ facts, f.Fits postcard) ∧
      List.Forall₂ (fun group page => PackedPage page (group.map postcard.encode))
        (packGroups postcard facts) pages ∧
      refs = packedRefs start (packGroups postcard facts) := by
  simp only [packFacts, bind, Except.bind] at h
  split at h
  · cases h
  · rename_i records hrecords
    split at h
    · cases h
    · rename_i pages' hpages
      cases h
      have fits : ∀ f ∈ facts, f.Fits postcard := by
        intro f hf
        obtain ⟨i, inside, rfl⟩ := List.getElem_of_mem hf
        have each := List.forall₂_of_mapM_ok hrecords
        have := each.get inside (by rw [← each.length_eq]; exact inside)
        simp only [List.get_eq_getElem, serialiseFact] at this
        split at this
        · cases this
        · exact Nat.le_of_not_gt ‹_›
      refine ⟨fits, ?_, rfl⟩
      have room := packGroups_room postcard fits
      have each := List.forall₂_of_mapM_ok hpages
      clear hpages hrecords
      revert room
      generalize packGroups postcard facts = groups at each
      intro room
      induction each with
      | nil => exact .nil
      | cons hpage _ ih =>
          obtain ⟨page, hencode, hholds⟩ := encodePackedPage_room (room _ List.mem_cons_self)
          rw [hencode] at hpage
          cases hpage
          exact .cons hholds (ih fun g hg => room g (List.mem_cons_of_mem _ hg))

theorem packFacts_fits {facts : List Fact} (fits : ∀ f ∈ facts, f.Fits postcard) (start : Nat) :
    ∃ pages, packFacts postcard facts start =
      .ok (pages, packedRefs start (packGroups postcard facts)) := by
  have sizes : facts.mapM (serialiseFact postcard) = .ok (facts.map postcard.encode) :=
    List.mapM_ok fun f hf => if_neg (Nat.not_lt.mpr (fits f hf))
  have each : ∀ group ∈ packGroups postcard facts, ∃ page,
      encodePackedPage (group.map postcard.encode) = .ok page := by
    intro group hgroup
    obtain ⟨page, hpage, _⟩ := encodePackedPage_room (packGroups_room postcard fits group hgroup)
    exact ⟨page, hpage⟩
  obtain ⟨pages, hpages⟩ := List.exists_mapM_ok each
  refine ⟨pages, ?_⟩
  simp only [packFacts, sizes, bind, Except.bind, hpages]
  rfl

theorem length_packedRefs (start : Nat) (groups : List (List Fact)) :
    (packedRefs start groups).length = groups.flatten.length := by
  induction groups generalizing start with
  | nil => rfl
  | cons group rest ih =>
      simp only [packedRefs, List.length_append, ih, List.flatten_cons, slotRefs, List.length_map,
        List.length_range]

theorem mem_packedRefs {start : Nat} {groups : List (List Fact)} {r : FactRef}
    (h : r ∈ packedRefs start groups) :
    r.pageId < start + groups.length ∧ r.slotIndex < groups.flatten.length := by
  induction groups generalizing start with
  | nil => cases h
  | cons group rest ih =>
      rw [List.length_cons, List.flatten_cons, List.length_append]
      obtain here | later := List.mem_append.mp h
      · obtain ⟨slot, hslot, rfl⟩ := List.mem_map.mp here
        have := List.mem_range.mp hslot
        constructor <;> simp only <;> omega
      · have := ih later
        omega

theorem length_packGroups_le (facts : List Fact) :
    (packGroups postcard facts).length ≤ facts.length + 1 := by
  have groups := Greedy.groups_length_le (fun p f => packedFull p (postcard.encode f).length)
    (fun p f => p.add (postcard.encode f).length)
    (fun f => PageFill.one (postcard.encode f).length) facts
  unfold packGroups
  split
  · exact Nat.le_add_left 1 _
  · rw [List.length_map]
    omega

theorem readPageList_append (first : Nat) (pages pages' : List Page)
    {placed : List (Fact × FactRef)} (h : readPageList postcard first pages = .ok placed) :
    readPageList postcard first (pages ++ pages') = (do
      let rest ← readPageList postcard (first + pages.length) pages'
      pure (placed ++ rest)) := by
  induction pages generalizing first placed with
  | nil =>
      cases h
      simp
  | cons page pages ih =>
      simp only [readPageList, bind, Except.bind] at h
      split at h
      · cases h
      · rename_i here hhere
        split at h
        · cases h
        · rename_i rest hrest
          cases h
          have next : first + (page :: pages).length = first + 1 + pages.length := by
            rw [List.length_cons]
            omega
          rw [List.cons_append, readPageList, hhere, ih (first + 1) hrest, next]
          simp only [bind, Except.bind]
          cases readPageList postcard (first + 1 + pages.length) pages' with
          | error e => rfl
          | ok later => simp [pure, Except.pure]

/-- Pages of another type hold no facts. -/
theorem readPageList_skip (first : Nat) {pages : List Page}
    (h : ∀ page ∈ pages, page.type ≠ PAGE_TYPE_PACKED) :
    readPageList postcard first pages = .ok [] := by
  induction pages generalizing first with
  | nil => rfl
  | cons page pages ih =>
      rw [readPageList, readSlots, if_pos (h page List.mem_cons_self),
        ih (first + 1) fun p hp => h p (List.mem_cons_of_mem page hp)]
      rfl

/-- The pages of a packing are read back as its facts, each under its reference. -/
theorem readPageList_packed (start : Nat) {groups : List (List Fact)} {pages : List Page}
    (h : List.Forall₂ (fun group page => PackedPage page (group.map postcard.encode)) groups pages) :
    readPageList postcard start pages = .ok (groups.flatten.zip (packedRefs start groups)) := by
  induction h generalizing start with
  | nil => rfl
  | @cons group page groups pages hpage _ ih =>
      have widths : group.length = (slotRefs start group.length).length := by simp [slotRefs]
      rw [readPageList, readSlots_packed postcard hpage, ih (start + 1), List.flatten_cons,
        packedRefs, List.zip_append widths]
      rfl

end Packing
end Minigraf
