import Minigraf.Storage.Separators

/-!
What `pack_facts` packs is read back: by slot, and from the pages of one or several packings
written behind each other. Its page ids are 64 bit and stop at the largest.
-/

namespace Minigraf

open Bytes EStateM

section Packing

variable (postcard : Codec Fact)

/-- `saturating_add` on page ids. -/
def saturatedId (id : Nat) : Nat := min id (2 ^ 64 - 1)

/-- `pack_facts` with the start page as the source has it. -/
def packFactsAt (facts : List Fact) (startPageId : UInt64) : Except ErrorCode (List Page × List FactRef) := do
  let (pages, refs) ← packFacts postcard facts startPageId.toNat
  pure (pages, refs.map fun r => { r with pageId := saturatedId r.pageId })

/-- The records of a page lie between its directory and its end. -/
def Page.RecordsApart (page : Page) : Prop :=
  ∀ slot, slot < recordCount page → ∃ offset length,
    readNat page.val (PACKED_HEADER_SIZE + slot * 4) 2 = some offset ∧
    readNat page.val (PACKED_HEADER_SIZE + slot * 4 + 2) 2 = some length ∧
    PACKED_HEADER_SIZE + 4 * recordCount page ≤ offset ∧ offset + length ≤ PAGE_SIZE

/-- Each reference leads to its fact. -/
def SlotsRead (facts : List Fact) (start : Nat) (pages : List Page) (refs : List FactRef) : Prop :=
  List.Forall₂ (fun f r => start ≤ r.pageId ∧ ∃ page, pages[r.pageId - start]? = some page ∧
    readSlot postcard page r.slotIndex = .ok f) facts refs

/-- Several packings at consecutive starts, one behind the other. -/
inductive Generations : UInt64 → List (List Fact) → List Page → List FactRef → Prop
  | nil (start : UInt64) : Generations start [] [] []
  | cons {start next : UInt64} {facts : List Fact} {batches : List (List Fact)} {pages pages' : List Page}
      {refs refs' : List FactRef} (packed : packFactsAt postcard facts start = .ok (pages, refs))
      (behind : next.toNat = start.toNat + pages.length) (later : Generations next batches pages' refs') :
      Generations start (facts :: batches) (pages ++ pages') (refs ++ refs')

variable {postcard}

theorem packFactsAt_ok {facts : List Fact} {start : UInt64} {pages : List Page} {refs : List FactRef}
    (h : packFactsAt postcard facts start = .ok (pages, refs)) :
    ∃ refs', packFacts postcard facts start.toNat = .ok (pages, refs') ∧
      refs = refs'.map fun r => { r with pageId := saturatedId r.pageId } := by
  simp only [packFactsAt, bind, Except.bind] at h
  split at h
  · cases h
  · rename_i result packed
    cases h
    exact ⟨result.2, packed, rfl⟩

/-- Ids within 64 bits are not cut. -/
theorem saturated_refs {refs : List FactRef} (near : ∀ r ∈ refs, r.pageId < 2 ^ 64) :
    refs.map (fun r => { r with pageId := saturatedId r.pageId }) = refs := by
  refine (List.map_congr_left fun r hr => ?_).trans (List.map_id refs)
  have := near r hr
  rw [saturatedId, min_eq_left (by omega)]
  rfl

theorem packFactsAt_near {facts : List Fact} {start : UInt64} {pages : List Page} {refs : List FactRef}
    (h : packFactsAt postcard facts start = .ok (pages, refs)) (near : start.toNat + pages.length ≤ 2 ^ 64) :
    packFacts postcard facts start.toNat = .ok (pages, refs) := by
  obtain ⟨refs', packed, rfl⟩ := packFactsAt_ok h
  obtain ⟨_, each, hrefs⟩ := packFacts_ok postcard packed
  have width := each.length_eq
  rw [saturated_refs fun r hr => ?_]
  · exact packed
  · rw [hrefs] at hr
    have := (mem_packedRefs hr).1
    omega

theorem packFacts_error_iff {facts : List Fact} {start : Nat} :
    (∃ e, packFacts postcard facts start = .error e) ↔
      ∃ f ∈ facts, MAX_FACT_BYTES < (postcard.encode f).length := by
  constructor
  · rintro ⟨e, failed⟩
    by_contra none_
    push Not at none_
    obtain ⟨pages, packed⟩ := packFacts_fits postcard none_ start
    rw [packed] at failed
    cases failed
  · rintro ⟨f, hf, large⟩
    cases result : packFacts postcard facts start with
    | error e => exact ⟨e, rfl⟩
    | ok packed => exact absurd ((packFacts_ok postcard result).1 f hf) (Nat.not_le.mpr large)

theorem packFactsAt_error_iff {facts : List Fact} {start : UInt64} :
    (∃ e, packFactsAt postcard facts start = .error e) ↔
      ∃ f ∈ facts, MAX_FACT_BYTES < (postcard.encode f).length := by
  rw [← packFacts_error_iff]
  simp only [packFactsAt, bind, Except.bind]
  cases packFacts postcard facts start.toNat with
  | error e => exact ⟨fun _ => ⟨e, rfl⟩, fun _ => ⟨e, rfl⟩⟩
  | ok packed =>
      constructor
      · rintro ⟨_, no⟩
        cases no
      · rintro ⟨_, no⟩
        cases no

/-! ## Pages -/

theorem packFacts_apart {facts : List Fact} {start : Nat} {pages : List Page} {refs : List FactRef}
    (h : packFacts postcard facts start = .ok (pages, refs)) : ∀ page ∈ pages, page.RecordsApart := by
  have fits := (packFacts_ok postcard h).1
  have room := packGroups_room postcard fits
  simp only [packFacts, bind, Except.bind] at h
  split at h
  · cases h
  split at h
  · cases h
  rename_i pages' hpages
  cases h
  intro page hpage
  obtain ⟨group, hgroup, encoded⟩ := List.exists_of_mapM_ok hpages hpage
  obtain ⟨page', encoded', -, count, stored⟩ := encodePackedPage_stored (room group hgroup)
  rw [encoded] at encoded'
  cases encoded'
  intro slot inside
  rw [count] at inside
  obtain ⟨off, hoff, hlen, hread, low⟩ := stored slot _ (List.getElem?_eq_getElem inside)
  have high := (readAt_eq_some hread).1
  rw [page.property] at high
  refine ⟨off, _, ?_, ?_, ?_, high⟩
  · rw [Nat.mul_comm slot 4]
    exact hoff
  · rw [Nat.mul_comm slot 4]
    exact hlen
  · rw [count]
    exact low

/-- The slots of consecutive pages, by the groups they hold. -/
theorem slotsRead_packed {groups : List (List Fact)} {pages : List Page} (start : Nat)
    (each : List.Forall₂ (fun group page => PackedPage page (group.map postcard.encode)) groups pages) :
    SlotsRead postcard groups.flatten start pages (packedRefs start groups) := by
  induction each generalizing start with
  | nil => exact .nil
  | @cons group page groups pages holds _ ih =>
      rw [List.flatten_cons, packedRefs]
      refine List.rel_append ?_ ?_
      · refine List.forall₂_iff_get.mpr ⟨by simp [slotRefs], fun i inside inside' => ?_⟩
        simp only [slotRefs, List.get_eq_getElem, List.getElem_map, List.getElem_range]
        refine ⟨le_rfl, page, by rw [Nat.sub_self]; rfl, ?_⟩
        exact readSlot_packed postcard holds (List.getElem?_eq_getElem inside)
      · refine (ih (start + 1)).imp fun f r there => ?_
        obtain ⟨low, page', here, read⟩ := there
        refine ⟨by omega, page', ?_, read⟩
        rw [show r.pageId - start = r.pageId - (start + 1) + 1 by omega, List.getElem?_cons_succ]
        exact here

theorem packFacts_slots {facts : List Fact} {start : Nat} {pages : List Page} {refs : List FactRef}
    (h : packFacts postcard facts start = .ok (pages, refs)) : SlotsRead postcard facts start pages refs := by
  obtain ⟨_, each, rfl⟩ := packFacts_ok postcard h
  have read := slotsRead_packed start each
  rwa [packGroups_flatten] at read

/-! ## Several packings -/

theorem packFacts_readBack {facts : List Fact} {start : Nat} {pages : List Page} {refs : List FactRef}
    (h : packFacts postcard facts start = .ok (pages, refs)) :
    readPageList postcard start pages = .ok (facts.zip refs) ∧ facts.length = refs.length := by
  obtain ⟨_, each, rfl⟩ := packFacts_ok postcard h
  have read := readPageList_packed postcard start each
  rw [packGroups_flatten] at read
  exact ⟨read, by rw [length_packedRefs, packGroups_flatten]⟩

theorem Generations.read {start : UInt64} {batches : List (List Fact)} {pages : List Page} {refs : List FactRef}
    (h : Generations postcard start batches pages refs) (near : start.toNat + pages.length ≤ 2 ^ 64) :
    readPageList postcard start.toNat pages = .ok (batches.flatten.zip refs) := by
  induction h with
  | nil start => rfl
  | @cons start next facts batches pages pages' refs refs' packed behind later ih =>
      rw [List.length_append] at near
      have packed := packFactsAt_near packed (by omega)
      obtain ⟨read, width⟩ := packFacts_readBack packed
      rw [readPageList_append postcard start.toNat pages pages' read, ← behind, ih (by omega),
        List.flatten_cons, List.zip_append width]
      rfl

variable {H C : Type} (crc : Crc H C)

/-- The file has these data pages from `start` on. -/
structure Dev.HoldsPages (s : Dev C) (start : Nat) (pages : List Page) : Prop where
  inside : s.header.pageCount ≤ s.disk.len
  data : start ≠ 0
  counted : start + pages.length ≤ s.header.pageCount
  limit : start + pages.length ≤ PAGE_LIMIT
  pages : pagesFrom s.disk.page start pages.length = pages

theorem Dev.HoldsPages.readAll {s : Dev C} {start : Nat} {pages : List Page} (h : s.HoldsPages start pages)
    {placed : List (Fact × FactRef)} (read : readPageList postcard start pages = .ok placed) :
    readAllWithRefs postcard crc start pages.length s = .ok placed s := by
  have counted := h.counted
  have limit := h.limit
  rw [← h.pages] at read
  obtain ⟨_, _, run, rfl, rfl⟩ := ((wp_readAllWithRefs crc postcard h.inside h.data read).mono
    (fun _ _ done => done) (by rintro _ _ ⟨-, why⟩; omega)).exists_ok
  exact run

/-- Packing fails exactly on a fact that is too large; otherwise the records of each page stay
apart from its directory and, as long as the page ids do not run out, every reference leads to
its fact and the pages of all packings behind each other are read back in order. -/
theorem packFactsAt_roundTrip (facts : List Fact) (start : UInt64) :
    ((∃ e, packFactsAt postcard facts start = .error e) ↔
      ∃ f ∈ facts, MAX_FACT_BYTES < (postcard.encode f).length) ∧
    (∀ pages refs, packFactsAt postcard facts start = .ok (pages, refs) →
      (∀ page ∈ pages, page.val.length = PAGE_SIZE ∧ page.RecordsApart) ∧
      (start.toNat + pages.length ≤ 2 ^ 64 → SlotsRead postcard facts start.toNat pages refs)) ∧
    ∀ batches pages refs, Generations postcard start batches pages refs →
      start.toNat + pages.length ≤ 2 ^ 64 →
      readPageList postcard start.toNat pages = .ok (batches.flatten.zip refs) ∧
      ∀ s : Dev C, s.HoldsPages start.toNat pages →
        readAllWithRefs postcard crc start.toNat pages.length s = .ok (batches.flatten.zip refs) s := by
  refine ⟨packFactsAt_error_iff, fun pages refs packed => ⟨fun page hpage => ?_, fun near => ?_⟩,
    fun batches pages refs generations near => ?_⟩
  · obtain ⟨_, packed', -⟩ := packFactsAt_ok packed
    exact ⟨page.property, packFacts_apart packed' page hpage⟩
  · exact packFacts_slots (packFactsAt_near packed near)
  · have read := generations.read near
    exact ⟨read, fun s holds => holds.readAll crc read⟩

end Packing

/-! ## Page ids that run out -/

section Edge

open Postcard

variable {text : String} (size : text.toUTF8.data.toList.length = 4042)

include size

/-- A small fact and one that needs a page of its own. -/
theorem packGroups_pair : packGroups standard.fact [narrowFact, textFact text] = [[narrowFact], [textFact text]] := by
  have wide : (standard.fact.encode (textFact text)).length = 4079 := length_wideFact size
  have full : packedFull (.one (standard.fact.encode narrowFact).length)
      (standard.fact.encode (textFact text)).length = true := by
    rw [wide]
    decide
  simp only [packGroups, Greedy.groups, Greedy.fill, full, if_true, List.map_cons, List.map_nil, Greedy.members]

theorem packFacts_pair (start : Nat) : ∃ page page',
    packFacts standard.fact [narrowFact, textFact text] start =
      .ok ([page, page'], [⟨start, 0⟩, ⟨start + 1, 0⟩]) := by
  obtain ⟨pages, packed⟩ := packFacts_fits standard.fact (pair_fits size) start
  obtain ⟨-, each, -⟩ := packFacts_ok standard.fact packed
  rw [packGroups_pair size] at each packed
  obtain ⟨page, rest, -, more, rfl⟩ := List.forall₂_cons_left_iff.mp each
  obtain ⟨page', rest, -, last, rfl⟩ := List.forall₂_cons_left_iff.mp more
  cases last
  exact ⟨page, page', packed⟩

end Edge

/-- Two pages of one fact each, at the first data pages. -/
theorem packFactsAt_roundTrip_two : ∃ pages refs,
    packFactsAt Postcard.standard.fact [narrowFact, textFact (letters 4042)] 1 = .ok (pages, refs) ∧
    SlotsRead Postcard.standard.fact [narrowFact, textFact (letters 4042)] 1 pages refs ∧
    readPageList Postcard.standard.fact 1 pages = .ok ([narrowFact, textFact (letters 4042)].zip refs) := by
  obtain ⟨page, page', packed⟩ := packFacts_pair (length_letters 4042) 1
  have packed' : packFactsAt Postcard.standard.fact [narrowFact, textFact (letters 4042)] 1 =
      .ok ([page, page'], [⟨1, 0⟩, ⟨2, 0⟩]) := by
    rw [packFactsAt, show (1 : UInt64).toNat = 1 from rfl, packed]
    rfl
  have round := @packFactsAt_roundTrip Postcard.standard.fact _ _ Crc.lossless
    [narrowFact, textFact (letters 4042)] 1
  have near : (1 : UInt64).toNat + 2 ≤ 2 ^ 64 := by decide
  refine ⟨_, _, packed', (round.2.1 _ _ packed').2 near, ?_⟩
  have both := Generations.cons packed' (rfl : (3 : UInt64).toNat = _) (.nil 3)
  exact (round.2.2 _ _ _ both near).1

/-- Behind the largest page id there is no other: both facts are given the same reference. -/
theorem packFactsAt_largest : ¬ ∀ facts start pages refs,
    packFactsAt Postcard.standard.fact facts start = .ok (pages, refs) →
    SlotsRead Postcard.standard.fact facts start.toNat pages refs := by
  intro all
  obtain ⟨page, page', packed⟩ := packFacts_pair (length_letters 4042) (2 ^ 64 - 1)
  have packed' : packFactsAt Postcard.standard.fact [narrowFact, textFact (letters 4042)] (UInt64.ofNat (2 ^ 64 - 1)) =
      .ok ([page, page'], [⟨2 ^ 64 - 1, 0⟩, ⟨2 ^ 64 - 1, 0⟩]) := by
    rw [packFactsAt, show (UInt64.ofNat (2 ^ 64 - 1)).toNat = 2 ^ 64 - 1 from rfl, packed]
    rfl
  obtain ⟨⟨-, p, here, read⟩, more⟩ := List.forall₂_cons.mp (all _ _ _ _ packed')
  obtain ⟨⟨-, p', here', read'⟩, -⟩ := List.forall₂_cons.mp more
  have same : p = p' := Option.some.inj (here.symm.trans here')
  rw [same, read'] at read
  have values := congrArg Fact.value (Except.ok.inj read)
  cases values

end Minigraf
