import Minigraf.Lib.Greedy
import Minigraf.Storage.Answers
import Minigraf.Storage.Frame

/-!
Bounds on the transaction counts of what a store holds, on its pages and in memory. A save
of any store keeps them, however it ends: the pages it writes hold pending facts.
-/

namespace Minigraf

open EStateM

section Bounds

variable {H C : Type} (postcard : Postcard)

/-- Every fact a page holds has the property. -/
def Page.Each (P : Fact → Prop) (page : Page) : Prop :=
  ∀ slot f, readSlot postcard.fact page slot = .ok f → P f

/-- The committed pages, the pending facts and a floor, all within a bound. -/
structure Store.Bounded (s : Store H C) (floor : UInt64) (bound : UInt64 → Prop) : Prop where
  pages : ∀ i, i ≠ 0 → i ≤ s.dev.disk.header.factPageCount →
    (s.dev.disk.page i).Each postcard fun f => bound f.txCount
  pending : ∀ f ∈ s.storage.facts, bound f.txCount
  floor : bound floor

/-- The header on disk is the one in memory up to its page count, and it counts pages
that were committed or that the next save writes again. -/
structure Store.Aligned (s : Store H C) : Prop where
  synced : s.dev.disk.header.marks = s.dev.header.marks
  rooted : s.dev.disk.header.factPageCount = 0 → s.dev.disk.header.eavtRootPage = 0
  within : s.committedFactPages ≤ s.dev.disk.header.factPageCount
  reach : s.dev.disk.header.factPageCount ≤
    s.committedFactPages + (packGroups postcard.fact s.storage.facts).length

variable {postcard} {s t : Store H C} {floor : UInt64} {bound : UInt64 → Prop}

theorem Store.Bounded.mono (h : s.Bounded postcard floor bound) {bound' : UInt64 → Prop}
    (imp : ∀ n, bound n → bound' n) : s.Bounded postcard floor bound' :=
  ⟨fun i data counted slot f read => imp _ (h.pages i data counted slot f read),
    fun f hf => imp _ (h.pending f hf), imp _ h.floor⟩

theorem length_packGroups_append (facts more : List Fact) :
    (packGroups postcard.fact facts).length ≤ (packGroups postcard.fact (facts ++ more)).length := by
  have longer := Greedy.groups_length_append (fun p f => packedFull p (postcard.fact.encode f).length)
    (fun p f => p.add (postcard.fact.encode f).length)
    (fun f => PageFill.one (postcard.fact.encode f).length) facts more
  have some_ := List.length_pos_iff.mpr (packGroups_ne_nil postcard.fact (facts ++ more))
  unfold packGroups at some_ ⊢
  split
  · exact some_
  · rename_i groups hgroups
    split
    · rename_i none_
      rw [none_, List.length_nil, Nat.le_zero, List.length_eq_zero_iff] at longer
      exact absurd longer hgroups
    · rw [List.length_map, List.length_map]
      exact longer

theorem length_packed {facts : List Fact} {start : Nat} {pages : List Page} {refs : List FactRef}
    (packed : packFacts postcard.fact facts start = .ok (pages, refs)) :
    pages.length = (packGroups postcard.fact facts).length :=
  (packFacts_ok postcard.fact packed).2.1.length_eq.symm

theorem slot_lt_of_readSlot {page : Page} {slot : Nat} {f : Fact}
    (read : readSlot postcard.fact page slot = .ok f) : slot < recordCount page := by
  unfold readSlot at read
  split at read
  · cases read
  · split at read
    · cases read
    · exact Nat.lt_of_not_le ‹_›

/-- A fact in a slot of a page that is read is read with it. -/
theorem mem_readSlots {page : Page} {pageId slot : Nat} {f : Fact} {placed : List (Fact × FactRef)}
    (slots : readSlots postcard.fact pageId page = .ok placed)
    (read : readSlot postcard.fact page slot = .ok f) : (f, ⟨pageId, slot⟩) ∈ placed := by
  have inside := slot_lt_of_readSlot read
  unfold readSlots at slots
  split at slots
  · rename_i other
    rw [readSlot, if_pos other] at read
    cases read
  · have each := List.forall₂_of_mapM_ok slots
    have short : slot < (List.range (recordCount page)).length := by rwa [List.length_range]
    have short' : slot < placed.length := by rwa [← each.length_eq]
    have here := each.get short short'
    simp only [List.get_eq_getElem, List.getElem_range, read, bind, Except.bind, pure, Except.pure,
      Except.ok.injEq] at here
    rw [here]
    exact List.getElem_mem short'

theorem mem_readPageList {first : Nat} {pages : List Page} {placed : List (Fact × FactRef)}
    (list : readPageList postcard.fact first pages = .ok placed) {page : Page} (here : page ∈ pages)
    {slot : Nat} {f : Fact} (read : readSlot postcard.fact page slot = .ok f) :
    ∃ p ∈ placed, p.1 = f := by
  induction pages generalizing first placed with
  | nil => cases here
  | cons head pages ih =>
      simp only [readPageList, bind, Except.bind] at list
      split at list
      · cases list
      rename_i front hfront
      split at list
      · cases list
      rename_i rest hrest
      cases list
      obtain rfl | later := List.mem_cons.mp here
      · exact ⟨_, List.mem_append_left _ (mem_readSlots hfront read), rfl⟩
      · obtain ⟨p, hp, same⟩ := ih hrest later
        exact ⟨p, List.mem_append_right _ hp, same⟩

/-- A packed page holds facts that were packed. -/
theorem each_packed {facts : List Fact} {start : Nat} {pages : List Page} {refs : List FactRef}
    (packed : packFacts postcard.fact facts start = .ok (pages, refs)) {P : Fact → Prop}
    (all : ∀ f ∈ facts, P f) {page : Page} (here : page ∈ pages) : page.Each postcard P := by
  obtain ⟨_, each, _⟩ := packFacts_ok postcard.fact packed
  obtain ⟨group, hgroup, holds⟩ : ∃ group ∈ packGroups postcard.fact facts,
      PackedPage page (group.map postcard.fact.encode) := by
    obtain ⟨i, inside, rfl⟩ := List.getElem_of_mem here
    have inside' : i < (packGroups postcard.fact facts).length := by rwa [each.length_eq]
    exact ⟨_, List.getElem_mem inside', each.get inside' inside⟩
  intro slot f read
  have inside : slot < group.length := by
    have count := holds.count
    rw [List.length_map] at count
    rw [← count]
    exact slot_lt_of_readSlot read
  rw [readSlot_packed postcard.fact holds (List.getElem?_eq_getElem inside)] at read
  cases read
  refine all _ ?_
  rw [← packGroups_flatten postcard.fact facts]
  exact List.mem_flatten.mpr ⟨group, hgroup, List.getElem_mem inside⟩

/-! ## Saving -/

theorem FileHeader.marks_eq {h h' : FileHeader C} (same : h'.marks = h.marks) :
    h'.lastCheckpointedTxCount = h.lastCheckpointedTxCount ∧ h'.factPageCount = h.factPageCount ∧
      h'.eavtRootPage = h.eavtRootPage := by
  simp only [FileHeader.marks, FileHeader.roots, Prod.mk.injEq, Roots.mk.injEq] at same
  exact ⟨same.1, same.2.1, same.2.2.1⟩

/-- A header that was not committed again. -/
theorem Dev.Kept.disk_header {n : Nat} {d d' : Dev C} (kept : Dev.Kept n d d')
    (synced : d.disk.header.marks = d.header.marks) :
    d'.disk.header.marks = d.disk.header.marks ∧ d'.disk.header.marks = d'.header.marks := by
  have same := kept.disk synced
  exact ⟨same.trans synced.symm, same.trans kept.header.symm⟩

theorem Store.Passed.each {pages : List Page} {refs : List FactRef} {d : Dev C}
    (h : s.Passed pages d) (aligned : s.Aligned postcard) (bounded : s.Bounded postcard floor bound)
    (packed : packFacts postcard.fact s.storage.facts (1 + s.committedFactPages) = .ok (pages, refs)) :
    ∀ i, i ≠ 0 → i ≤ d.disk.header.factPageCount →
      (d.disk.page i).Each postcard fun f => bound f.txCount := by
  intro i data counted
  rw [h.count] at counted
  by_cases old : i ≤ s.committedFactPages
  · rw [h.kept i old]
    exact bounded.pages i data (old.trans aligned.within)
  · have here : pages[i - (1 + s.committedFactPages)]? = some pages[i - (1 + s.committedFactPages)] :=
      List.getElem?_eq_getElem (by omega)
    have same := h.written _ _ here
    rw [Nat.add_sub_cancel' (by omega)] at same
    rw [same]
    exact each_packed packed bounded.pending (List.getElem_mem _)

theorem Store.Passed.positive {pages : List Page} {refs : List FactRef} {d : Dev C}
    (h : s.Passed pages d)
    (packed : packFacts postcard.fact s.storage.facts (1 + s.committedFactPages) = .ok (pages, refs)) :
    0 < d.disk.header.factPageCount := by
  have some_ := List.length_pos_iff.mpr (packGroups_ne_nil postcard.fact s.storage.facts)
  rw [h.count, length_packed packed]
  omega

/-- A save that failed keeps every bound; the header has the mark it had or the counter. -/
theorem Store.LeftAt.bounded (h : s.LeftAt postcard t) (aligned : s.Aligned postcard)
    (bounded : s.Bounded postcard floor bound) :
    t.Aligned postcard ∧ t.Bounded postcard floor bound ∧
      (t.dev.disk.header.lastCheckpointedTxCount = s.dev.disk.header.lastCheckpointedTxCount ∨
        t.dev.disk.header.lastCheckpointedTxCount = s.storage.txCounter) := by
  have pending : ∀ f ∈ t.storage.facts, bound f.txCount := by
    rw [h.storage]
    exact bounded.pending
  have still {n : Nat} (kept : Dev.Kept n s.dev t.dev)
      (each : ∀ i, i ≠ 0 → i ≤ s.dev.disk.header.factPageCount →
        (t.dev.disk.page i).Each postcard fun f => bound f.txCount) :
      t.Aligned postcard ∧ t.Bounded postcard floor bound ∧
        (t.dev.disk.header.lastCheckpointedTxCount = s.dev.disk.header.lastCheckpointedTxCount ∨
          t.dev.disk.header.lastCheckpointedTxCount = s.storage.txCounter) := by
    obtain ⟨same, synced⟩ := kept.disk_header aligned.synced
    obtain ⟨last, count, root⟩ := FileHeader.marks_eq same
    refine ⟨⟨synced, ?_, ?_, ?_⟩, ⟨?_, pending, bounded.floor⟩, .inl last⟩
    · rw [count, root]
      exact aligned.rooted
    · rw [count, h.pages]
      exact aligned.within
    · rw [count, h.pages, h.storage]
      exact aligned.reach
    · rw [count]
      exact each
  cases h.dev with
  | untouched kept =>
      refine still (kept 0) fun i data counted => ?_
      rw [(kept (i + 1)).page i (Nat.lt_succ_self i)]
      exact bounded.pages i data counted
  | partly pages refs packed kept page =>
      refine still kept fun i data counted => ?_
      have low := counted.trans aligned.reach
      rw [← length_packed packed] at low
      obtain same | new := page i low
      · rw [same]
        exact bounded.pages i data counted
      · exact each_packed packed bounded.pending new
  | whole pages refs packed passed =>
      have positive := passed.positive packed
      refine ⟨⟨by rw [passed.header], fun none_ => ?_, ?_, ?_⟩,
        ⟨passed.each aligned bounded packed, pending, bounded.floor⟩, .inr passed.last⟩
      · omega
      · rw [passed.count, h.pages]
        omega
      · rw [passed.count, h.pages, h.storage, length_packed packed]

theorem Store.PassedOn.bounded (h : s.PassedOn postcard t) (aligned : s.Aligned postcard)
    (bounded : s.Bounded postcard floor bound) :
    t.Aligned postcard ∧ t.Bounded postcard floor bound ∧
      t.dev.disk.header.lastCheckpointedTxCount = s.storage.txCounter := by
  obtain ⟨pages, refs, packed, passed, committed⟩ := h.dev
  have positive := passed.positive packed
  refine ⟨⟨by rw [passed.header], fun none_ => ?_, ?_, ?_⟩,
    ⟨passed.each aligned bounded packed, ?_, bounded.floor⟩, passed.last⟩
  · omega
  · rw [passed.count, committed]
  · rw [passed.count, committed]
    omega
  · rw [h.facts]
    exact fun _ no => nomatch no

end Bounds
end Minigraf
