import Minigraf.Storage.LegacyOpen

/-!
A file of an older format some of whose pages were overwritten by pages of the current one:
what an overwritten page held is gone, and the rest is read as before.
-/

namespace Minigraf

open Bytes EStateM

section Torn

variable {H C : Type} (crc : Crc H C) (postcard : Postcard) (v1 : Codec FactV1) (blobs : BlobCodecs)

/-! ## What is claimed -/

/-- What a file holds, with any transaction count where its version has none. -/
def Disk.Holds (version : Nat) (d : Disk C) (f : Fact) : Prop :=
  if version < 2 then ∃ a ∈ d.held v1.decode, ∃ c, f = a.migrated c else f ∈ d.held postcard.fact.decode

/-- A file of versions 1 to 4. Only version 4 may have indexes, and they are blobs. -/
structure Disk.Legacy (version : Nat) (d : Disk C) : Prop where
  first : 1 ≤ version
  last : version ≤ 4
  counted : 0 < d.header.pageCount
  inside : d.header.pageCount ≤ d.len
  none_ : d.header.factPageCount = 0
  near : d.header.pageCount ≤ 2 ^ 32
  nodes : d.header.nodeCount < 2 ^ 63
  roots : d.header.roots = ⟨0, 0, 0, 0⟩ ∨ version = 4 ∧ d.header.eavtRootPage ≠ 0 ∧
    d.header.eavtRootPage < d.header.pageCount ∧ (d.page d.header.eavtRootPage).type = PAGE_TYPE_INDEX
  apart : ∀ f g, d.Holds postcard v1 version f → d.Holds postcard v1 version g → pendingKey f = pendingKey g → f = g

/-- The facts of the file, each once. In version 1 the facts of one transaction have one
count, those of a later one a larger count. -/
def Disk.Yields (version : Nat) (d : Disk C) (facts : List Fact) : Prop :=
  facts.Nodup ∧
    if version < 2 then ∃ count : TxId → UInt64, CountsBy (d.held v1.decode) count ∧
      ∀ f, f ∈ facts ↔ ∃ a ∈ d.held v1.decode, f = a.migrated (count a.txId)
    else ∀ f, f ∈ facts ↔ f ∈ d.held postcard.fact.decode

section Claimed

variable [DecidableEq C]

/-- A file that was left is opened, and yields the facts of the original. -/
def Disk.Survives (version : Nat) (d : Disk C) (capacity : Nat) (left : Disk C) : Prop :=
  ∃ (s : Store H C) (facts : List Fact) (u : Store H C),
    openVersion crc postcard v1 blobs (left.version version) (Store.init (Dev.found left capacity none)) = .ok () s ∧
    allFacts crc postcard s = .ok facts u ∧ d.Yields postcard v1 version facts

end Claimed

/-- Each fact of the file also stands on a page that was not overwritten. -/
def Disk.Spares {α : Type} (decode : List UInt8 → Option α) (d left : Disk C) : Prop :=
  ∀ a ∈ d.held decode, ∃ i, 1 ≤ i ∧ i < d.header.pageCount ∧ left.page i = d.page i ∧ decode (d.page i).val = some a

def Disk.SparesFacts (version : Nat) (d left : Disk C) : Prop :=
  if version < 2 then d.Spares v1.decode left else d.Spares postcard.fact.decode left

/-- A page of the current format. -/
def Page.Current (p : Page) : Prop :=
  p.type = PAGE_TYPE_PACKED ∨ p.type = PAGE_TYPE_LEAF ∨ p.type = PAGE_TYPE_INTERNAL

/-- No page of the current format is read as a fact of an older one. -/
def TellsApart {α : Type} (decode : List UInt8 → Option α) : Prop := ∀ p : Page, p.Current → decode p.val = none

variable {crc postcard v1 blobs} {d left : Disk C} {version capacity : Nat} {faults : Option Nat}

/-! ## What a file holds -/

theorem Disk.mem_held {α : Type} {decode : List UInt8 → Option α} (counted : 0 < d.header.pageCount) {a : α} :
    a ∈ d.held decode ↔ ∃ i, 1 ≤ i ∧ i < d.header.pageCount ∧ decode (d.page i).val = some a := by
  rw [Disk.held, mem_decodedPages, show 1 + (d.header.pageCount - 1) = d.header.pageCount by omega]

theorem mem_freshFacts_iff {facts : List Fact} (apart : ∀ f ∈ facts, ∀ g ∈ facts, pendingKey f = pendingKey g → f = g)
    {f : Fact} : f ∈ freshFacts [] facts ↔ f ∈ facts := by
  refine ⟨fun new => (mem_freshFacts new).1, fun here => ?_⟩
  obtain ⟨g, hg, same⟩ := exists_freshFacts here List.not_mem_nil
  rwa [← apart g (mem_freshFacts hg).1 f here same]

/-- Everything that is loaded is held. -/
theorem Disk.holds_of_loaded {f : Fact} (few : (d.held v1.decode).length ≤ 2 ^ 32)
    (loaded : f ∈ d.legacyFacts postcard v1 version) : d.Holds postcard v1 version f := by
  rw [Disk.legacyFacts] at loaded
  rw [Disk.Holds]
  by_cases first : version < 2
  · rw [if_pos first] at loaded ⊢
    obtain ⟨count, -, whole⟩ := @exists_counts (d.held v1.decode) (by omega)
    rw [whole] at loaded
    obtain ⟨a, ha, rfl⟩ := List.mem_map.mp loaded
    exact ⟨a, (sortByTxId_perm _).mem_iff.mp ha, count a.txId, rfl⟩
  · rw [if_neg first] at loaded ⊢
    exact loaded

/-! ## A file that was left -/

/-- A file some of whose pages were overwritten by pages of the current format, while its
header still tells of the old one. -/
structure Disk.Torn (d left : Disk C) : Prop where
  bare : left.Bare
  longer : d.header.pageCount ≤ left.header.pageCount
  pages : ∀ i, 1 ≤ i → i < left.header.pageCount →
    i < d.header.pageCount ∧ left.page i = d.page i ∨ (left.page i).Current

theorem Disk.Bare.torn (bare : d.Bare) : d.Torn d :=
  ⟨bare, le_rfl, fun _ _ inside => .inl ⟨inside, rfl⟩⟩

/-- It holds what stands on the pages that were not overwritten. -/
theorem Disk.Torn.mem_held {α : Type} {decode : List UInt8 → Option α} (torn : d.Torn left)
    (tells : TellsApart decode) {a : α} : a ∈ left.held decode ↔
      ∃ i, 1 ≤ i ∧ i < d.header.pageCount ∧ left.page i = d.page i ∧ decode (d.page i).val = some a := by
  rw [Disk.mem_held torn.bare.counted]
  constructor
  · rintro ⟨i, data, inside, here⟩
    obtain ⟨inside', same⟩ | current := torn.pages i data inside
    · exact ⟨i, data, inside', same, same ▸ here⟩
    · rw [tells _ current] at here
      cases here
  · rintro ⟨i, data, inside, same, here⟩
    exact ⟨i, data, inside.trans_le torn.longer, same.symm ▸ here⟩

/-- The pages the file has grown by hold nothing. -/
theorem Disk.Torn.length_held_le {α : Type} {decode : List UInt8 → Option α} (torn : d.Torn left)
    (tells : TellsApart decode) : (left.held decode).length ≤ d.header.pageCount := by
  have longer := torn.longer
  obtain ⟨more, grown⟩ := Nat.exists_eq_add_of_le (Nat.sub_le_sub_right longer 1)
  have none_ : decodedPages decode left.page (1 + (d.header.pageCount - 1)) more = [] := by
    rw [List.eq_nil_iff_forall_not_mem]
    intro a ha
    obtain ⟨i, low, high, here⟩ := mem_decodedPages.mp ha
    obtain ⟨inside, -⟩ | current := torn.pages i (by omega) (by omega)
    · omega
    · rw [tells _ current] at here
      cases here
  have front := length_decodedPages_le decode left.page 1 (d.header.pageCount - 1)
  have split : left.held decode = decodedPages decode left.page 1 (d.header.pageCount - 1) ++
      decodedPages decode left.page (1 + (d.header.pageCount - 1)) more := by
    rw [Disk.held, grown, decodedPages, decodedPages, decodedPages, pagesFrom_add, List.filterMap_append]
  rw [split, none_, List.append_nil]
  omega

theorem Disk.Torn.held_subset {α : Type} {decode : List UInt8 → Option α} (torn : d.Torn left)
    (tells : TellsApart decode) (counted : 0 < d.header.pageCount) : left.held decode ⊆ d.held decode := by
  intro a ha
  obtain ⟨i, data, inside, -, here⟩ := (torn.mem_held tells).mp ha
  exact (Disk.mem_held counted).mpr ⟨i, data, inside, here⟩

theorem Disk.Torn.spares_iff {α : Type} {decode : List UInt8 → Option α} (torn : d.Torn left)
    (tells : TellsApart decode) : d.Spares decode left ↔ d.held decode ⊆ left.held decode :=
  forall₂_congr fun _ _ => (torn.mem_held tells).symm

theorem Disk.Torn.holds (torn : d.Torn left) (tells : TellsApart postcard.fact.decode) (tells' : TellsApart v1.decode)
    (counted : 0 < d.header.pageCount) {f : Fact} (holds : left.Holds postcard v1 version f) :
    d.Holds postcard v1 version f := by
  rw [Disk.Holds] at holds ⊢
  by_cases first : version < 2
  · rw [if_pos first] at holds ⊢
    obtain ⟨a, ha, c, rfl⟩ := holds
    exact ⟨a, torn.held_subset tells' counted ha, c, rfl⟩
  · rw [if_neg first] at holds ⊢
    exact torn.held_subset tells counted holds

/-- What is loaded from a file that was left is what the original held if and only if each of
its facts was spared. -/
theorem Disk.Torn.yields_iff (torn : d.Torn left) (legacy : d.Legacy postcard v1 version)
    (tells : TellsApart postcard.fact.decode) (tells' : TellsApart v1.decode) :
    d.Yields postcard v1 version (freshFacts [] (left.legacyFacts postcard v1 version)) ↔
      d.SparesFacts postcard v1 version left := by
  have counted := legacy.counted
  have few : (left.held v1.decode).length ≤ 2 ^ 32 := (torn.length_held_le tells').trans legacy.near
  have apart : ∀ f ∈ left.legacyFacts postcard v1 version, ∀ g ∈ left.legacyFacts postcard v1 version,
      pendingKey f = pendingKey g → f = g := fun f hf g hg => legacy.apart f g
    (torn.holds tells tells' counted (Disk.holds_of_loaded few hf))
    (torn.holds tells tells' counted (Disk.holds_of_loaded few hg))
  have once : (freshFacts [] (left.legacyFacts postcard v1 version)).Nodup :=
    (freshFacts_nodup [] _).of_map _
  rw [Disk.Yields, and_iff_right once, Disk.SparesFacts]
  simp only [mem_freshFacts_iff apart]
  by_cases first : version < 2
  · have whole : left.legacyFacts postcard v1 version =
        assignTxCounts 0 none (sortByTxId (left.held v1.decode)) := if_pos first
    obtain ⟨count, counts, same⟩ := @exists_counts (left.held v1.decode) (by omega)
    have loaded (f : Fact) : f ∈ left.legacyFacts postcard v1 version ↔
        ∃ a ∈ left.held v1.decode, f = a.migrated (count a.txId) := by
      rw [whole, same, List.mem_map]
      simp only [(sortByTxId_perm _).mem_iff, eq_comm]
    rw [if_pos first, if_pos first, torn.spares_iff tells']
    constructor
    · rintro ⟨count', -, yields⟩ a ha
      obtain ⟨b, hb, eq⟩ := (loaded _).mp ((yields _).mpr ⟨a, ha, rfl⟩)
      rwa [FactV1.migrated_inj eq]
    · intro spared
      have back := torn.held_subset tells' counted
      refine ⟨count, fun a ha b hb => counts a (spared ha) b (spared hb), fun f => (loaded f).trans ?_⟩
      exact ⟨fun ⟨a, ha, eq⟩ => ⟨a, back ha, eq⟩, fun ⟨a, ha, eq⟩ => ⟨a, spared ha, eq⟩⟩
  · have whole : left.legacyFacts postcard v1 version = left.held postcard.fact.decode := if_neg first
    rw [if_neg first, if_neg first, torn.spares_iff tells, whole]
    have back := torn.held_subset tells counted
    exact ⟨fun yields a ha => (yields a).mpr ha, fun spared f => ⟨fun hf => back hf, fun hf => spared hf⟩⟩

end Torn
end Minigraf
