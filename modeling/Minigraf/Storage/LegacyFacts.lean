import Minigraf.Storage.LegacyLoad

/-!
What the readers of the older formats load: of version 1 each fact under the number of its
transaction, of the later ones the facts as they are, each key once.
-/

namespace Minigraf

open EStateM

/-! ## The numbers of version 1 -/

section Counts

/-- Numbers for the facts of version 1: one a transaction, in the order of time. -/
def CountsBy (facts : List FactV1) (count : TxId → UInt64) : Prop :=
  ∀ a ∈ facts, ∀ b ∈ facts, a.txId < b.txId → count a.txId < count b.txId

theorem nextTxCount_toNat {c : UInt64} (room : c.toNat + 1 < 2 ^ 64) : (nextTxCount c).toNat = c.toNat + 1 := by
  rw [nextTxCount, if_pos room, UInt64.toNat_add]
  exact Nat.mod_eq_of_lt room

/-- The earliest fact may be put in front of the others. -/
theorem CountsBy.cons {a : FactV1} {facts : List FactV1} {count : TxId → UInt64} (h : CountsBy facts count)
    (first : ∀ b ∈ facts, a.txId ≤ b.txId) (later : ∀ b ∈ facts, a.txId ≠ b.txId → count a.txId < count b.txId) :
    CountsBy (a :: facts) count := by
  intro b hb b' hb' lt
  obtain rfl | tail := List.mem_cons.mp hb
  · obtain rfl | hb' := List.mem_cons.mp hb'
    · exact absurd lt (lt_irrefl _)
    · exact later b' hb' lt.ne
  · obtain rfl | hb' := List.mem_cons.mp hb'
    · exact absurd lt (not_lt.mpr (first b tail))
    · exact h b tail b' hb' lt

theorem CountsBy.congr {facts : List FactV1} {count count' : TxId → UInt64} (h : CountsBy facts count)
    (same : ∀ b ∈ facts, count' b.txId = count b.txId) : CountsBy facts count' := by
  intro b hb b' hb' lt
  rw [same b hb, same b' hb']
  exact h b hb b' hb' lt

/-- A time that no fact is of may be given any number. -/
theorem exists_count_at {facts : List FactV1} (count : TxId → UInt64) (c : UInt64) {prev : Option TxId}
    (apart : ∀ p ∈ prev, ∀ b ∈ facts, b.txId ≠ p) :
    ∃ count' : TxId → UInt64, (∀ p ∈ prev, count' p = c) ∧ ∀ b ∈ facts, count' b.txId = count b.txId := by
  cases prev with
  | none => exact ⟨count, by simp, fun _ _ => rfl⟩
  | some p =>
      refine ⟨Function.update count p c, ?_, fun b hb => Function.update_of_ne (apart p rfl b hb) ..⟩
      rintro q ⟨⟩
      exact Function.update_self ..

/-- The induction is over the sorted facts; the number at hand is that of the last time, and
the times to come are not before it. -/
theorem assignTxCounts_spec {facts : List FactV1} {c : UInt64} {prev : Option TxId}
    (sorted : facts.Pairwise fun a b => a.txId ≤ b.txId) (from_ : ∀ p ∈ prev, ∀ a ∈ facts, p ≤ a.txId)
    (room : c.toNat + facts.length < 2 ^ 64) :
    ∃ count : TxId → UInt64, (∀ p ∈ prev, count p = c) ∧
      (∀ a ∈ facts, prev ≠ some a.txId → c < count a.txId) ∧ CountsBy facts count ∧
      assignTxCounts c prev facts = facts.map fun a => a.migrated (count a.txId) := by
  induction facts generalizing c prev with
  | nil => exact ⟨fun _ => c, by simp, by simp, by simp [CountsBy], rfl⟩
  | cons a facts ih =>
      obtain ⟨first, sorted'⟩ := List.pairwise_cons.mp sorted
      rw [List.length_cons] at room
      by_cases same : prev = some a.txId
      · have from' : ∀ p ∈ prev, ∀ b ∈ facts, p ≤ b.txId := fun p hp b hb =>
          from_ p hp b (List.mem_cons_of_mem a hb)
        obtain ⟨count, here, later, mono, whole⟩ := @ih c prev sorted' from' (by omega)
        have own : count a.txId = c := here a.txId same
        refine ⟨count, here, ?_, mono.cons first ?_, ?_⟩
        · intro b hb other
          obtain rfl | hb := List.mem_cons.mp hb
          · exact absurd same other
          · exact later b hb other
        · intro b hb other
          rw [own]
          exact later b hb fun eq => other (Option.some.inj (same.symm.trans eq))
        · rw [assignTxCounts, if_neg (not_not.mpr same), whole, List.map_cons, own]
      · have next := @nextTxCount_toNat c (by omega)
        have up : c < nextTxCount c := UInt64.lt_iff_toNat_lt.mpr (by omega)
        have from' : ∀ p ∈ some a.txId, ∀ b ∈ facts, p ≤ b.txId := by
          rintro p ⟨⟩ b hb
          exact first b hb
        obtain ⟨count, here, later, mono, whole⟩ := @ih (nextTxCount c) (some a.txId) sorted' from' (by omega)
        have own : count a.txId = nextTxCount c := here a.txId rfl
        have above : ∀ b ∈ facts, a.txId ≠ b.txId → nextTxCount c < count b.txId := fun b hb other =>
          later b hb fun eq => other (Option.some.inj eq)
        have counts : CountsBy (a :: facts) count := mono.cons first fun b hb other => own ▸ above b hb other
        -- The last time has its number, and no fact to come is of that time.
        have apart : ∀ p ∈ prev, ∀ b ∈ a :: facts, b.txId ≠ p := by
          intro p hp b hb eq
          have low := from_ p hp a List.mem_cons_self
          have high : a.txId ≤ b.txId := by
            obtain rfl | hb := List.mem_cons.mp hb
            · exact le_rfl
            · exact first b hb
          refine same ?_
          rw [Option.mem_def.mp hp, Option.some.injEq]
          exact le_antisymm low (eq ▸ high)
        obtain ⟨count', same', kept⟩ := exists_count_at count c apart
        refine ⟨count', same', fun b hb _ => ?_, counts.congr kept, ?_⟩
        · rw [kept b hb]
          by_cases eq : a.txId = b.txId
          · rw [← eq, own]
            exact up
          · obtain rfl | hb := List.mem_cons.mp hb
            · exact absurd rfl eq
            · exact up.trans (above b hb eq)
        · have each : (a :: facts).map (fun b => b.migrated (count' b.txId)) =
              (a :: facts).map fun b => b.migrated (count b.txId) :=
            List.map_congr_left fun b hb => by rw [kept b hb]
          rw [assignTxCounts, if_pos same, whole, each, List.map_cons, own]

theorem sortByTxId_perm (facts : List FactV1) : (sortByTxId facts).Perm facts := List.mergeSort_perm _ _

theorem sortByTxId_sorted (facts : List FactV1) :
    (sortByTxId facts).Pairwise fun a b => a.txId ≤ b.txId :=
  List.pairwise_mergeSort_by FactV1.txId facts

/-- The facts of version 1 are loaded under such numbers. -/
theorem exists_counts {facts : List FactV1} (room : facts.length < 2 ^ 64) :
    ∃ count, CountsBy facts count ∧
      assignTxCounts 0 none (sortByTxId facts) =
        (sortByTxId facts).map fun a => a.migrated (count a.txId) := by
  have perm := sortByTxId_perm facts
  obtain ⟨count, -, -, mono, whole⟩ := @assignTxCounts_spec (sortByTxId facts) 0 none
    (sortByTxId_sorted facts) (by simp) (by rw [perm.length_eq, UInt64.toNat_zero]; omega)
  exact ⟨count, fun a ha b hb => mono a (perm.mem_iff.mpr ha) b (perm.mem_iff.mpr hb), whole⟩

end Counts

/-! ## Loading each fact once -/

section Loading

/-- A fact that was loaded is known to the facts after it. -/
theorem freshFacts_cons {s t : FactStorage} (ok : s.Ok) {f : Fact}
    (h : Appended s (freshFacts s.pendingKeys [f]) t) (facts : List Fact) :
    freshFacts s.pendingKeys (f :: facts) =
      freshFacts s.pendingKeys [f] ++ freshFacts t.pendingKeys facts := by
  have keys (k : PendingKey) : k ∈ t.pendingKeys ↔
      k ∈ s.pendingKeys ∨ ∃ g ∈ freshFacts s.pendingKeys [f], pendingKey g = k := by
    rw [(h.ok ok).keys k, h.facts, ok.keys k]
    simp only [List.mem_append, or_and_right, exists_or]
  by_cases known : pendingKey f ∈ s.pendingKeys
  · simp only [freshFacts, if_pos known, List.nil_append] at keys ⊢
    refine freshFacts_congr fun g _ => ?_
    simp [keys]
  · simp only [freshFacts, if_neg known, List.singleton_append, List.mem_singleton] at keys ⊢
    congr 1
    refine freshFacts_congr fun g _ => ?_
    rw [keys, List.mem_cons]
    simp [or_comm, eq_comm]

theorem wp_loadEach (s : FactStorage) (ok : s.Ok) (facts : List Fact)
    (few : s.facts.length + facts.length ≤ 2 ^ 32) :
    Wp (loadEach facts) s (fun _ t => Appended s (freshFacts s.pendingKeys facts) t) (fun _ _ => False) := by
  induction facts generalizing s with
  | nil => exact .refl s
  | cons f facts ih =>
      rw [List.length_cons] at few
      rw [loadEach, wp_bind]
      refine (wp_loadFact s f).mono (fun _ t first => ?_) fun _ _ full => by omega
      have short := (freshFacts_sublist s.pendingKeys [f]).length_le
      refine (ih t (first.ok ok) ?_).post fun _ u later => ?_
      · rw [first.facts, List.length_append]
        rw [List.length_singleton] at short
        omega
      · rw [freshFacts_cons ok first]
        exact first.trans later

variable {H C : Type} (crc : Crc H C) (postcard : Postcard) (v1 : Codec FactV1)

/-- What can be decoded of the pages from `first` on. -/
def decodedPages {α : Type} (decode : List UInt8 → Option α) (page : Nat → Page) (first n : Nat) : List α :=
  (pagesFrom page first n).filterMap fun p => decode p.val

theorem mem_decodedPages {α : Type} {decode : List UInt8 → Option α} {page : Nat → Page} {first n : Nat} {a : α} :
    a ∈ decodedPages decode page first n ↔
      ∃ i, first ≤ i ∧ i < first + n ∧ decode (page i).val = some a := by
  simp only [decodedPages, pagesFrom, List.mem_filterMap, List.mem_map, List.mem_range'_1]
  constructor
  · rintro ⟨p, ⟨i, ⟨low, high⟩, rfl⟩, here⟩
    exact ⟨i, low, high, here⟩
  · rintro ⟨i, low, high, here⟩
    exact ⟨page i, ⟨i, ⟨low, high⟩, rfl⟩, here⟩

theorem decodedPages_succ {α : Type} (decode : List UInt8 → Option α) (page : Nat → Page) (first n : Nat) :
    decodedPages decode page first (n + 1) =
      (decode (page first).val).toList ++ decodedPages decode page (first + 1) n := by
  rw [decodedPages, pagesFrom_succ, List.filterMap_cons]
  cases decode (page first).val with
  | none => rfl
  | some a => rfl

theorem length_decodedPages_le {α : Type} (decode : List UInt8 → Option α) (page : Nat → Page)
    (first n : Nat) : (decodedPages decode page first n).length ≤ n := by
  have := List.length_filterMap_le (fun p : Page => decode p.val) (pagesFrom page first n)
  rwa [length_pagesFrom] at this

theorem wp_readV1Facts {s : Dev C} (okay : s.Ok) {first n : Nat} (data : first ≠ 0)
    (counted : first + n ≤ s.header.pageCount) (limit : first + n ≤ PAGE_LIMIT) :
    Wp (readV1Facts crc v1 first n) s
      (fun facts t => t = s ∧ facts = decodedPages v1.decode s.disk.page first n) (fun _ _ => False) := by
  induction n generalizing first with
  | zero => exact ⟨rfl, rfl⟩
  | succ n ih =>
      rw [readV1Facts, wp_bind]
      refine wp_readPage crc okay.inside data ?_ fun why _ => by omega
      rw [wp_bind]
      refine (@ih (first + 1) (by omega) (by omega) (by omega)).post ?_
      rintro _ _ ⟨rfl, rfl⟩
      rw [decodedPages_succ]
      exact ⟨rfl, rfl⟩

theorem wp_loadOnePerPageLegacy {s : Store H C} (okay : s.dev.Ok) (ok : s.storage.Ok) {first n : Nat}
    (data : first ≠ 0) (counted : first + n ≤ s.dev.header.pageCount) (limit : first + n ≤ PAGE_LIMIT)
    (few : s.storage.facts.length + (decodedPages postcard.fact.decode s.dev.disk.page first n).length ≤
      2 ^ 32) :
    Wp (loadOnePerPageLegacy crc postcard first n) s
      (fun _ t => ∃ storage, t = { s with storage := storage } ∧ Appended s.storage
        (freshFacts s.storage.pendingKeys (decodedPages postcard.fact.decode s.dev.disk.page first n)) storage)
      (fun _ _ => False) := by
  induction n generalizing s first with
  | zero => exact ⟨s.storage, rfl, .refl _⟩
  | succ n ih =>
      rw [loadOnePerPageLegacy, wp_bind, onDev, wp_zoom]
      refine wp_readPage crc okay.inside data ?_ fun why _ => by omega
      rw [decodedPages_succ] at few ⊢
      cases here : postcard.fact.decode (s.dev.disk.page first).val with
      | none =>
          rw [here, Option.toList_none, List.nil_append] at few
          simp only [Option.toList_none, List.nil_append]
          exact @ih s okay ok (first + 1) (by omega) (by omega) (by omega) few
      | some f =>
          rw [here, Option.toList_some, List.singleton_append, List.length_cons] at few
          simp only [Option.toList_some, List.singleton_append]
          rw [wp_bind, onFacts, wp_zoom]
          refine (wp_loadFact s.storage f).mono (fun _ storage loaded => ?_) fun _ _ full => by omega
          have short := (freshFacts_sublist s.storage.pendingKeys [f]).length_le
          rw [List.length_singleton] at short
          refine (@ih { s with storage := storage } okay (loaded.ok ok) (first + 1) (by omega)
            (by simp only; omega) (by omega) ?_).post ?_
          · simp only [loaded.facts, List.length_append]
            omega
          · rintro _ _ ⟨storage', rfl, later⟩
            refine ⟨storage', rfl, ?_⟩
            rw [freshFacts_cons ok loaded]
            exact loaded.trans later

end Loading
end Minigraf
