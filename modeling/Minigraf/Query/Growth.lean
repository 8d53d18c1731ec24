import Minigraf.Query.Fixpoint
import Minigraf.Query.Stratified

/-!
How the store of a stratified evaluation grows: by asserted facts whose keys are new, as long
as it takes facts at all. It takes none once it holds as many as a reference can tell apart.
-/

namespace Minigraf

open EStateM

/-- The store takes no more facts. -/
def FactStorage.Full (s : FactStorage) : Prop := 2 ^ 32 ≤ s.facts.length

/-- No asserted fact is there twice. -/
def FactStorage.Distinct (s : FactStorage) : Prop := (s.assertedFacts.map pendingKey).Nodup

theorem nodup_pendingKeys {facts : List Fact} (apart : (facts.map Fact.eavKey).Nodup) :
    (facts.map pendingKey).Nodup := by
  rw [List.Nodup, List.pairwise_map] at apart ⊢
  exact apart.imp fun differ same => differ (eavKey_of_pendingKey same)

/-- The store grew by asserted facts with keys of their own. -/
structure Grew (s : FactStorage) (new : List Fact) (t : FactStorage) : Prop where
  facts : t.facts = s.facts ++ new
  asserted : ∀ f ∈ new, f.asserted = true
  fresh : ∀ f ∈ new, f.eavKey ∉ s.assertedFacts.map Fact.eavKey
  apart : (new.map Fact.eavKey).Nodup
  ok : s.Ok → t.Ok

namespace Grew

variable {s t u : FactStorage} {new later : List Fact}

theorem assertedFacts (h : Grew s new t) : t.assertedFacts = s.assertedFacts ++ new := by
  rw [FactStorage.assertedFacts, FactStorage.assertedFacts, h.facts, List.filter_append,
    List.filter_eq_self.mpr h.asserted]

theorem refl (s : FactStorage) : Grew s [] s where
  facts := (List.append_nil s.facts).symm
  asserted := fun _ no => absurd no List.not_mem_nil
  fresh := fun _ no => absurd no List.not_mem_nil
  apart := List.nodup_nil
  ok := id

theorem trans (first : Grew s new t) (second : Grew t later u) : Grew s (new ++ later) u := by
  have known := first.assertedFacts
  refine ⟨?_, ?_, ?_, ?_, second.ok ∘ first.ok⟩
  · rw [second.facts, first.facts, List.append_assoc]
  · intro f hf
    exact (List.mem_append.mp hf).elim (first.asserted f) (second.asserted f)
  · intro f hf old
    rcases List.mem_append.mp hf with hf | hf
    · exact first.fresh f hf old
    · apply second.fresh f hf
      rw [known, List.map_append]
      exact List.mem_append_left _ old
  · rw [List.map_append, List.nodup_append]
    refine ⟨first.apart, second.apart, fun k hk k' hk' same => ?_⟩
    obtain ⟨f, hf, rfl⟩ := List.mem_map.mp hk'
    apply second.fresh f hf
    rw [known, List.map_append]
    exact List.mem_append_right _ (same ▸ hk)

theorem distinct (h : Grew s new t) (distinct : s.Distinct) : t.Distinct := by
  rw [FactStorage.Distinct, h.assertedFacts, List.map_append, List.nodup_append]
  refine ⟨distinct, nodup_pendingKeys h.apart, fun k hk k' hk' same => ?_⟩
  obtain ⟨f, hf, rfl⟩ := List.mem_map.mp hk
  obtain ⟨g, hg, rfl⟩ := List.mem_map.mp hk'
  exact h.fresh g hg (List.mem_map.mpr ⟨f, hf, eavKey_of_pendingKey same⟩)

theorem full (h : Grew s new t) (full : s.Full) : t.Full := by
  rw [FactStorage.Full, h.facts, List.length_append]
  exact Nat.le_trans full (Nat.le_add_right _ _)

end Grew

/-! ## Taking a fact -/

/-- A fact with a new key is taken, or the store is full. -/
theorem attempted_loadFact {s : FactStorage} (ok : s.Ok) {f : Fact} (asserted : f.asserted = true)
    (new : f.eavKey ∉ s.assertedFacts.map Fact.eavKey) :
    (attempted (loadFact f) s).Full ∨ Grew s [f] (attempted (loadFact f) s) := by
  have unknown : pendingKey f ∉ s.pendingKeys := by
    intro known
    obtain ⟨g, hg, same⟩ := (ok.keys _).mp known
    refine new (List.mem_map.mpr ⟨g, List.mem_filter.mpr ⟨hg, ?_⟩, eavKey_of_pendingKey same⟩)
    have flags := congrArg PendingKey.asserted same
    exact flags.trans asserted
  have taken := wp_loadFact s f
  unfold Wp at taken
  unfold attempted
  cases ran : loadFact f s with
  | ok _ t =>
      rw [ran] at taken
      rw [freshFacts, if_neg unknown] at taken
      right
      exact ⟨taken.facts, by simpa [freshFacts] using asserted, by simpa [freshFacts] using new,
        List.nodup_singleton _, taken.ok⟩
  | error _ t =>
      rw [ran] at taken
      left
      rw [taken.1]
      exact taken.2

theorem attempted_loadFact_full {s : FactStorage} (full : s.Full) (f : Fact) : (attempted (loadFact f) s).Full := by
  have taken := wp_loadFact s f
  unfold Wp at taken
  unfold attempted
  cases ran : loadFact f s with
  | ok _ t =>
      rw [ran] at taken
      rw [FactStorage.Full, taken.facts, List.length_append]
      exact Nat.le_trans full (Nat.le_add_right _ _)
  | error _ t =>
      rw [ran] at taken
      rw [taken.1]
      exact full

/-- A transaction of one triple with a new key adds a fact, or the store is full. -/
theorem attempted_transact {s : FactStorage} {f : Fact} (new : f.eavKey ∉ s.assertedFacts.map Fact.eavKey)
    (txId : TxId) :
    (attempted (transact [(f.entity, f.attr, f.value)] none txId) s).Full ∨
      ∃ g : Fact, g.triple = f.triple ∧
        Grew s [g] (attempted (transact [(f.entity, f.attr, f.value)] none txId) s) := by
  have taken := RecursiveEvaluator.wp_transact_one s f txId
  unfold Wp at taken
  unfold attempted
  cases ran : transact [(f.entity, f.attr, f.value)] none txId s with
  | ok _ t =>
      rw [ran] at taken
      obtain ⟨g, facts, triple, asserted, ok⟩ := taken
      right
      refine ⟨g, triple, facts, ?_, ?_, List.nodup_singleton _, ok⟩
      · intro h hh
        rw [List.mem_singleton.mp hh]
        exact asserted
      · intro h hh
        rw [List.mem_singleton.mp hh, Fact.eavKey_of_triple triple]
        exact new
  | error _ t =>
      rw [ran] at taken
      left
      rw [FactStorage.Full, taken.1]
      exact taken.2

theorem attempted_transact_full {s : FactStorage} (full : s.Full) (f : Fact) (txId : TxId) :
    (attempted (transact [(f.entity, f.attr, f.value)] none txId) s).Full := by
  have taken := RecursiveEvaluator.wp_transact_one s f txId
  unfold Wp at taken
  unfold attempted
  cases ran : transact [(f.entity, f.attr, f.value)] none txId s with
  | ok _ t =>
      rw [ran] at taken
      obtain ⟨g, facts, -⟩ := taken
      rw [FactStorage.Full, facts, List.length_append]
      exact Nat.le_trans full (Nat.le_add_right _ _)
  | error _ t =>
      rw [ran] at taken
      rw [FactStorage.Full, taken.1]
      exact full

end Minigraf
