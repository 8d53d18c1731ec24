import Mathlib.Data.List.Induction
import Minigraf.Storage.Postcard
import Minigraf.Storage.Rounds

/-!
Facts of a few thousand bytes at most: their entries fit every page of the indexes, so a
round that adds and saves them succeeds, and stores with any number of them committed and
any number of them pending exist.
-/

namespace Minigraf

open EStateM

section Small

variable {H C : Type} [DecidableEq C] {crc : Crc H C}

/-- A round of small facts succeeds on a store in good order that is not large. -/
theorem Store.Clean.exists_round {s : Store H C} {placed : List (Fact × FactRef)}
    (h : s.Clean crc Postcard.standard placed) (calm : s.dev.faults = none) (none_ : s.storage.facts = [])
    {facts : List Fact} (small : ∀ f ∈ facts, Postcard.factBytes f ≤ 3900)
    (few : placed.length + facts.length ≤ 2 ^ 32) (low : s.committedFactPages ≤ 2 ^ 33) :
    ∃ t new, Round crc Postcard.standard facts s t ∧ t.Clean crc Postcard.standard (placed ++ new) ∧
      t.Committed crc Postcard.standard (placed ++ new) ∧ t.dev.faults = none ∧ t.storage.facts = [] ∧ new.map Prod.fst = facts ∧
      t.committedFactPages ≤ s.committedFactPages + facts.length + 1 := by
  obtain ⟨_, mid, run, appended, same⟩ := ((wp_addPending s facts).mono (fun _ _ done => done)
    fun _ _ many => absurd many.2 (by rw [none_, List.length_nil]; omega)).exists_ok
  have added : mid.storage.facts = facts := by rw [appended.facts, none_, List.nil_append]
  have groups := length_packGroups_le Postcard.standard.fact mid.storage.facts
  have pages : mid.committedFactPages = s.committedFactPages := by rw [same]
  rw [added] at groups
  have index : IndexFits Postcard.standard (mid.pendingAt Postcard.standard) := by
    refine Postcard.indexFits fun p hp => ?_
    obtain ⟨hfact, href⟩ := List.of_mem_zip hp
    have bound := mem_packedRefs href
    rw [packGroups_flatten] at bound
    rw [added] at hfact bound
    exact ⟨small p.1 hfact, by omega, by omega⟩
  have clean : mid.Clean crc Postcard.standard placed := by
    rw [same]
    exact h.appended appended true
  have saving : Wp (save crc Postcard.standard) mid
      (fun _ t => Saved crc Postcard.standard mid placed t) (fun _ _ => False) := by
    refine (clean.wp_save (by rw [same]) index).mono (fun _ _ saved => saved) fun _ _ failed => ?_
    obtain fault | ⟨f, hf, large⟩ | far | many := failed.why
    · exact fault (by rw [same]; exact calm)
    · rw [added] at hf
      exact large (Postcard.fits (small f hf))
    · rw [PAGE_LIMIT, added] at far
      omega
    · rw [added] at many
      omega
  obtain ⟨_, t, ran, saved⟩ := saving.exists_ok
  refine ⟨t, mid.pendingAt Postcard.standard, ⟨mid, run, fun f hf => Postcard.fits (small f hf), ?_, ran⟩,
    saved.clean, saved.committed, saved.calm (by rw [same]; exact calm), saved.facts, ?_, ?_⟩
  · exact ⟨fun e he => (index.eavt e he).leaf, fun e he => (index.aevt e he).leaf,
      fun e he => (index.avet e he).leaf, fun e he => (index.vaet e he).leaf⟩
  · rw [Store.map_pendingAt, added]
  · rw [saved.pages, pages, added]
    omega

/-- Any number of rounds of small facts succeed on a new file, and commit the facts. -/
theorem exists_rounds (capacity : Nat) (rounds : List (List Fact))
    (small : ∀ facts ∈ rounds, ∀ f ∈ facts, Postcard.factBytes f ≤ 3900)
    (few : rounds.flatten.length + rounds.length ≤ 2 ^ 32) :
    ∃ s placed, Rounds crc Postcard.standard (Store.init (Dev.create crc capacity none)) rounds s ∧
      s.Clean crc Postcard.standard placed ∧ s.dev.faults = none ∧ s.storage.facts = [] ∧
      placed.map Prod.fst = rounds.flatten ∧
      s.committedFactPages ≤ rounds.flatten.length + rounds.length := by
  induction rounds using List.reverseRecOn with
  | nil => exact ⟨_, [], .start, .create capacity none, rfl, rfl, rfl, Nat.zero_le _⟩
  | append_singleton earlier facts ih =>
      rw [List.flatten_append, List.flatten_singleton] at few ⊢
      rw [List.length_append, List.length_append, List.length_singleton] at few ⊢
      obtain ⟨s, placed, rounds, clean, calm, none_, whole, pages⟩ :=
        ih (fun facts hfacts => small facts (List.mem_append_left _ hfacts)) (by omega)
      have count : placed.length = earlier.flatten.length := by rw [← whole, List.length_map]
      obtain ⟨t, new, round, clean', -, calm', none', whole', pages'⟩ := clean.exists_round calm none_
        (small facts (List.mem_append_right _ List.mem_cons_self)) (by omega) (by omega)
      refine ⟨t, placed ++ new, rounds.next round, clean', calm', none', ?_, by omega⟩
      rw [List.map_append, whole, whole']

/-- A store with small facts committed and small facts pending. -/
theorem exists_mixed (capacity : Nat) {committed pending : List Fact}
    (small : ∀ f ∈ committed, Postcard.factBytes f ≤ 3900) (few : committed.length ≤ 2 ^ 32)
    (few' : pending.length ≤ 2 ^ 32) :
    ∃ (s : Store H C) (placed : List (Fact × FactRef)), s.Clean crc Postcard.standard placed ∧
      placed.map Prod.fst = committed ∧ s.storage.facts = pending ∧
      s.storage.committedIndexReader = some s.dev.header.roots := by
  have start : (Store.init (Dev.create crc capacity none) : Store H C).Clean crc Postcard.standard [] :=
    .create capacity none
  obtain ⟨s, placed, -, clean, saved, -, none_, whole, -⟩ := start.exists_round rfl rfl small
    (by rw [List.length_nil]; omega) (Nat.zero_le _)
  obtain ⟨_, t, run, appended, same⟩ := ((wp_addPending s pending).mono (fun _ _ done => done)
    fun _ _ many => absurd many.2 (by rw [none_, List.length_nil]; omega)).exists_ok
  refine ⟨t, placed, ?_, whole, ?_, ?_⟩
  · rw [same]
    exact clean.appended appended true
  · rw [appended.facts, none_, List.nil_append]
  · rw [appended.reader, saved.reader, same]

/-! ## Numbered facts -/

/-- The fact `[n :a n]`. -/
def numberedFact (n : Nat) : Fact := ⟨Fin.ofNat _ n, ":a", .integer (.ofNat n), 5, 1, 5, VALID_TIME_FOREVER, true⟩

theorem numberedFact_small (n : Nat) : Postcard.factBytes (numberedFact n) ≤ 3900 := by
  change Postcard.textBytes ":a" + 16 ≤ 3900
  decide

@[irreducible] def numberedFacts (count : Nat) : List Fact := (List.range count).map numberedFact

theorem length_numberedFacts (count : Nat) : (numberedFacts count).length = count := by
  rw [numberedFacts, List.length_map, List.length_range]

theorem exists_of_mem_numberedFacts {count : Nat} {f : Fact} (hf : f ∈ numberedFacts count) :
    ∃ n, n < count ∧ f = numberedFact n := by
  rw [numberedFacts] at hf
  obtain ⟨n, hn, rfl⟩ := List.mem_map.mp hf
  exact ⟨n, List.mem_range.mp hn, rfl⟩

theorem numberedFacts_small {count : Nat} {f : Fact} (hf : f ∈ numberedFacts count) :
    Postcard.factBytes f ≤ 3900 := by
  obtain ⟨n, -, rfl⟩ := exists_of_mem_numberedFacts hf
  exact numberedFact_small n

theorem numberedFact_injOn {count m n : Nat} (few : count ≤ 2 ^ 128) (hm : m < count) (hn : n < count)
    (same : (numberedFact m).entity = (numberedFact n).entity) : m = n := by
  have values : m % 2 ^ 128 = n % 2 ^ 128 := congrArg Fin.val same
  rwa [Nat.mod_eq_of_lt (by omega), Nat.mod_eq_of_lt (by omega)] at values

/-- Facts with different numbers have different keys, in whatever index their entities are
part of. -/
theorem numberedFacts_nodup {K : Type} {count : Nat} (few : count ≤ 2 ^ 128) {key : Fact → K}
    (entity : ∀ f g, key f = key g → f.entity = g.entity) : ((numberedFacts count).map key).Nodup := by
  rw [numberedFacts, List.map_map]
  refine List.Nodup.map_on ?_ List.nodup_range
  intro m hm n hn same
  exact numberedFact_injOn few (List.mem_range.mp hm) (List.mem_range.mp hn) (entity _ _ same)

end Small

end Minigraf
