import Minigraf.Storage.SmallFacts
import Minigraf.Storage.Transparency

/-!
Which lookups find exactly the facts they ask for, in every store that can be read:
whatever is pending, whatever is committed, with or without a committed index reader.
-/

namespace Minigraf

open EStateM

section ExactLookups

variable {H C : Type} (crc : Crc H C) (postcard : Postcard) {s : Store H C}
  {placed : List (Fact × FactRef)}

/-- A lookup finds the facts it asks for among all facts, in whatever order. -/
def Exact (lookup : Lookup) (s : Store H C) : Prop :=
  ∃ all found u v, allFacts crc postcard s = .ok all u ∧
    lookupFacts crc postcard lookup s = .ok found v ∧ found.Perm (all.filter lookup.selects)

/-- Facts out of reach are missed unless the lookup does not ask for them. -/
theorem Store.reach_perm (lookup : Lookup) :
    ((s.reach placed lookup ++ s.storage.facts).filter lookup.selects).Perm
        ((placed.map Prod.fst ++ s.storage.facts).filter lookup.selects) ↔
      s.reach placed lookup = placed.map Prod.fst ∨ ∀ p ∈ placed, lookup.selects p.1 = false := by
  rw [List.filter_append, List.filter_append, List.perm_append_right_iff]
  have whole : s.reach placed lookup = [] ∨ s.reach placed lookup = placed.map Prod.fst := by
    unfold Store.reach
    split
    · exact .inl rfl
    · split
      · exact .inl rfl
      · exact .inr rfl
  constructor
  · intro perm
    apply whole.symm.imp_right
    intro none_ p hp
    rw [none_, List.filter_nil, List.nil_perm] at perm
    exact eq_false_of_ne_true fun asked =>
      List.filter_eq_nil_iff.mp perm p.1 (List.mem_map_of_mem hp) asked
  · intro known
    cases known with
    | inl all => rw [all]
    | inr none_ =>
        have empty : (placed.map Prod.fst).filter lookup.selects = [] := by
          rw [List.filter_eq_nil_iff]
          intro f hf
          obtain ⟨p, hp, rfl⟩ := List.mem_map.mp hf
          rw [none_ p hp]
          exact Bool.false_ne_true
        cases whole with
        | inl nothing => rw [nothing, empty, List.filter_nil]
        | inr all => rw [all]

/-- A lookup is exact unless it is of the last UUID with facts pending, where it panics,
or facts it asks for are out of its reach: committed ones when it is of the last UUID and
there is an index reader, or when there is none and facts are pending. -/
theorem Store.Legible.lookup_exact (legible : s.Legible postcard placed) (distinct : s.Distinct placed)
    (lookup : Lookup) :
    Exact crc postcard lookup s ↔
      (lookup.wraps = true → s.storage.facts = []) ∧
        ((lookup.wraps = true → s.storage.committedIndexReader = none) ∧
            (s.storage.committedIndexReader = none → s.storage.facts = []) ∨
          ∀ p ∈ placed, lookup.selects p.1 = false) := by
  obtain ⟨all, w, read, rfl, _⟩ := (legible.readable.wp_allFacts crc).exists_ok
  by_cases inner : lookup.wraps = true → s.storage.facts = []
  · obtain ⟨found, v, looked, perm, _⟩ := (legible.wp_lookupFacts crc distinct lookup inner).exists_ok
    have exact_ : Exact crc postcard lookup s ↔
        ((s.reach placed lookup ++ s.storage.facts).filter lookup.selects).Perm
          ((placed.map Prod.fst ++ s.storage.facts).filter lookup.selects) := by
      constructor
      · intro ⟨_, _, _, _, read', looked', perm'⟩
        cases read.symm.trans read'
        cases looked.symm.trans looked'
        exact perm.symm.trans perm'
      · intro same
        exact ⟨_, _, w, v, read, looked, perm.trans same⟩
    have reach : s.reach placed lookup = placed.map Prod.fst ↔
        ((lookup.wraps = true → s.storage.committedIndexReader = none) ∧
          (s.storage.committedIndexReader = none → s.storage.facts = [])) ∨ placed = [] := by
      have none_ : [] = placed.map Prod.fst ↔ placed = [] := by rw [eq_comm, List.map_eq_nil_iff]
      rw [Store.reach]
      cases reader : s.storage.committedIndexReader with
      | none =>
          by_cases empty : s.storage.facts = []
          · simp [empty]
          · simp [empty, none_]
      | some roots =>
          cases wraps : lookup.wraps with
          | true => simp [none_]
          | false => simp
    rw [exact_, Store.reach_perm, reach, or_assoc]
    have trivial_ : (placed = [] ∨ ∀ p ∈ placed, lookup.selects p.1 = false) ↔
        ∀ p ∈ placed, lookup.selects p.1 = false :=
      or_iff_right_of_imp fun empty p hp => by rw [empty] at hp; cases hp
    rw [trivial_, and_iff_right inner]
  · -- Facts are pending, and the range of the last UUID is refused.
    rw [Classical.not_imp] at inner
    obtain ⟨wraps, pending⟩ := inner
    have last : lookup = .entity (Fin.last _) := by simpa [Lookup.wraps] using wraps
    constructor
    · intro ⟨_, _, _, _, _, looked, _⟩
      rw [last, legible.pending.lookup_last crc postcard pending] at looked
      cases looked
    · intro known
      exact absurd (known.1 wraps) pending

end ExactLookups

/-! ## Numbered facts -/

/-- A store with a thousand facts on its pages and in its trees, and a thousand pending. -/
theorem exists_thousands : ∃ (s : Store (List UInt8) (List UInt8)) (placed : List (Fact × FactRef)),
    s.Legible Postcard.standard placed ∧ s.Distinct placed ∧ s.storage.committedIndexReader ≠ none ∧
    placed.map Prod.fst = (numberedFacts 2000).take 1000 ∧
    s.storage.facts = (numberedFacts 2000).drop 1000 := by
  have length := length_numberedFacts 2000
  obtain ⟨s, placed, clean, committed, pending, reader⟩ := @exists_mixed _ _ _ Crc.lossless 64
    ((numberedFacts 2000).take 1000) ((numberedFacts 2000).drop 1000)
    (fun f hf => numberedFacts_small (List.mem_of_mem_take hf))
    (by rw [List.length_take, length]; decide) (by rw [List.length_drop, length]; decide)
  refine ⟨s, placed, clean.legible, ?_, ?_, committed, pending⟩
  · rw [Store.Distinct, committed, pending, List.take_append_drop]
    exact numberedFacts_nodup (by decide) fun _ _ same => congrArg EavtKey.entity same
  · rw [reader]
    exact Option.some_ne_none _

/-- Entity 7 of these facts is looked up. -/
theorem Store.Legible.lookup_exact_thousands : ∃ (s : Store (List UInt8) (List UInt8))
    (placed : List (Fact × FactRef)), s.Legible Postcard.standard placed ∧ s.Distinct placed ∧
    placed.map Prod.fst = (numberedFacts 2000).take 1000 ∧
    s.storage.facts = (numberedFacts 2000).drop 1000 ∧
    Exact Crc.lossless Postcard.standard (.entity 7) s := by
  obtain ⟨s, placed, legible, distinct, reader, committed, pending⟩ := exists_thousands
  have inner : ¬ (Lookup.entity 7).wraps = true := by decide
  exact ⟨s, placed, legible, distinct, committed, pending,
    (legible.lookup_exact Crc.lossless Postcard.standard distinct (.entity 7)).mpr
      ⟨fun wraps => absurd wraps inner, .inl ⟨fun wraps => absurd wraps inner, fun none_ => absurd none_ reader⟩⟩⟩

/-- The last UUID cannot be looked up while that fact is pending: the range panics. -/
theorem Store.oneFact_inexact : ∃ placed, Store.oneFact.Legible Postcard.standard placed ∧
    Store.oneFact.Distinct placed ∧
    lookupFacts Crc.lossless Postcard.standard (.entity (Fin.last _)) Store.oneFact =
      .error .panicked Store.oneFact ∧
    ¬ Exact Crc.lossless Postcard.standard (.entity (Fin.last _)) Store.oneFact := by
  obtain ⟨_, _, placed, clean⟩ := Store.oneFact_reached.calm
  obtain ⟨_, w, read, rfl, _⟩ := (clean.wp_allFacts Crc.lossless).exists_ok
  have distinct := Store.oneFact_distinct _ w read
  have looked := clean.pending.lookup_last Crc.lossless Postcard.standard
    (by rw [Store.oneFact_facts]; exact List.cons_ne_nil _ _)
  refine ⟨placed, clean.legible, distinct, looked, ?_⟩
  intro ⟨_, _, _, _, _, found, _⟩
  rw [looked] at found
  cases found

end Minigraf
