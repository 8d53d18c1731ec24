import Minigraf.Query.LeastModel
import Minigraf.Query.Solutions

/-!
When a recursive evaluation fails. A rule is safe if its body splits, and its head names an
entity and a value that patterns of the body bind. On facts without nil an evaluation of
safe rules fails only because of a limit, and only where the rules do derive that much.
-/

namespace Minigraf

variable {env : Env} {b b' : Bindings}

/-! ## Heads -/

/-- The value names an entity. -/
def NamesEntity (x : Value) : Prop := (∃ id, x = .ref id) ∨ ∃ k, x = .keyword k

theorem namesEntity_of_meets {x : Value} {id : EntityId} (met : Meets env x (.ref id) = true) : NamesEntity x := by
  cases x with
  | ref id => exact .inl ⟨id, rfl⟩
  | keyword k => exact .inr ⟨k, rfl⟩
  | string _ | integer _ | float _ | boolean _ | null => cases met

namespace PatternMatcher

variable {m : PatternMatcher} {p : Pattern} {edn : EdnValue}

/-- The match of a fact binds the variable in entity position to the entity. -/
theorem matchFact_entity {f : Fact} {cand : Bindings} {n : String} (entity : p.entity = .var (.named n))
    (matched : m.matchFactAgainstPattern f p = some cand) :
    cand.lookup (.var (.named n)) = some (.ref f.entity) := by
  rw [matchFactAgainstPattern_eq] at matched
  obtain ⟨base, fits, rfl⟩ := Option.map_eq_some_iff.mp matched
  rw [lookup_leftBehind_var]
  rw [components, entity] at fits
  simp only [matchComponents, matchComponent, List.lookup_nil, Option.bind_some] at fits
  exact m.matchComponents_keeps fits (by simp)

theorem Steps.entity (h : m.Steps p b b') (real : p.attr = .real edn) {n : String}
    (entity : p.entity = .var (.named n)) : ∃ x, b'.lookup (.var (.named n)) = some x ∧ NamesEntity x := by
  rw [Steps, storedValue_real m real] at h
  obtain ⟨f, -, cand, matched, agrees, ext⟩ := h
  have found := matchFact_entity entity matched
  cases old : b.lookup (.var (.named n)) with
  | none => exact ⟨_, by rw [ext.var, old, Option.none_or, found], .inl ⟨_, rfl⟩⟩
  | some x => exact ⟨x, by rw [ext.var, old, Option.some_or], namesEntity_of_meets (agrees _ x _ old found)⟩

theorem Chain.entity {ps : List Pattern} (h : m.Chain ps b b') (real : ∀ p ∈ ps, ∃ edn, p.attr = .real edn)
    (mem : p ∈ ps) {n : String} (entity : p.entity = .var (.named n)) :
    ∃ x, b'.lookup (.var (.named n)) = some x ∧ NamesEntity x := by
  induction ps generalizing b with
  | nil => cases mem
  | cons q ps ih =>
      obtain ⟨b₁, step, rest⟩ := h
      rcases List.mem_cons.mp mem with rfl | mem
      · obtain ⟨edn, attr⟩ := real p List.mem_cons_self
        obtain ⟨x, found, named⟩ := step.entity attr entity
        exact ⟨x, Chain.keeps rest found, named⟩
      · exact ih rest (fun q hq => real q (List.mem_cons_of_mem _ hq)) mem

theorem Chain.bound {ps : List Pattern} (h : m.Chain ps b b') (mem : p ∈ ps) {n : String}
    (mentions : p.Mentions (.named n)) : ∃ x, b'.lookup (.var (.named n)) = some x := by
  induction ps generalizing b with
  | nil => cases mem
  | cons q ps ih =>
      obtain ⟨b₁, step, rest⟩ := h
      rcases List.mem_cons.mp mem with rfl | mem
      · obtain ⟨x, found⟩ := (step.bound (.named n)).mpr (.inr ⟨n, rfl, mentions⟩)
        exact ⟨x, Chain.keeps rest found⟩
      · exact ih rest mem

end PatternMatcher

/-! ## Facts a safe rule makes -/

namespace RecursiveEvaluator

variable {ev : RecursiveEvaluator} {predicates : List String} {s : FactStorage}

/-- The facts of the base and those of a delta are again grown from the base. -/
theorem Reached.grow {baseCount : Nat} {seen : List EavKey} {derived : FactStorage} {new delta : List Fact}
    (h : Reached ev predicates ev.baseFacts baseCount seen derived)
    (made : ∀ f ∈ new, ev.Makes predicates derived.assertedFacts f) (from_ : delta ⊆ new)
    (fresh : ∀ f ∈ delta, f.eavKey ∉ seen) (nodup : (delta.map Fact.eavKey).Nodup) :
    Saturation.Grown Fact.eavKey (ev.Makes predicates) ev.baseFacts (derived.facts ++ delta) := by
  apply h.grown.round h.grown.prefix_
  · intro f hf
    have here := made f (from_ hf)
    rwa [h.assertedFacts] at here
  · exact fun f hf old => fresh f hf ((h.keys _).mpr old)
  · exact nodup

end RecursiveEvaluator
end Minigraf
