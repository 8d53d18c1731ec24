import Minigraf.Query.Joining
import Minigraf.Query.Negation

/-!
The patterns of a body with the variables of a row replaced by constants, against the
same patterns with them free and compared afterwards. Both look for a chain of facts
through the patterns; a row is `Plain` for the patterns if on the facts that match them
the two cannot come apart.
-/

namespace Minigraf

namespace PatternMatcher

variable {m : PatternMatcher}

/-- The pseudo-attributes read off a fact. -/
def PerFact (p : Pattern) : Prop := ∃ q, p.attr = .pseudo q ∧ q ≠ .validAt

/-- The entity a value stands for. -/
def entityOf (m : PatternMatcher) (x : Value) : Option EntityId :=
  match normalizeValue m.env x with
  | .ref id => some id
  | _ => none

/-- The constant the evaluator makes of a value matches the value of a fact: the two meet,
the first is not nil, which becomes a symbol, and of two keywords it is the same. -/
def Renders (env : Env) (s x : Value) : Prop :=
  Meets env x s = true ∧ s ≠ .null ∧ ∀ k l, s = .keyword k → x = .keyword l → k = l

/-- No fact that matches one of the patterns on a real attribute is about the entity. -/
def Unvisited (m : PatternMatcher) (front : List Pattern) (s : Value) : Prop :=
  ∀ q ∈ front, (∃ edn, q.attr = .real edn) → ∀ f ∈ m.facts,
    (∃ cand, m.matchFactAgainstPattern f q = some cand) → m.entityOf s ≠ some f.entity

/-- What a row needs so that a match of the replaced patterns is one of the patterns:
* a fact that matches under the row has equal values where the pattern names a variable of
  the row twice;
* a keyword that earlier patterns offer for the attribute of a scanned pattern is told
  apart from those that match there;
* a per-fact pseudo-attribute whose entity is on the row has the variable from an earlier
  pattern, or no earlier pattern stands on that entity. -/
structure Recoverable (m : PatternMatcher) (ps : List Pattern) (σ : Bindings) : Prop where
  strict : ∀ p ∈ ps, ∀ f ∈ m.facts, (∃ cand, m.matchFactAgainstPattern f (substitutePattern p σ) = some cand) →
    m.Strict σ (m.components f p)
  discerned : m.Discerned σ ps
  correlated : ∀ front p back, ps = front ++ p :: back → PerFact p →
    ∀ v s, p.entity = .var v → σ.lookup (.var v) = some s →
      (∃ n, v = .named n ∧ ∃ q ∈ front, q.Mentions v) ∨ m.Unvisited front s

/-- And so that a match of the patterns that follows the row is one of the replaced ones:
* of a fact that matches with values that meet those of the row, each is matched by the
  constant made of the latter, also for a `?_` variable;
* no `?_` variable of the row stands for the value of a per-fact pseudo-attribute. -/
structure Plain (m : PatternMatcher) (ps : List Pattern) (σ : Bindings) : Prop extends m.Recoverable ps σ where
  fixed : ∀ p ∈ ps, ∀ f ∈ m.facts, ∀ cand, m.matchFactAgainstPattern f p = some cand →
    Follows m.env σ cand → ∀ v x s, (.var v, x) ∈ m.components f p → σ.lookup (.var v) = some s → Renders m.env s x
  named : ∀ p ∈ ps, PerFact p → ∀ n, p.value = .var (.anon n) → σ.lookup (.var (.anon n)) = none

theorem Renders.matchComponent {s x : Value} (h : Renders m.env s x) (b : Bindings) :
    m.matchComponent (Evaluator.valueToEdn s) x b = some b := by
  obtain ⟨met, notNil, apart⟩ := h
  cases s with
  | null => exact absurd rfl notNil
  | string _ | integer _ | boolean _ | ref _ | keyword _ | float _ =>
      refine (m.matchComponent_valueToEdn (fun k l hk hl _ => apart k l hk hl) b).trans ?_
      rw [if_pos met]

theorem entityOf_eq {x y : Value} (h : Meets m.env x y = true) : m.entityOf x = m.entityOf y := by
  unfold entityOf
  rcases Value.eq_iff.1 h with ⟨f, g, hf, hg, -⟩ | ⟨same, -⟩
  · rw [hf, hg]
  · rw [same]

theorem resolvedEntity_bound {b : Bindings} {v : Var} {x : Value} (bound : b.lookup (.var v) = some x) :
    m.resolvedEntity b (.var v) = m.entityOf x := by
  simp only [resolvedEntity, applyBindingToComponent, substituteWith, bound]
  cases x <;> rfl

/-- Only an integer meets an integer. -/
theorem eq_of_meets_integer {y : Value} {i : Int64} (h : Meets m.env y (.integer i) = true) :
    y.eq (.integer i) = true := by
  cases y with
  | keyword k => cases h
  | integer _ | string _ | boolean _ | ref _ | float _ | null => exact h

section Step

variable {ps : List Pattern} {σ : Bindings} {p : Pattern} {b c : Bindings}

end Step

/-! ## Whole bodies -/

/-- How far a row is through a body: the variables of the patterns behind it are bound, and
the facts it stands on matched some of them. -/
structure Behind (m : PatternMatcher) (front : List Pattern) (b : Bindings) : Prop where
  bound : ∀ q ∈ front, ∀ n, q.Mentions (.named n) → ∃ x, b.lookup (.var (.named n)) = some x
  visited : ∀ q id x, b.lookup (.hidden q id) = some x → ∃ p ∈ front, (∃ edn, p.attr = .real edn) ∧
    ∃ f ∈ m.facts, (∃ cand, m.matchFactAgainstPattern f p = some cand) ∧ f.entity = id

/-- Only a real attribute leaves hidden keys behind, those of its fact. -/
theorem hidden_of_matchFact {f : Fact} {p : Pattern} {cand : Bindings}
    (matched : m.matchFactAgainstPattern f p = some cand) {q : PseudoAttr} {id : EntityId} {x : Value}
    (found : cand.lookup (.hidden q id) = some x) : (∃ edn, p.attr = .real edn) ∧ f.entity = id := by
  rw [matchFactAgainstPattern_eq] at matched
  obtain ⟨b, fits, rfl⟩ := Option.map_eq_some_iff.1 matched
  rw [List.lookup_append, m.matchComponents_hidden fits, List.lookup_nil, Option.or_none] at found
  cases hp : p.attr with
  | real edn =>
      refine ⟨⟨edn, rfl⟩, ?_⟩
      rw [leftBehind, hp] at found
      obtain ⟨q', -, same⟩ := List.mem_map.1 (mem_of_lookup found)
      cases same
      rfl
  | pseudo q' =>
      rw [leftBehind, hp] at found
      cases found

theorem Behind.step {front : List Pattern} {b b' : Bindings} (h : m.Behind front b) {p : Pattern}
    (step : m.Steps p b b') : m.Behind (front ++ [p]) b' where
  bound q hq n mentions := by
    rcases List.mem_append.1 hq with hq | hq
    · obtain ⟨x, bound⟩ := h.bound q hq n mentions
      exact ⟨x, step.keeps bound⟩
    · cases List.mem_singleton.1 hq
      exact (step.bound _).2 (.inr ⟨n, rfl, mentions⟩)
  visited q id x found := by
    have early : ∀ y, b.lookup (.hidden q id) = some y → ∃ r ∈ front ++ [p], (∃ edn, r.attr = .real edn) ∧
        ∃ f ∈ m.facts, (∃ cand, m.matchFactAgainstPattern f r = some cand) ∧ f.entity = id := by
      intro y old
      obtain ⟨r, hr, rest⟩ := h.visited q id y old
      exact ⟨r, List.mem_append_left _ hr, rest⟩
    unfold Steps at step
    split at step
    case h_1 value stored =>
        have whole : m.matchComponents [(p.value, value)] b = some b' := by
          simp only [matchComponents, step, Option.bind_some]
        rw [m.matchComponents_hidden whole] at found
        exact early x found
    case h_2 =>
        obtain ⟨f, hf, cand, matched, -, ext⟩ := step
        rw [ext.hidden] at found
        rcases Option.or_eq_some_iff.1 found with new | ⟨-, old⟩
        · obtain ⟨real, entity⟩ := hidden_of_matchFact matched new
          exact ⟨p, List.mem_append_right _ (List.mem_singleton_self p), real, f, hf, ⟨cand, matched⟩, entity⟩
        · exact early x old

theorem Recoverable.known {front back : List Pattern} {p : Pattern} {σ b : Bindings}
    (h : m.Recoverable (front ++ p :: back) σ) (behind : m.Behind front b) (perFact : PerFact p) (v : Var) (s : Value)
    (entity : p.entity = .var v) (fixed : σ.lookup (.var v) = some s) :
    (∃ x, b.lookup (.var v) = some x) ∨ ∀ q id, m.entityOf s = some id → b.lookup (.hidden q id) = none := by
  rcases h.correlated front p back rfl perFact v s entity fixed with ⟨n, rfl, q, hq, mentions⟩ | unvisited
  · exact .inl (behind.bound q hq n mentions)
  · refine .inr fun q id named => ?_
    cases found : b.lookup (.hidden q id) with
    | none => rfl
    | some x =>
        obtain ⟨r, hr, real, f, hf, matched, rfl⟩ := behind.visited q id x found
        exact absurd named (unvisited r hr real f hf matched)

theorem Chain.keeps {ps : List Pattern} {b b' : Bindings} (h : m.Chain ps b b') {v : Var} {x : Value}
    (bound : b.lookup (.var v) = some x) : b'.lookup (.var v) = some x := by
  induction ps generalizing b with
  | nil => exact (h _).symm.trans bound
  | cons p ps ih =>
      obtain ⟨b₁, step, rest⟩ := h
      exact ih rest (step.keeps bound)

end PatternMatcher
end Minigraf
