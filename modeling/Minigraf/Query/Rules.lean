import Mathlib.Algebra.Order.BigOperators.Group.List
import Mathlib.Data.String.Basic
import Minigraf.Lib.Digraph
import Minigraf.Lib.Sorted
import Minigraf.Query.Types

/-!
The rule registry of `src/query/datalog/rules.rs` and the dependency graph of
`src/query/datalog/stratification.rs`.

A stratum is a `Nat`: the loop stops before one reaches the number of predicates, so
`saturating_add` never saturates. `HashMap<String, usize>` is read as 0 where it has no
entry, as every caller reads it.
-/

namespace Minigraf

structure Rule where
  head : List EdnValue
  body : List WhereClause

/-! ## The registry -/

/-- `HashMap<String, Vec<Rule>>`, the predicates in the order in which they came. -/
structure RuleRegistry where
  rules : List (String × List Rule)
  nodup : (rules.map Prod.fst).Nodup

namespace RuleRegistry

def new : RuleRegistry := ⟨[], List.nodup_nil⟩

/-- `rules.entry(predicate).or_default().push(rule)`. -/
def push (predicate : String) (rule : Rule) : List (String × List Rule) → List (String × List Rule)
  | [] => [(predicate, [rule])]
  | (p, rules) :: rest =>
      if p = predicate then (p, rules ++ [rule]) :: rest else (p, rules) :: push predicate rule rest

/-- The last rule of the predicate goes, and its entry if that was the only one. -/
def pop (predicate : String) : List (String × List Rule) → List (String × List Rule)
  | [] => []
  | (p, rules) :: rest =>
      if p = predicate then
        if rules.dropLast.isEmpty then rest else (p, rules.dropLast) :: rest
      else (p, rules) :: pop predicate rest

theorem mem_push {predicate : String} {rule : Rule} {entries : List (String × List Rule)}
    {p : String} :
    p ∈ (push predicate rule entries).map Prod.fst ↔ p = predicate ∨ p ∈ entries.map Prod.fst := by
  induction entries with
  | nil => simp [push]
  | cons entry rest ih =>
      rw [push]
      split
      · next same =>
          rw [← same]
          simp
      · simp only [List.map_cons, List.mem_cons, ih]
        exact or_left_comm

theorem nodup_push {predicate : String} {rule : Rule} {entries : List (String × List Rule)}
    (h : (entries.map Prod.fst).Nodup) : ((push predicate rule entries).map Prod.fst).Nodup := by
  induction entries with
  | nil => exact List.nodup_singleton predicate
  | cons entry rest ih =>
      obtain ⟨fresh, h'⟩ := List.nodup_cons.mp h
      rw [push]
      split
      · exact h
      · next other =>
          refine List.nodup_cons.mpr ⟨fun no => ?_, ih h'⟩
          exact (mem_push.mp no).elim other fresh

theorem nodup_pop {predicate : String} {entries : List (String × List Rule)}
    (h : (entries.map Prod.fst).Nodup) : ((pop predicate entries).map Prod.fst).Nodup := by
  have sub : ∀ l : List (String × List Rule),
      ((pop predicate l).map Prod.fst).Sublist (l.map Prod.fst) := by
    intro l
    induction l with
    | nil => exact .refl _
    | cons entry rest ih =>
        rw [pop]
        split
        · split
          · exact List.sublist_cons_self _ _
          · exact .refl _
        · exact ih.cons_cons _
  exact h.sublist (sub entries)

def registerRuleUnchecked (registry : RuleRegistry) (predicate : String) (rule : Rule) :
    RuleRegistry :=
  ⟨push predicate rule registry.rules, nodup_push registry.nodup⟩

def getRules (registry : RuleRegistry) (predicate : String) : List Rule :=
  (registry.rules.lookup predicate).getD []

def hasRule (registry : RuleRegistry) (predicate : String) : Bool :=
  (registry.rules.lookup predicate).isSome

end RuleRegistry

/-! ## Dependencies -/

/-- The calls made right in a negated body. -/
def negatedCalls (inner : List WhereClause) : List (String × Bool) :=
  inner.filterMap fun
    | .ruleInvocation predicate _ => some (predicate, true)
    | _ => none

mutual

/-- The predicates a clause calls, with whether the call is negated. -/
def collectClauseDeps : WhereClause → List (String × Bool)
  | .ruleInvocation predicate _ => [(predicate, false)]
  | .not inner => negatedCalls inner
  | .notJoin _ inner => negatedCalls inner
  | .or branches => collectBranchDeps branches
  | .orJoin _ branches => collectBranchDeps branches
  | .pattern _ => []
  | .expr _ _ => []

def collectBodyDeps : List WhereClause → List (String × Bool)
  | [] => []
  | clause :: rest => collectClauseDeps clause ++ collectBodyDeps rest

def collectBranchDeps : List (List WhereClause) → List (String × Bool)
  | [] => []
  | branch :: rest => collectBodyDeps branch ++ collectBranchDeps rest

end

def hasMixedClause (body : List WhereClause) : Bool :=
  body.any fun
    | .not _ | .notJoin _ _ | .or _ | .orJoin _ _ => true
    | _ => false

structure DependencyGraph where
  edges : OrdMap String (List (String × Bool))
  mixed : List String

namespace DependencyGraph

/-- One rule of a head: its clauses add to the head's edges. -/
def addRule (graph : DependencyGraph) (head : String) (rule : Rule) : DependencyGraph where
  edges := graph.edges.insert head ((graph.edges.get? head).getD [] ++ collectBodyDeps rule.body)
  mixed := if hasMixedClause rule.body then head :: graph.mixed else graph.mixed

def addRules (graph : DependencyGraph) (entry : String × List Rule) : DependencyGraph :=
  entry.2.foldl (fun graph rule => graph.addRule entry.1 rule) graph

def fromRules (registry : RuleRegistry) : DependencyGraph :=
  registry.rules.foldl addRules ⟨.empty, []⟩

variable (graph : DependencyGraph)

/-- Head, dependency and whether it is negated, in the order of the loops. -/
def edgeList : List (String × String × Bool) :=
  graph.edges.entries.flatMap fun e => e.2.map fun dep => (e.1, dep)

def deps (p : String) : List String := ((graph.edges.get? p).getD []).map Prod.fst

/-- Everything some edge leads to. -/
def targets : List String := graph.edgeList.map fun e => e.2.1

theorem deps_subset (p : String) : graph.deps p ⊆ graph.targets := by
  intro d hd
  obtain ⟨⟨d', negative⟩, hd', rfl⟩ := List.mem_map.mp hd
  cases found : graph.edges.get? p with
  | none =>
      rw [found] at hd'
      cases hd'
  | some ds =>
      rw [found] at hd'
      refine List.mem_map.mpr ⟨(p, d', negative), List.mem_flatMap.mpr ?_, rfl⟩
      exact ⟨(p, ds), OrdMap.get?_eq_some.mp found, List.mem_map_of_mem hd'⟩

/-- Whether `target` is reached from `source` through one or more edges. -/
def reaches (source target : String) : Bool :=
  Digraph.search graph.deps graph.targets graph.deps_subset target [] [source]

/-! ## Strata -/

/-- Heads and dependencies. -/
def allPredicates : Finset String :=
  ((graph.edges.entries.map Prod.fst) ++ graph.targets).toFinset

abbrev Strata := String → Nat

/-- Heads with the predicates they call that have a mixed rule and do not depend back on
the head. -/
def raised : List (String × String) :=
  (graph.edgeList.filter fun e =>
    !e.2.2 && decide (e.2.1 ∈ graph.mixed) && !graph.reaches e.2.1 e.1).map fun e => (e.1, e.2.1)

/-- The head must be above the dependency, not only as high. -/
def strict (e : String × String × Bool) : Bool := e.2.2 || decide ((e.1, e.2.1) ∈ graph.raised)

def required (strata : Strata) (e : String × String × Bool) : Nat :=
  if graph.strict e then strata e.2.1 + 1 else strata e.2.1

/-- The body of the inner loop. -/
def relax (state : Strata × Bool) (e : String × String × Bool) : Except QueryError (Strata × Bool) :=
  let state :=
    if state.1 e.1 < graph.required state.1 e then
      (Function.update state.1 e.1 (graph.required state.1 e), true)
    else state
  if graph.allPredicates.card ≤ state.1 e.1 then .error (.int054 e.1 e.2.1) else .ok state

/-- One round of the outer loop, with whether it changed a stratum. -/
def pass (strata : Strata) : Except QueryError (Strata × Bool) :=
  graph.edgeList.foldlM graph.relax (strata, false)

/-! ## The loop ends -/

variable {graph}

/-- What the inner loop can do with an edge. -/
theorem relax_eq_ok {state next : Strata × Bool} {e : String × String × Bool}
    (h : graph.relax state e = .ok next) :
    (state.1 e.1 < graph.required state.1 e ∧ graph.required state.1 e < graph.allPredicates.card ∧
      next = (Function.update state.1 e.1 (graph.required state.1 e), true)) ∨
    (graph.required state.1 e ≤ state.1 e.1 ∧ next = state) := by
  rw [relax] at h
  by_cases low : state.1 e.1 < graph.required state.1 e
  · simp only [if_pos low, Function.update_self] at h
    split at h
    · cases h
    · next bounded =>
        cases h
        exact .inl ⟨low, Nat.lt_of_not_le bounded, rfl⟩
  · simp only [if_neg low] at h
    split at h
    · cases h
    · cases h
      exact .inr ⟨Nat.le_of_not_lt low, rfl⟩

/-- The strata only rise, and one that rises stays below the number of predicates. -/
structure Rises (graph : DependencyGraph) (before after : Strata × Bool) : Prop where
  le : ∀ p, before.1 p ≤ after.1 p
  bounded : ∀ p, before.1 p < after.1 p →
    p ∈ graph.edges.entries.map Prod.fst ∧ after.1 p < graph.allPredicates.card
  changed : after.2 = true → before.2 = true ∨ ∃ p, before.1 p < after.1 p
  unchanged : after.2 = false → after = before

theorem Rises.refl (state : Strata × Bool) : Rises graph state state where
  le := fun _ => Nat.le_refl _
  bounded := fun _ no => absurd no (Nat.lt_irrefl _)
  changed := .inl
  unchanged := fun _ => rfl

theorem Rises.trans {a b c : Strata × Bool} (h : Rises graph a b) (h' : Rises graph b c) :
    Rises graph a c where
  le := fun p => (h.le p).trans (h'.le p)
  bounded := by
    intro p rise
    by_cases later : b.1 p < c.1 p
    · exact h'.bounded p later
    · have same : c.1 p = b.1 p := Nat.le_antisymm (Nat.le_of_not_lt later) (h'.le p)
      rw [same] at rise ⊢
      exact h.bounded p rise
  changed := by
    intro changed
    rcases h'.changed changed with earlier | ⟨p, rise⟩
    · rcases h.changed earlier with start | ⟨p, rise⟩
      · exact .inl start
      · exact .inr ⟨p, rise.trans_le (h'.le p)⟩
    · exact .inr ⟨p, (h.le p).trans_lt rise⟩
  unchanged := by
    intro unchanged
    have last := h'.unchanged unchanged
    rw [last] at unchanged ⊢
    exact h.unchanged unchanged

theorem head_mem {e : String × String × Bool} (he : e ∈ graph.edgeList) :
    e.1 ∈ graph.edges.entries.map Prod.fst := by
  obtain ⟨entry, hentry, he⟩ := List.mem_flatMap.mp he
  obtain ⟨dep, -, rfl⟩ := List.mem_map.mp he
  exact List.mem_map_of_mem hentry

theorem relax_rises {state next : Strata × Bool} {e : String × String × Bool}
    (he : e ∈ graph.edgeList) (h : graph.relax state e = .ok next) : Rises graph state next := by
  rcases relax_eq_ok h with ⟨low, bounded, rfl⟩ | ⟨-, rfl⟩
  · have moved : ∀ p, p ≠ e.1 →
        Function.update state.1 e.1 (graph.required state.1 e) p = state.1 p :=
      fun p other => Function.update_of_ne other _ _
    constructor
    · intro p
      by_cases same : p = e.1
      · simpa [same] using low.le
      · exact (moved p same).ge
    · intro p rise
      by_cases same : p = e.1
      · subst same
        exact ⟨head_mem he, by simpa using bounded⟩
      · exact absurd (rise.trans_eq (moved p same)) (Nat.lt_irrefl _)
    · intro _
      exact .inr ⟨e.1, by simpa using low⟩
    · intro no
      cases no
  · exact .refl _

theorem foldlM_relax_rises {edges : List (String × String × Bool)} (sub : edges ⊆ graph.edgeList)
    {state next : Strata × Bool} (h : edges.foldlM graph.relax state = .ok next) :
    Rises graph state next := by
  induction edges generalizing state with
  | nil =>
      cases h
      exact .refl _
  | cons e edges ih =>
      rw [List.foldlM_cons] at h
      cases first : graph.relax state e with
      | error _ =>
          rw [first] at h
          cases h
      | ok middle =>
          rw [first] at h
          exact (relax_rises (sub List.mem_cons_self) first).trans
            (ih (fun _ he => sub (List.mem_cons_of_mem _ he)) h)

/-- How far the heads are from the number of predicates. -/
def slack (graph : DependencyGraph) (strata : Strata) : Nat :=
  ((graph.edges.entries.map Prod.fst).map fun p => graph.allPredicates.card - strata p).sum

theorem Rises.slack_lt {strata next : Strata} (h : Rises graph (strata, false) (next, true)) :
    graph.slack next < graph.slack strata := by
  obtain no | ⟨p, rise⟩ := h.changed rfl
  · cases no
  · obtain ⟨head, bounded⟩ := h.bounded p rise
    refine List.sum_lt_sum _ _ (fun q _ => Nat.sub_le_sub_left (h.le q) _) ⟨p, head, ?_⟩
    simp only at rise bounded ⊢
    omega

/-- The outer loop. -/
def propagate (graph : DependencyGraph) (strata : Strata) : Except QueryError Strata :=
  match _passed : graph.pass strata with
  | .error e => .error e
  | .ok (next, false) => .ok next
  | .ok (next, true) => propagate graph next
termination_by graph.slack strata
decreasing_by exact (foldlM_relax_rises (List.Subset.refl _) _passed).slack_lt

def stratify (graph : DependencyGraph) : Except QueryError Strata := graph.propagate fun _ => 0

end DependencyGraph

/-- `register_rule`: the rule goes in, and out again if the registry is then no longer
stratifiable. -/
def RuleRegistry.registerRule (registry : RuleRegistry) (predicate : String) (rule : Rule) :
    RuleRegistry × Except QueryError Unit :=
  let pushed := registry.registerRuleUnchecked predicate rule
  match (DependencyGraph.fromRules pushed).stratify with
  | .ok _ => (pushed, .ok ())
  | .error e =>
      if pushed.hasRule predicate then
        (⟨pop predicate pushed.rules, nodup_pop pushed.nodup⟩, .error e)
      else (pushed, .error (.int055 predicate))

end Minigraf
