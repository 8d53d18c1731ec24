import Minigraf.Query.Rules

/-!
Stratification is exact: `stratify` refuses the registries whose rules have a negative edge
on a cycle and no others, and the strata it returns put every head where its rules can be
evaluated after what they use.
-/

namespace Minigraf

/-! ## Uses -/

/-- The predicates used in a clause at any depth. What a negated body uses is used
negatively. -/
inductive WhereClause.Uses : WhereClause → String → Bool → Prop
  | call (predicate : String) (args : List EdnValue) :
      Uses (.ruleInvocation predicate args) predicate false
  | not {body : List WhereClause} {clause : WhereClause} {predicate : String} {negative : Bool} :
      clause ∈ body → Uses clause predicate negative → Uses (.not body) predicate true
  | notJoin {joinVars : List Var} {body : List WhereClause} {clause : WhereClause}
      {predicate : String} {negative : Bool} :
      clause ∈ body → Uses clause predicate negative → Uses (.notJoin joinVars body) predicate true
  | or {branches : List (List WhereClause)} {branch : List WhereClause} {clause : WhereClause}
      {predicate : String} {negative : Bool} :
      branch ∈ branches → clause ∈ branch → Uses clause predicate negative →
        Uses (.or branches) predicate negative
  | orJoin {joinVars : List Var} {branches : List (List WhereClause)} {branch : List WhereClause}
      {clause : WhereClause} {predicate : String} {negative : Bool} :
      branch ∈ branches → clause ∈ branch → Uses clause predicate negative →
        Uses (.orJoin joinVars branches) predicate negative

/-- A clause that holds no other clauses. -/
def WhereClause.Plain : WhereClause → Prop
  | .pattern _ | .ruleInvocation _ _ | .expr _ _ => True
  | _ => False

/-- The clauses `parse_list_as_where_clause` builds: it refuses `not`, `not-join`, `or` and
`or-join` in a negated body. -/
inductive WhereClause.Parsed : WhereClause → Prop
  | plain {clause : WhereClause} : clause.Plain → Parsed clause
  | not {body : List WhereClause} : (∀ clause ∈ body, clause.Plain) → Parsed (.not body)
  | notJoin {joinVars : List Var} {body : List WhereClause} :
      (∀ clause ∈ body, clause.Plain) → Parsed (.notJoin joinVars body)
  | or {branches : List (List WhereClause)} :
      (∀ branch ∈ branches, ∀ clause ∈ branch, Parsed clause) → Parsed (.or branches)
  | orJoin {joinVars : List Var} {branches : List (List WhereClause)} :
      (∀ branch ∈ branches, ∀ clause ∈ branch, Parsed clause) → Parsed (.orJoin joinVars branches)

theorem collectBodyDeps_eq (body : List WhereClause) :
    collectBodyDeps body = body.flatMap collectClauseDeps := by
  induction body with
  | nil => rfl
  | cons clause rest ih => rw [collectBodyDeps, ih, List.flatMap_cons]

theorem collectBranchDeps_eq (branches : List (List WhereClause)) :
    collectBranchDeps branches = branches.flatMap collectBodyDeps := by
  induction branches with
  | nil => rfl
  | cons branch rest ih => rw [collectBranchDeps, ih, List.flatMap_cons]

theorem mem_collectBodyDeps {body : List WhereClause} {dep : String × Bool} :
    dep ∈ collectBodyDeps body ↔ ∃ clause ∈ body, dep ∈ collectClauseDeps clause := by
  rw [collectBodyDeps_eq, List.mem_flatMap]

theorem mem_collectBranchDeps {branches : List (List WhereClause)} {dep : String × Bool} :
    dep ∈ collectBranchDeps branches ↔
      ∃ branch ∈ branches, ∃ clause ∈ branch, dep ∈ collectClauseDeps clause := by
  simp only [collectBranchDeps_eq, List.mem_flatMap, mem_collectBodyDeps]

theorem mem_negatedCalls {body : List WhereClause} {p : String} {negative : Bool} :
    (p, negative) ∈ negatedCalls body ↔
      negative = true ∧ ∃ args, WhereClause.ruleInvocation p args ∈ body := by
  rw [negatedCalls, List.mem_filterMap]
  constructor
  · rintro ⟨clause, hclause, found⟩
    cases clause with
    | ruleInvocation q args =>
        cases found
        exact ⟨rfl, args, hclause⟩
    | pattern _ | not _ | notJoin _ _ | expr _ _ | or _ | orJoin _ _ => cases found
  · rintro ⟨rfl, args, hclause⟩
    exact ⟨_, hclause, rfl⟩

theorem WhereClause.Plain.uses {clause : WhereClause} (plain : clause.Plain) {p : String}
    {negative : Bool} (uses : clause.Uses p negative) :
    negative = false ∧ ∃ args, clause = .ruleInvocation p args := by
  cases uses with
  | call _ args => exact ⟨rfl, args, rfl⟩
  | not _ _ | notJoin _ _ | or _ _ _ | orJoin _ _ _ => exact plain.elim

/-- A negated body that is parsed uses what it calls. -/
theorem uses_of_plain {body : List WhereClause} (plain : ∀ clause ∈ body, clause.Plain)
    {p : String} :
    (∃ clause ∈ body, ∃ negative, clause.Uses p negative) ↔
      ∃ args, WhereClause.ruleInvocation p args ∈ body := by
  constructor
  · rintro ⟨clause, hclause, negative, uses⟩
    obtain ⟨-, args, rfl⟩ := (plain clause hclause).uses uses
    exact ⟨args, hclause⟩
  · rintro ⟨args, hclause⟩
    exact ⟨_, hclause, false, .call p args⟩

/-- The branches of a disjunction use what their clauses do. -/
theorem mem_collectBranchDeps_of {branches : List (List WhereClause)} {p : String} {negative : Bool}
    (ih : ∀ branch ∈ branches, ∀ clause ∈ branch,
      ((p, negative) ∈ collectClauseDeps clause ↔ clause.Uses p negative)) :
    (p, negative) ∈ collectBranchDeps branches ↔
      ∃ branch ∈ branches, ∃ clause ∈ branch, clause.Uses p negative := by
  rw [mem_collectBranchDeps]
  constructor
  · rintro ⟨branch, hbranch, clause, hclause, found⟩
    exact ⟨branch, hbranch, clause, hclause, (ih branch hbranch clause hclause).mp found⟩
  · rintro ⟨branch, hbranch, clause, hclause, uses⟩
    exact ⟨branch, hbranch, clause, hclause, (ih branch hbranch clause hclause).mpr uses⟩

/-- The collected dependencies of a parsed clause are its uses. -/
theorem WhereClause.Parsed.mem_collectClauseDeps {clause : WhereClause} (parsed : clause.Parsed)
    {p : String} {negative : Bool} :
    (p, negative) ∈ collectClauseDeps clause ↔ clause.Uses p negative := by
  induction parsed with
  | @plain clause plain =>
      cases clause with
      | ruleInvocation q args =>
          rw [collectClauseDeps, List.mem_singleton, Prod.mk.injEq]
          constructor
          · rintro ⟨rfl, rfl⟩
            exact .call p args
          · intro uses
            cases uses
            exact ⟨rfl, rfl⟩
      | pattern _ | expr _ _ =>
          rw [collectClauseDeps]
          exact ⟨(fun no => nomatch no), (fun no => nomatch no)⟩
      | not _ | notJoin _ _ | or _ | orJoin _ _ => exact plain.elim
  | not plain =>
      rw [collectClauseDeps, mem_negatedCalls, ← uses_of_plain plain]
      constructor
      · rintro ⟨rfl, clause, hclause, negative, uses⟩
        exact .not hclause uses
      · rintro (_ | ⟨hclause, uses⟩)
        exact ⟨rfl, _, hclause, _, uses⟩
  | notJoin plain =>
      rw [collectClauseDeps, mem_negatedCalls, ← uses_of_plain plain]
      constructor
      · rintro ⟨rfl, clause, hclause, negative, uses⟩
        exact .notJoin hclause uses
      · rintro (_ | _ | ⟨hclause, uses⟩)
        exact ⟨rfl, _, hclause, _, uses⟩
  | or _ ih =>
      rw [collectClauseDeps, mem_collectBranchDeps_of ih]
      constructor
      · rintro ⟨branch, hbranch, clause, hclause, uses⟩
        exact .or hbranch hclause uses
      · rintro (_ | _ | _ | ⟨hbranch, hclause, uses⟩)
        exact ⟨_, hbranch, _, hclause, uses⟩
  | orJoin _ ih =>
      rw [collectClauseDeps, mem_collectBranchDeps_of ih]
      constructor
      · rintro ⟨branch, hbranch, clause, hclause, uses⟩
        exact .orJoin hbranch hclause uses
      · rintro (_ | _ | _ | _ | ⟨hbranch, hclause, uses⟩)
        exact ⟨_, hbranch, _, hclause, uses⟩

/-! ## The graph of a registry -/

namespace DependencyGraph

variable {graph : DependencyGraph}

theorem mem_edgeList {e : String × String × Bool} :
    e ∈ graph.edgeList ↔ e.2 ∈ (graph.edges.get? e.1).getD [] := by
  have entry : e ∈ graph.edgeList ↔ ∃ ds, graph.edges.get? e.1 = some ds ∧ e.2 ∈ ds := by
    simp only [edgeList, List.mem_flatMap, List.mem_map, OrdMap.get?_eq_some]
    constructor
    · rintro ⟨⟨head, ds⟩, hentry, dep, hdep, rfl⟩
      exact ⟨ds, hentry, hdep⟩
    · rintro ⟨ds, hentry, hdep⟩
      exact ⟨(e.1, ds), hentry, e.2, hdep, rfl⟩
  rw [entry]
  cases graph.edges.get? e.1 with
  | none => simp
  | some ds => simp

theorem mem_deps {p d : String} : d ∈ graph.deps p ↔ ∃ negative, (p, d, negative) ∈ graph.edgeList := by
  simp only [deps, List.mem_map, mem_edgeList]
  constructor
  · rintro ⟨⟨d', negative⟩, hdep, rfl⟩
    exact ⟨negative, hdep⟩
  · rintro ⟨negative, hdep⟩
    exact ⟨(d, negative), hdep, rfl⟩

theorem mem_addRule {head : String} {rule : Rule} {e : String × String × Bool} :
    e ∈ (graph.addRule head rule).edgeList ↔
      e ∈ graph.edgeList ∨ e.1 = head ∧ e.2 ∈ collectBodyDeps rule.body := by
  rw [mem_edgeList, mem_edgeList, addRule, OrdMap.get?_insert]
  split
  · next same => simp [same]
  · next differ => simp [differ]

theorem mem_mixed_addRule {head p : String} {rule : Rule} :
    p ∈ (graph.addRule head rule).mixed ↔
      p ∈ graph.mixed ∨ p = head ∧ hasMixedClause rule.body = true := by
  rw [addRule]
  split
  · next mixed => simp [mixed, or_comm]
  · next plain => simp [plain]

/-- What every step either keeps or adds, a loop keeps or adds somewhere. -/
theorem foldl_iff {σ α : Type} {f : σ → α → σ} {P : σ → Prop} {Q : α → Prop}
    (step : ∀ state a, P (f state a) ↔ P state ∨ Q a) (l : List α) (state : σ) :
    P (l.foldl f state) ↔ P state ∨ ∃ a ∈ l, Q a := by
  induction l generalizing state with
  | nil => simp
  | cons a l ih =>
      rw [List.foldl_cons, ih, step, or_assoc, List.exists_mem_cons_iff]

theorem mem_addRules {entry : String × List Rule} {e : String × String × Bool} :
    e ∈ (graph.addRules entry).edgeList ↔
      e ∈ graph.edgeList ∨ e.1 = entry.1 ∧ ∃ rule ∈ entry.2, e.2 ∈ collectBodyDeps rule.body := by
  refine (foldl_iff (P := fun g : DependencyGraph => e ∈ g.edgeList)
    (Q := fun rule => e.1 = entry.1 ∧ e.2 ∈ collectBodyDeps rule.body)
    (fun _ _ => mem_addRule) entry.2 graph).trans ?_
  simp only [exists_and_left, and_left_comm]

theorem mem_mixed_addRules {entry : String × List Rule} {p : String} :
    p ∈ (graph.addRules entry).mixed ↔
      p ∈ graph.mixed ∨ p = entry.1 ∧ ∃ rule ∈ entry.2, hasMixedClause rule.body = true := by
  refine (foldl_iff (P := fun g : DependencyGraph => p ∈ g.mixed)
    (Q := fun rule => p = entry.1 ∧ hasMixedClause rule.body = true)
    (fun _ _ => mem_mixed_addRule) entry.2 graph).trans ?_
  simp only [exists_and_left, and_left_comm]

end DependencyGraph

namespace RuleRegistry

variable (registry : RuleRegistry)

def HasRule (head : String) (rule : Rule) : Prop :=
  ∃ entry ∈ registry.rules, head = entry.1 ∧ rule ∈ entry.2

/-- The edges as `collect_clause_deps` finds them. -/
def Collected (head dep : String) (negative : Bool) : Prop :=
  ∃ rule, registry.HasRule head rule ∧ (dep, negative) ∈ collectBodyDeps rule.body

/-- The predicate has a rule with a `not`, `not-join`, `or` or `or-join`. -/
def Mixed (predicate : String) : Prop :=
  ∃ rule, registry.HasRule predicate rule ∧ hasMixedClause rule.body = true

variable {registry}

theorem mem_fromRules {head dep : String} {negative : Bool} :
    (head, dep, negative) ∈ (DependencyGraph.fromRules registry).edgeList ↔
      registry.Collected head dep negative := by
  refine (DependencyGraph.foldl_iff
    (P := fun g : DependencyGraph => (head, dep, negative) ∈ g.edgeList)
    (Q := fun entry => head = entry.1 ∧ ∃ rule ∈ entry.2, (dep, negative) ∈ collectBodyDeps rule.body)
    (fun _ _ => DependencyGraph.mem_addRules) registry.rules _).trans ?_
  constructor
  · rintro (no | ⟨entry, hentry, same, rule, hrule, found⟩)
    · cases no
    · exact ⟨rule, ⟨entry, hentry, same, hrule⟩, found⟩
  · rintro ⟨rule, ⟨entry, hentry, same, hrule⟩, found⟩
    exact .inr ⟨entry, hentry, same, rule, hrule, found⟩

theorem mem_mixed_fromRules {p : String} :
    p ∈ (DependencyGraph.fromRules registry).mixed ↔ registry.Mixed p := by
  refine (DependencyGraph.foldl_iff (P := fun g : DependencyGraph => p ∈ g.mixed)
    (Q := fun entry => p = entry.1 ∧ ∃ rule ∈ entry.2, hasMixedClause rule.body = true)
    (fun _ _ => DependencyGraph.mem_mixed_addRules) registry.rules _).trans ?_
  constructor
  · rintro (no | ⟨entry, hentry, same, rule, hrule, found⟩)
    · cases no
    · exact ⟨rule, ⟨entry, hentry, same, hrule⟩, found⟩
  · rintro ⟨rule, ⟨entry, hentry, same, hrule⟩, found⟩
    exact .inr ⟨entry, hentry, same, rule, hrule, found⟩

end RuleRegistry

/-! ## Strata -/

namespace DependencyGraph

variable (graph : DependencyGraph)

def Edge (head dep : String) (negative : Bool) : Prop := (head, dep, negative) ∈ graph.edgeList

/-- The edges with whether the head must be above the dependency. -/
def Demand (head dep : String) (strict : Bool) : Prop :=
  ∃ negative, graph.Edge head dep negative ∧ graph.strict (head, dep, negative) = strict

variable {graph}

theorem reaches_iff (source target : String) :
    graph.reaches source target = true ↔
      Relation.TransGen (Digraph.Linked graph.Edge) source target := by
  have same : Digraph.Step graph.deps = Digraph.Linked graph.Edge := by
    funext p d
    exact propext mem_deps
  rw [reaches, Digraph.search_iff, same]

theorem mem_raised {head dep : String} :
    (head, dep) ∈ graph.raised ↔ graph.Edge head dep false ∧ dep ∈ graph.mixed ∧
      ¬ Relation.TransGen (Digraph.Linked graph.Edge) dep head := by
  rw [← reaches_iff]
  constructor
  · intro h
    obtain ⟨⟨head', dep', negative⟩, he, same⟩ := List.mem_map.mp h
    cases same
    obtain ⟨he, test⟩ := List.mem_filter.mp he
    simp only [Bool.and_eq_true, Bool.not_eq_true', decide_eq_true_eq] at test
    obtain ⟨⟨rfl, mixed⟩, apart⟩ := test
    exact ⟨he, mixed, by simp [apart]⟩
  · rintro ⟨he, mixed, apart⟩
    refine List.mem_map.mpr ⟨(head, dep, false), List.mem_filter.mpr ⟨he, ?_⟩, rfl⟩
    simp [mixed, apart]

/-- An edge that was raised leads off its head's cycle, so only a negative edge can be
both strict and on a cycle. -/
theorem strictCycle_iff : Digraph.StrictCycle graph.Demand ↔ Digraph.StrictCycle graph.Edge := by
  have linked : Digraph.Linked graph.Demand = Digraph.Linked graph.Edge := by
    funext h d
    refine propext ⟨?_, ?_⟩
    · rintro ⟨_, negative, he, -⟩
      exact ⟨negative, he⟩
    · rintro ⟨negative, he⟩
      exact ⟨_, negative, he, rfl⟩
  constructor
  · rintro ⟨h, d, ⟨negative, he, strict⟩, back⟩
    rw [linked] at back
    rw [DependencyGraph.strict, Bool.or_eq_true, decide_eq_true_eq] at strict
    rcases strict with rfl | raised
    · exact ⟨h, d, he, back⟩
    · obtain ⟨-, -, apart⟩ := mem_raised.mp raised
      rcases Relation.reflTransGen_iff_eq_or_transGen.mp back with rfl | back
      · exact absurd (.single ⟨negative, he⟩) apart
      · exact absurd back apart
  · rintro ⟨h, d, he, back⟩
    refine ⟨h, d, ⟨true, he, ?_⟩, linked ▸ back⟩
    rw [DependencyGraph.strict, Bool.true_or]

theorem required_eq (strata : Strata) (e : String × String × Bool) :
    graph.required strata e = strata e.2.1 + (graph.strict e).toNat := by
  rw [required]
  cases graph.strict e <;> rfl

/-- A ranking below the number of predicates keeps the strata under it, and without error. -/
theorem relax_under {r : String → Nat} (ranks : Digraph.Ranks graph.Demand r)
    (low : ∀ p ∈ graph.allPredicates, r p < graph.allPredicates.card)
    {e : String × String × Bool} (he : e ∈ graph.edgeList) {state : Strata × Bool}
    (under : ∀ p, state.1 p ≤ r p) :
    ∃ next, graph.relax state e = .ok next ∧ ∀ p, next.1 p ≤ r p := by
  have demand : graph.required state.1 e ≤ r e.1 := by
    have := ranks e.1 e.2.1 (graph.strict e) ⟨e.2.2, he, rfl⟩
    have := under e.2.1
    rw [required_eq]
    omega
  have bounded : r e.1 < graph.allPredicates.card := by
    refine low _ (List.mem_toFinset.mpr (List.mem_append_left _ (head_mem he)))
  by_cases rise : state.1 e.1 < graph.required state.1 e
  · refine ⟨(Function.update state.1 e.1 (graph.required state.1 e), true), ?_, fun p => ?_⟩
    · rw [relax]
      simp only [if_pos rise, Function.update_self]
      rw [if_neg (by omega)]
    · by_cases same : p = e.1
      · simpa [same] using demand
      · simpa [same] using under p
  · refine ⟨state, ?_, under⟩
    rw [relax]
    have := under e.1
    simp only [if_neg rise]
    rw [if_neg (by omega)]

theorem foldlM_relax_under {r : String → Nat} (ranks : Digraph.Ranks graph.Demand r)
    (low : ∀ p ∈ graph.allPredicates, r p < graph.allPredicates.card)
    {edges : List (String × String × Bool)} (sub : edges ⊆ graph.edgeList) {state : Strata × Bool}
    (under : ∀ p, state.1 p ≤ r p) :
    ∃ next, edges.foldlM graph.relax state = .ok next ∧ ∀ p, next.1 p ≤ r p := by
  induction edges generalizing state with
  | nil => exact ⟨state, rfl, under⟩
  | cons e edges ih =>
      obtain ⟨middle, first, under'⟩ := relax_under ranks low (sub List.mem_cons_self) under
      obtain ⟨next, rest, under''⟩ := ih (fun _ he => sub (List.mem_cons_of_mem _ he)) under'
      refine ⟨next, ?_, under''⟩
      rw [List.foldlM_cons, first]
      exact rest

theorem pass_under {r : String → Nat} (ranks : Digraph.Ranks graph.Demand r)
    (low : ∀ p ∈ graph.allPredicates, r p < graph.allPredicates.card) {strata : Strata}
    (under : ∀ p, strata p ≤ r p) :
    ∃ next, graph.pass strata = .ok next ∧ ∀ p, next.1 p ≤ r p :=
  foldlM_relax_under ranks low (List.Subset.refl _) under

theorem propagate_eq (strata : Strata) :
    graph.propagate strata =
      match graph.pass strata with
      | .error e => .error e
      | .ok (next, false) => .ok next
      | .ok (next, true) => graph.propagate next := by
  rw [propagate]
  split <;> rename_i passed <;> rw [passed]

theorem propagate_ok {r : String → Nat} (ranks : Digraph.Ranks graph.Demand r)
    (low : ∀ p ∈ graph.allPredicates, r p < graph.allPredicates.card) (strata : Strata)
    (under : ∀ p, strata p ≤ r p) : ∃ final, graph.propagate strata = .ok final := by
  induction strata using propagate.induct graph with
  | case1 strata e failed =>
      obtain ⟨next, passed, -⟩ := pass_under ranks low under
      rw [passed] at failed
      cases failed
  | case2 strata next passed =>
      refine ⟨next, ?_⟩
      rw [propagate_eq, passed]
  | case3 strata next passed ih =>
      obtain ⟨state, passed', under'⟩ := pass_under ranks low under
      rw [passed] at passed'
      cases passed'
      rw [propagate_eq, passed]
      exact ih under'

/-- A round that changes nothing found every demand met. -/
theorem foldlM_relax_unchanged {edges : List (String × String × Bool)}
    (sub : edges ⊆ graph.edgeList) {strata next : Strata}
    (h : edges.foldlM graph.relax (strata, false) = .ok (next, false)) :
    next = strata ∧ ∀ e ∈ edges, graph.required strata e ≤ strata e.1 := by
  induction edges with
  | nil =>
      cases h
      exact ⟨rfl, fun _ no => nomatch no⟩
  | cons e edges ih =>
      have sub' : edges ⊆ graph.edgeList := fun _ he => sub (List.mem_cons_of_mem _ he)
      rw [List.foldlM_cons] at h
      cases first : graph.relax (strata, false) e with
      | error _ =>
          rw [first] at h
          cases h
      | ok middle =>
          rw [first] at h
          have same := (foldlM_relax_rises sub' h).unchanged rfl
          rcases relax_eq_ok first with ⟨-, -, rfl⟩ | ⟨met, rfl⟩
          · cases same
          · obtain ⟨rfl, rest⟩ := ih sub' h
            refine ⟨rfl, fun e' he' => ?_⟩
            rcases List.mem_cons.mp he' with rfl | he'
            · exact met
            · exact rest e' he'

theorem propagate_ranks {strata final : Strata} (h : graph.propagate strata = .ok final) :
    Digraph.Ranks graph.Demand final := by
  induction strata using propagate.induct graph with
  | case1 strata e failed =>
      rw [propagate_eq, failed] at h
      cases h
  | case2 strata next passed =>
      rw [propagate_eq, passed] at h
      cases h
      obtain ⟨rfl, met⟩ := foldlM_relax_unchanged (List.Subset.refl _) passed
      rintro head dep _ ⟨negative, he, rfl⟩
      rw [← required_eq final (head, dep, negative)]
      exact met _ he
  | case3 strata next passed ih =>
      rw [propagate_eq, passed] at h
      exact ih h

/-- The loop accepts exactly the graphs without a negative edge on a cycle. -/
theorem stratify_ok_iff :
    (∃ strata, graph.stratify = .ok strata) ↔ ¬ Digraph.StrictCycle graph.Edge := by
  rw [← strictCycle_iff]
  constructor
  · rintro ⟨strata, accepted⟩
    exact (propagate_ranks accepted).acyclic
  · intro acyclic
    have inside : ∀ h d strict, graph.Demand h d strict → d ∈ graph.allPredicates := by
      rintro h d _ ⟨negative, he, -⟩
      exact List.mem_toFinset.mpr (List.mem_append_right _ (List.mem_map.mpr ⟨_, he, rfl⟩))
    obtain ⟨r, ranks, -, low⟩ := Digraph.exists_ranks graph.allPredicates inside acyclic
    exact propagate_ok ranks low _ fun _ => Nat.zero_le _

end DependencyGraph

namespace RuleRegistry

variable (registry : RuleRegistry)

/-- A rule of the head uses the dependency, at whatever depth of its body. -/
def Edge (head dep : String) (negative : Bool) : Prop :=
  ∃ rule, registry.HasRule head rule ∧ ∃ clause ∈ rule.body, clause.Uses dep negative

/-- Every rule is one the parser builds. -/
def Parsed : Prop := ∀ head rule, registry.HasRule head rule → ∀ clause ∈ rule.body, clause.Parsed

variable {registry}

theorem edge_fromRules : (DependencyGraph.fromRules registry).Edge = registry.Collected := by
  funext head dep negative
  exact propext mem_fromRules

theorem Parsed.collected (parsed : registry.Parsed) : registry.Collected = registry.Edge := by
  funext head dep negative
  refine propext (exists_congr fun rule => and_congr_right fun has => ?_)
  rw [mem_collectBodyDeps]
  refine exists_congr fun clause => and_congr_right fun hclause => ?_
  exact (parsed head rule has clause hclause).mem_collectClauseDeps

/-- `stratify` ends with strata exactly if no negative edge lies on a cycle. They put every
head above what it negates, no lower than what it calls, and above a predicate it calls
that has a mixed rule and does not depend back on the head. -/
theorem stratify_exact (parsed : registry.Parsed) :
    ((∃ strata, (DependencyGraph.fromRules registry).stratify = .ok strata) ↔
      ¬ Digraph.StrictCycle registry.Edge) ∧
    ∀ strata, (DependencyGraph.fromRules registry).stratify = .ok strata → ∀ head dep,
      (registry.Edge head dep true → strata dep < strata head) ∧
      (registry.Edge head dep false → strata dep ≤ strata head) ∧
      (registry.Edge head dep false → registry.Mixed dep →
        ¬ Relation.TransGen (Digraph.Linked registry.Edge) dep head →
          strata dep < strata head) := by
  have same : (DependencyGraph.fromRules registry).Edge = registry.Edge :=
    edge_fromRules.trans parsed.collected
  refine ⟨same ▸ DependencyGraph.stratify_ok_iff, fun strata accepted head dep => ?_⟩
  have ranks := DependencyGraph.propagate_ranks accepted
  rw [← same]
  refine ⟨fun he => ?_, fun he => ?_, fun he mixed apart => ?_⟩
  · exact ranks head dep true ⟨true, he, by rw [DependencyGraph.strict, Bool.true_or]⟩
  · exact (Nat.le_add_right _ _).trans (ranks head dep _ ⟨false, he, rfl⟩)
  · have raised := DependencyGraph.mem_raised.mpr ⟨he, mem_mixed_fromRules.mpr mixed, apart⟩
    exact ranks head dep true ⟨false, he, by simp [DependencyGraph.strict, raised]⟩

/-- A rule that negates another predicate. -/
theorem stratify_exact_negation :
    (new.registerRuleUnchecked "p" ⟨[.symbol "p"], [.not [.ruleInvocation "q" []]]⟩).Parsed ∧
    ((∃ strata, (DependencyGraph.fromRules (new.registerRuleUnchecked "p"
        ⟨[.symbol "p"], [.not [.ruleInvocation "q" []]]⟩)).stratify = .ok strata) ↔
      ¬ Digraph.StrictCycle (new.registerRuleUnchecked "p"
        ⟨[.symbol "p"], [.not [.ruleInvocation "q" []]]⟩).Edge) := by
  have parsed : (new.registerRuleUnchecked "p"
      ⟨[.symbol "p"], [.not [.ruleInvocation "q" []]]⟩).Parsed := by
    rintro head rule ⟨entry, hentry, -, hrule⟩ clause hclause
    rw [List.mem_singleton.mp hentry] at hrule
    rw [List.mem_singleton.mp hrule] at hclause
    rw [List.mem_singleton.mp hclause]
    refine .not fun inner hinner => ?_
    rw [List.mem_singleton.mp hinner]
    trivial
  exact ⟨parsed, (stratify_exact parsed).1⟩

/-! ## Registration -/

variable (registry)

/-- No negative edge lies on a cycle. -/
def Stratifiable : Prop := ¬ Digraph.StrictCycle registry.Collected

/-- The edges there would be with one more rule. -/
def CollectedWith (predicate : String) (rule : Rule) (head dep : String) (negative : Bool) : Prop :=
  registry.Collected head dep negative ∨
    head = predicate ∧ (dep, negative) ∈ collectBodyDeps rule.body

variable {registry}

theorem mem_push_rule {predicate : String} {rule : Rule} {entries : List (String × List Rule)}
    {head : String} {r : Rule} :
    (∃ entry ∈ push predicate rule entries, head = entry.1 ∧ r ∈ entry.2) ↔
      (∃ entry ∈ entries, head = entry.1 ∧ r ∈ entry.2) ∨ head = predicate ∧ r = rule := by
  induction entries with
  | nil => simp [push]
  | cons entry rest ih =>
      rw [push]
      split
      · next same =>
          simp only [List.exists_mem_cons_iff, List.mem_append, List.mem_singleton, same]
          rw [and_or_left, or_right_comm]
      · simp only [List.exists_mem_cons_iff, ih, or_assoc]

theorem HasRule_registerRuleUnchecked {predicate : String} {rule : Rule} {head : String} {r : Rule} :
    (registry.registerRuleUnchecked predicate rule).HasRule head r ↔
      registry.HasRule head r ∨ head = predicate ∧ r = rule :=
  mem_push_rule

theorem collected_registerRuleUnchecked (predicate : String) (rule : Rule) :
    (registry.registerRuleUnchecked predicate rule).Collected =
      registry.CollectedWith predicate rule := by
  funext head dep negative
  refine propext ⟨?_, ?_⟩
  · rintro ⟨r, has, found⟩
    rcases HasRule_registerRuleUnchecked.mp has with has | ⟨same, rfl⟩
    · exact .inl ⟨r, has, found⟩
    · exact .inr ⟨same, found⟩
  · rintro (⟨r, has, found⟩ | ⟨same, found⟩)
    · exact ⟨r, HasRule_registerRuleUnchecked.mpr (.inl has), found⟩
    · exact ⟨rule, HasRule_registerRuleUnchecked.mpr (.inr ⟨same, rfl⟩), found⟩

/-- Taking out what was just put in leaves every entry as it was, if none was empty. -/
theorem pop_push {predicate : String} {rule : Rule} {entries : List (String × List Rule)}
    (filled : ∀ entry ∈ entries, entry.2 ≠ []) :
    pop predicate (push predicate rule entries) = entries := by
  induction entries with
  | nil => simp [push, pop]
  | cons entry rest ih =>
      rw [push]
      split
      · next same =>
          have some_ : entry.2 ≠ [] := filled entry List.mem_cons_self
          simp [pop, same, some_]
          exact Prod.ext same.symm rfl
      · next other =>
          rw [pop, if_neg other, ih fun e he => filled e (List.mem_cons_of_mem _ he)]

theorem push_filled {predicate : String} {rule : Rule} {entries : List (String × List Rule)}
    (filled : ∀ entry ∈ entries, entry.2 ≠ []) :
    ∀ entry ∈ push predicate rule entries, entry.2 ≠ [] := by
  induction entries with
  | nil => simp [push]
  | cons first rest ih =>
      intro entry hentry
      rw [push] at hentry
      split at hentry
      · rcases List.mem_cons.mp hentry with rfl | hentry
        · exact List.concat_ne_nil _ _
        · exact filled entry (List.mem_cons_of_mem _ hentry)
      · rcases List.mem_cons.mp hentry with rfl | hentry
        · exact filled _ List.mem_cons_self
        · exact ih (fun e he => filled e (List.mem_cons_of_mem _ he)) entry hentry

theorem hasRule_registerRuleUnchecked (predicate : String) (rule : Rule) :
    (registry.registerRuleUnchecked predicate rule).hasRule predicate = true := by
  have found : ∀ entries : List (String × List Rule),
      ((push predicate rule entries).lookup predicate).isSome = true := by
    intro entries
    induction entries with
    | nil => simp [push]
    | cons entry rest ih =>
        rw [push]
        split
        · next same => simp [same]
        · next other =>
            rw [List.lookup_cons, beq_false_of_ne (Ne.symm other)]
            exact ih
  exact found registry.rules

/-- What a call can do to a registry without empty entries. -/
theorem registerRule_cases (filled : ∀ entry ∈ registry.rules, entry.2 ≠ []) (predicate : String)
    (rule : Rule) :
    (registry.registerRule predicate rule = (registry.registerRuleUnchecked predicate rule, .ok ()) ∧
      ¬ Digraph.StrictCycle (registry.CollectedWith predicate rule)) ∨
    (∃ e, registry.registerRule predicate rule = (registry, .error e)) ∧
      Digraph.StrictCycle (registry.CollectedWith predicate rule) := by
  have exact_ := @DependencyGraph.stratify_ok_iff
    (DependencyGraph.fromRules (registry.registerRuleUnchecked predicate rule))
  rw [edge_fromRules, collected_registerRuleUnchecked] at exact_
  rw [registerRule]
  cases result : (DependencyGraph.fromRules
      (registry.registerRuleUnchecked predicate rule)).stratify with
  | ok strata =>
      rw [result] at exact_
      exact .inl ⟨rfl, exact_.mp ⟨strata, rfl⟩⟩
  | error e =>
      rw [result] at exact_
      refine .inr ⟨⟨e, ?_⟩, ?_⟩
      · have back : pop predicate (registry.registerRuleUnchecked predicate rule).rules =
            registry.rules := pop_push filled
        simp only [hasRule_registerRuleUnchecked, if_true, back]
      · by_contra acyclic
        obtain ⟨strata, no⟩ := exact_.mpr acyclic
        cases no

/-- The registry after a sequence of calls, accepted or refused. -/
def registered (calls : List (String × Rule)) : RuleRegistry :=
  calls.foldl (fun registry call => (registry.registerRule call.1 call.2).1) new

/-- What every call keeps. -/
structure Evaluable (registry : RuleRegistry) : Prop where
  filled : ∀ entry ∈ registry.rules, entry.2 ≠ []
  stratifiable : registry.Stratifiable

theorem Evaluable.registerRule (h : registry.Evaluable) (predicate : String) (rule : Rule) :
    (registry.registerRule predicate rule).1.Evaluable := by
  rcases registerRule_cases h.filled predicate rule with ⟨done, acyclic⟩ | ⟨⟨e, refused⟩, -⟩
  · rw [done]
    refine ⟨push_filled h.filled, ?_⟩
    rw [Stratifiable, collected_registerRuleUnchecked]
    exact acyclic
  · rw [refused]
    exact h

theorem registered_evaluable (calls : List (String × Rule)) : (registered calls).Evaluable := by
  have start : new.Evaluable := by
    refine ⟨(fun _ no => nomatch no), ?_⟩
    rintro ⟨h, d, ⟨rule, ⟨entry, no, -⟩, -⟩, -⟩
    cases no
  exact List.foldlRecOn calls _ start fun _ h call _ => h.registerRule call.1 call.2

/-- Along every sequence of calls the registry stays stratifiable; the next call fails
exactly if its rule would change that, and then leaves the registry as it was. -/
theorem registerRule_atomic (calls : List (String × Rule)) (predicate : String) (rule : Rule) :
    (registered calls).Stratifiable ∧
    ((∃ e, ((registered calls).registerRule predicate rule).2 = .error e) ↔
      Digraph.StrictCycle ((registered calls).CollectedWith predicate rule)) ∧
    (∀ e, ((registered calls).registerRule predicate rule).2 = .error e →
      ((registered calls).registerRule predicate rule).1 = registered calls) := by
  obtain ⟨filled, stratifiable⟩ := registered_evaluable calls
  refine ⟨stratifiable, ?_⟩
  rcases registerRule_cases filled predicate rule with ⟨done, acyclic⟩ | ⟨⟨e, refused⟩, cycle⟩
  · rw [done]
    exact ⟨⟨(fun ⟨_, no⟩ => nomatch no), fun cycle => absurd cycle acyclic⟩, fun _ no => nomatch no⟩
  · rw [refused]
    exact ⟨⟨fun _ => cycle, fun _ => ⟨e, rfl⟩⟩, fun _ _ => rfl⟩

end RuleRegistry

end Minigraf
