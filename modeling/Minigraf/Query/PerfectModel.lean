import Minigraf.Query.LeastModel
import Minigraf.Query.Strata

/-!
The facts of a stratified evaluation are the model the strata stand for: each was made by a
rule from facts that came before it and that held already all facts, of those there are in
the end, of the predicates the rule negates; and the rules make nothing more of them.
-/

namespace Minigraf

/-- The rule calls the predicate in a negated body. -/
def Rule.Negates (rule : Rule) (q : String) : Prop := ∃ clause ∈ rule.body, clause.Uses q true

/-- The rules are parsed and registered by the name of their head. Rules that are needed read
the facts of needed predicates by calls, and by their patterns other attributes. -/
structure Layered (registry : RuleRegistry) (needed : List String) : Prop where
  parsed : registry.Parsed
  heads : ∀ p rule, registry.HasRule p rule → rule.head.head?.bind EdnValue.asSymbol = some p
  reads : ∀ p ∈ needed, ∀ rule, registry.HasRule p rule → ∀ clause ∈ rule.body,
    clause.ReadsOnly (fun k => ∀ q ∈ needed, k ≠ ":" ++ q) (fun _ => True)

theorem attr_injective {p q : String} (same : ":" ++ p = ":" ++ q) : p = q :=
  String.append_right_inj ":" |>.mp same

theorem instantiateHead_attr {env : Env} {head : List EdnValue} {b : Bindings} {f : Fact}
    (made : instantiateHead env head b = .ok f) :
    ∃ p, head.head?.bind EdnValue.asSymbol = some p ∧ f.attr = ":" ++ p := by
  cases head with
  | nil => cases made
  | cons predicate rest =>
      cases rest with
      | nil => cases made
      | cons entityArg rest =>
          simp only [instantiateHead] at made
          cases name : predicate.asSymbol with
          | none =>
              rw [name] at made
              cases made
          | some p =>
              refine ⟨p, name, ?_⟩
              rw [name] at made
              cases entity : headEntity env entityArg b with
              | error e =>
                  simp only [entity, bind, Except.bind] at made
                  cases made
              | ok id =>
                  cases value : headValue rest.head? b with
                  | error e =>
                      simp only [entity, value, bind, Except.bind] at made
                      cases made
                  | ok v =>
                      simp only [entity, value, bind, Except.bind] at made
                      cases made
                      rfl

theorem WhereClause.Plain.uses_of_invocation {clause : WhereClause} (plain : clause.Plain) {q : String}
    (called : q ∈ clause.ruleInvocations) : clause.Uses q false := by
  cases clause with
  | ruleInvocation predicate args =>
      rw [ruleInvocations, List.mem_singleton] at called
      exact called ▸ .call predicate args
  | pattern _ | expr _ _ =>
      rw [ruleInvocations] at called
      cases called
  | not _ | notJoin _ _ | or _ | orJoin _ _ => exact plain.elim

/-- What a parsed clause calls, it uses. -/
theorem WhereClause.Parsed.uses_of_invocation {clause : WhereClause} (parsed : clause.Parsed) {q : String}
    (called : q ∈ clause.ruleInvocations) : ∃ negative, clause.Uses q negative := by
  induction parsed with
  | plain plain => exact ⟨false, plain.uses_of_invocation called⟩
  | not plain =>
      rw [ruleInvocations] at called
      obtain ⟨clause, hclause, called⟩ := mem_bodyInvocations.mp called
      exact ⟨true, .not hclause ((plain clause hclause).uses_of_invocation called)⟩
  | notJoin plain =>
      rw [ruleInvocations] at called
      obtain ⟨clause, hclause, called⟩ := mem_bodyInvocations.mp called
      exact ⟨true, .notJoin hclause ((plain clause hclause).uses_of_invocation called)⟩
  | or _ ih =>
      rw [ruleInvocations] at called
      obtain ⟨branch, hbranch, clause, hclause, called⟩ := mem_branchInvocations.mp called
      obtain ⟨negative, uses⟩ := ih branch hbranch clause hclause called
      exact ⟨negative, .or hbranch hclause uses⟩
  | orJoin _ ih =>
      rw [ruleInvocations] at called
      obtain ⟨branch, hbranch, clause, hclause, called⟩ := mem_branchInvocations.mp called
      obtain ⟨negative, uses⟩ := ih branch hbranch clause hclause called
      exact ⟨negative, .orJoin hbranch hclause uses⟩

namespace StratifiedEvaluator

variable {ev : StratifiedEvaluator} {strata : DependencyGraph.Strata} {needed predicates : List String}
  {state state' : Progress} {i : Nat}

theorem mem_rulesOf {entry : String × Rule} :
    entry ∈ ev.rulesOf predicates ↔ entry.1 ∈ predicates ∧ ev.rules.HasRule entry.1 entry.2 := by
  simp only [rulesOf, List.mem_flatMap, List.mem_map, RuleRegistry.mem_getRules]
  constructor
  · rintro ⟨p, hp, rule, hrule, rfl⟩
    exact ⟨hp, hrule⟩
  · rintro ⟨hp, hrule⟩
    exact ⟨entry.1, hp, entry.2, hrule, rfl⟩

/-! ## Strata -/

/-- The strata put a predicate above what its rules negate, and not below what they call. -/
structure Ordered (ev : StratifiedEvaluator) (strata : DependencyGraph.Strata) (needed : List String) : Prop where
  negated : ∀ entry ∈ ev.rulesOf needed, ∀ q, entry.2.Negates q → strata q < strata entry.1
  called : ∀ entry ∈ ev.rulesOf needed, ∀ q ∈ bodyInvocations entry.2.body, strata q ≤ strata entry.1

theorem ordered (parsed : ev.rules.Parsed)
    (accepted : (DependencyGraph.fromRules ev.rules).stratify = .ok strata) : ev.Ordered strata needed := by
  have same : (DependencyGraph.fromRules ev.rules).Edge = ev.rules.Edge :=
    RuleRegistry.edge_fromRules.trans parsed.collected
  have ranks := DependencyGraph.propagate_ranks accepted
  constructor
  · intro entry hentry q negates
    have edge : (DependencyGraph.fromRules ev.rules).Edge entry.1 q true := by
      rw [same]
      exact ⟨entry.2, (mem_rulesOf.mp hentry).2, negates⟩
    exact ranks entry.1 q true ⟨true, edge, by rw [DependencyGraph.strict, Bool.true_or]⟩
  · intro entry hentry q hq
    have has := (mem_rulesOf.mp hentry).2
    obtain ⟨clause, hclause, called⟩ := mem_bodyInvocations.mp hq
    obtain ⟨negative, uses⟩ := (parsed entry.1 entry.2 has clause hclause).uses_of_invocation called
    have edge : (DependencyGraph.fromRules ev.rules).Edge entry.1 q negative := by
      rw [same]
      exact ⟨entry.2, has, clause, hclause, uses⟩
    exact (Nat.le_add_right _ _).trans (ranks entry.1 q _ ⟨negative, edge, rfl⟩)

/-- The predicates of a stratum, and the rules of those below one. -/
def stratumOf (strata : DependencyGraph.Strata) (needed : List String) (i : Nat) : List String :=
  needed.filter fun pred => strata pred = i

def rulesBelow (ev : StratifiedEvaluator) (strata : DependencyGraph.Strata) (needed : List String) (i : Nat) :
    List (String × Rule) :=
  (ev.rulesOf needed).filter fun entry => strata entry.1 < i

theorem mem_stratum {entry : String × Rule} :
    entry ∈ ev.rulesOf (stratumOf strata needed i) ↔ entry ∈ ev.rulesOf needed ∧ strata entry.1 = i := by
  simp only [mem_rulesOf, stratumOf, List.mem_filter, decide_eq_true_eq]
  tauto

theorem mem_rulesBelow {entry : String × Rule} :
    entry ∈ ev.rulesBelow strata needed i ↔ entry ∈ ev.rulesOf needed ∧ strata entry.1 < i := by
  rw [rulesBelow, List.mem_filter, decide_eq_true_eq]

theorem headed (layered : Layered ev.rules needed) : Headed ev (ev.rulesOf needed) := by
  rintro entry hentry facts f ⟨b, -, h, made, same⟩
  obtain ⟨p, name, attr⟩ := instantiateHead_attr made
  rw [layered.heads entry.1 entry.2 (mem_rulesOf.mp hentry).2] at name
  cases name
  simp only [Fact.triple, Prod.mk.injEq] at same
  exact same.2.1.trans attr

/-- A rule does not see facts under the names of needed predicates it does not call. -/
theorem blind (layered : Layered ev.rules needed) {entry : String × Rule} (hentry : entry ∈ ev.rulesOf needed)
    {names : List String} (among : names ⊆ needed) (uncalled : ∀ q ∈ bodyInvocations entry.2.body, q ∉ names)
    (facts : List Fact) {added : List Fact} (under : ∀ g ∈ added, ∃ p ∈ names, g.attr = ":" ++ p) (f : Fact) :
    RuleMakes ev entry.2 (facts ++ added) f ↔ RuleMakes ev entry.2 facts f := by
  have inForce := mem_rulesOf.mp hentry
  have only : ∀ clause ∈ entry.2.body, clause.ReadsOnly (fun k => ∀ q ∈ needed, k ≠ ":" ++ q) (· ∉ names) := by
    intro clause hclause
    apply (layered.reads entry.1 inForce.1 entry.2 inForce.2 clause hclause).restrict
    exact fun q hq => uncalled q (mem_bodyInvocations.mpr ⟨clause, hclause, hq⟩)
  refine ruleMakes_extend only (fun g hg reads => ?_) f
  obtain ⟨p, hp, attr⟩ := under g hg
  rcases reads with other | ⟨q, unnamed, named⟩
  · exact other p (among hp) attr
  · rw [attr_injective (named.symm.trans attr)] at unnamed
    exact unnamed hp

/-! ## One stratum -/

/-- A rule made the fact from facts that hold all facts, of those there are in the end, of the
predicates it negates. -/
def Justified (ev : StratifiedEvaluator) (rules : List (String × Rule)) (final earlier : List Fact) (f : Fact) : Prop :=
  ∃ entry ∈ rules, RuleMakes ev entry.2 earlier f ∧
    ∀ q, entry.2.Negates q → ∀ g ∈ final, g.attr = ":" ++ q → g ∈ earlier

/-- The strata below one are done. -/
structure StrataDone (ev : StratifiedEvaluator) (strata : DependencyGraph.Strata) (needed : List String) (i : Nat)
    (state : Progress) (new : List Fact) : Prop where
  grew : Grew ev.storage new state.accumulated
  grown : Saturation.Grown Fact.eavKey (Justified ev (ev.rulesBelow strata needed i) state.accumulated.assertedFacts)
    ev.storage.assertedFacts state.accumulated.assertedFacts
  closed : Saturation.Closed Fact.eavKey (RulesMake ev (ev.rulesBelow strata needed i)) state.accumulated.assertedFacts
  total : state.derivedTotal = new.length
  few : state.derivedTotal ≤ ev.maxResults

theorem evaluateStratum_full (run : ev.evaluateStratum strata needed state i = .ok state')
    (full : state.accumulated.Full) : state'.accumulated.Full := by
  simp only [evaluateStratum] at run
  by_cases none_ : (needed.filter fun pred => strata pred = i).isEmpty = true
  · rw [if_pos none_] at run
    cases run
    exact full
  · rw [if_neg none_] at run
    exact passes_full run full

theorem mem_partition {rules : List (String × Rule)} {entry : String × Rule} :
    entry ∈ rules.filter (!isMixed ·) ++ rules.filter isMixed ↔ entry ∈ rules := by
  rw [List.mem_append, List.mem_filter, List.mem_filter]
  cases isMixed entry <;> simp

/-- Where no rule calls a predicate of a mixed rule, none sees what these make. -/
theorem blind_of_once (layered : Layered ev.rules needed) {rules mixed : List (String × Rule)}
    (rulesAmong : rules ⊆ ev.rulesOf needed) (mixedAmong : mixed ⊆ ev.rulesOf needed)
    (once : feedsBack rules mixed = false) : Blind ev rules (mixed.map Prod.fst) := by
  intro entry hentry facts added under f
  apply blind layered (rulesAmong hentry) _ _ facts under f
  · intro p hp
    obtain ⟨other, hother, rfl⟩ := List.mem_map.mp hp
    exact (mem_rulesOf.mp (mixedAmong hother)).1
  · intro q hq named
    have back : feedsBack rules mixed = true :=
      List.any_eq_true.mpr ⟨entry, hentry, List.any_eq_true.mpr ⟨q, hq, List.contains_iff_mem.mpr named⟩⟩
    rw [once] at back
    cases back

/-- What an evaluation of a stratum adds, and that its rules make no more. -/
theorem evaluateStratum_stage (run : ev.evaluateStratum strata needed state i = .ok state')
    (layered : Layered ev.rules needed) (ok : state.accumulated.Ok) (distinct : state.accumulated.Distinct)
    (few : state.derivedTotal ≤ ev.maxResults) :
    state'.accumulated.Full ∨ (∃ new, Stage ev (ev.rulesOf (stratumOf strata needed i)) state state' new) ∧
      Saturation.Closed Fact.eavKey (RulesMake ev (ev.rulesOf (stratumOf strata needed i)))
        state'.accumulated.assertedFacts := by
  simp only [evaluateStratum] at run
  by_cases none_ : (needed.filter fun pred => strata pred = i).isEmpty = true
  · rw [if_pos none_] at run
    cases run
    have nothing : stratumOf strata needed i = [] := List.isEmpty_iff.mp none_
    refine .inr ⟨⟨[], .refl _, .base, rfl, few⟩, ?_⟩
    rintro f ⟨entry, hentry, -⟩
    rw [nothing] at hentry
    cases hentry
  · rw [if_neg none_] at run
    have among : ev.rulesOf (stratumOf strata needed i) ⊆ ev.rulesOf needed := fun entry hentry =>
      (mem_stratum.mp hentry).1
    have positive := @List.filter_subset_self _ (!isMixed ·) (ev.rulesOf (stratumOf strata needed i))
    have mixed := @List.filter_subset_self _ isMixed (ev.rulesOf (stratumOf strata needed i))
    have both : ev.rulesOf (stratumOf strata needed i) ⊆ _ := fun entry hentry => mem_partition.mpr hentry
    have done := passes_ok run (fun entry hentry => by simpa [isMixed] using List.of_mem_filter hentry)
      (fun entry hentry => (List.mem_filter.mp hentry).2)
      (fun entry hentry => (mem_rulesOf.mp (positive hentry)).1)
      (fun entry hentry => headed layered entry (among (mixed hentry)))
      (fun once => blind_of_once layered (fun entry hentry => among (mem_partition.mp hentry))
        (fun entry hentry => among (mixed hentry)) once) ok distinct few
    refine done.imp_right fun stage => ⟨?_, fun f made => stage.2 f (RulesMake.mono both made)⟩
    obtain ⟨new, stage⟩ := stage.1
    refine ⟨new, stage.grew, stage.grown.mono fun _ _ _ => RulesMake.mono ?_, stage.total, stage.few⟩
    exact fun entry hentry => mem_partition.mp hentry

/-- The facts a stratum adds are under the names of its predicates. -/
theorem Stage.under {new : List Fact} (stage : Stage ev (ev.rulesOf (stratumOf strata needed i)) state state' new)
    (layered : Layered ev.rules needed) : ∀ g ∈ new, ∃ p ∈ needed, strata p = i ∧ g.attr = ":" ++ p := by
  intro g hg
  obtain ⟨earlier, -, -, entry, hentry, made⟩ := stage.grown.added_made stage.grew.assertedFacts g hg
  obtain ⟨inForce, here⟩ := mem_stratum.mp hentry
  exact ⟨entry.1, (mem_rulesOf.mp inForce).1, here, headed layered entry inForce earlier g made⟩

/-- A stratum after those below it: what they made stays justified, what it makes is so, and
no rule of any of them makes more. -/
theorem StrataDone.next {new later : List Fact} (done : StrataDone ev strata needed i state new)
    (stage : Stage ev (ev.rulesOf (stratumOf strata needed i)) state state' later)
    (closed : Saturation.Closed Fact.eavKey (RulesMake ev (ev.rulesOf (stratumOf strata needed i)))
      state'.accumulated.assertedFacts)
    (layered : Layered ev.rules needed) (order : ev.Ordered strata needed) :
    StrataDone ev strata needed (i + 1) state' (new ++ later) := by
  have facts := stage.grew.assertedFacts
  have under := stage.under layered
  -- the facts there will be of a lower predicate are there
  have settled : ∀ q, strata q < i → ∀ g ∈ state'.accumulated.assertedFacts, g.attr = ":" ++ q →
      g ∈ state.accumulated.assertedFacts := by
    intro q low g hg attr
    rw [facts] at hg
    rcases List.mem_append.mp hg with hg | hg
    · exact hg
    · obtain ⟨p, -, here, attr'⟩ := under g hg
      rw [attr_injective (attr.symm.trans attr'), here] at low
      exact absurd low (Nat.lt_irrefl i)
  refine ⟨done.grew.trans stage.grew, ?_, ?_, by rw [stage.total, done.total, List.length_append], stage.few⟩
  · refine Saturation.Grown.trans (?_ : Saturation.Grown _ _ _ state.accumulated.assertedFacts) ?_
    · apply done.grown.mono
      rintro earlier f - ⟨entry, hentry, made, held⟩
      obtain ⟨inForce, low⟩ := mem_rulesBelow.mp hentry
      refine ⟨entry, mem_rulesBelow.mpr ⟨inForce, Nat.lt_succ_of_lt low⟩, made, fun q negates g hg attr => ?_⟩
      have below := (order.negated entry inForce q negates).trans low
      exact held q negates g (settled q below g hg attr) attr
    · apply stage.grown.mono
      rintro earlier f start ⟨entry, hentry, made⟩
      obtain ⟨inForce, here⟩ := mem_stratum.mp hentry
      refine ⟨entry, mem_rulesBelow.mpr ⟨inForce, by omega⟩, made, fun q negates g hg attr => ?_⟩
      have below := order.negated entry inForce q negates
      exact start.subset (settled q (here ▸ below) g hg attr)
  · rintro f ⟨entry, hentry, made⟩
    obtain ⟨inForce, low⟩ := mem_rulesBelow.mp hentry
    rcases Nat.lt_succ_iff_lt_or_eq.mp low with low | here
    · have names : stratumOf strata needed i ⊆ needed := List.filter_subset_self needed
      have uncalled : ∀ q ∈ bodyInvocations entry.2.body, q ∉ stratumOf strata needed i := by
        intro q hq again
        have same := of_decide_eq_true (List.mem_filter.mp again).2
        have below := order.called entry inForce q hq
        omega
      rw [facts, blind layered inForce names uncalled _ (fun g hg => ?_)] at made
      · rw [facts, List.map_append]
        exact List.mem_append_left _ (done.closed f ⟨entry, mem_rulesBelow.mpr ⟨inForce, low⟩, made⟩)
      · obtain ⟨p, hp, here, attr⟩ := under g hg
        exact ⟨p, List.mem_filter.mpr ⟨hp, decide_eq_true here⟩, attr⟩
    · exact closed f ⟨entry, mem_stratum.mpr ⟨inForce, here⟩, made⟩

/-! ## The run -/

theorem evaluateStrata_ok {n : Nat}
    (run : (List.range n).foldlM (ev.evaluateStratum strata needed) ⟨ev.storage, 0⟩ = .ok state')
    (layered : Layered ev.rules needed) (order : ev.Ordered strata needed) (ok : ev.storage.Ok)
    (distinct : ev.storage.Distinct) :
    state'.accumulated.Full ∨ ∃ new, StrataDone ev strata needed n state' new := by
  induction n generalizing state' with
  | zero =>
      cases run
      refine .inr ⟨[], .refl _, .base, ?_, rfl, Nat.zero_le _⟩
      rintro f ⟨entry, hentry, -⟩
      exact absurd (mem_rulesBelow.mp hentry).2 (Nat.not_lt_zero _)
  | succ n ih =>
      rw [List.range_succ, List.foldlM_append] at run
      cases before : (List.range n).foldlM (ev.evaluateStratum strata needed) ⟨ev.storage, 0⟩ with
      | error e =>
          rw [before] at run
          cases run
      | ok state =>
          rw [before] at run
          simp only [bind, Except.bind, List.foldlM_cons, List.foldlM_nil] at run
          cases last : ev.evaluateStratum strata needed state n with
          | error e =>
              rw [last] at run
              cases run
          | ok final =>
              rw [last] at run
              cases run
              rcases ih before with full | ⟨new, done⟩
              · exact .inl (evaluateStratum_full last full)
              · refine (evaluateStratum_stage last layered (done.grew.ok ok) (done.grew.distinct distinct) done.few).imp_right
                  fun staged => ?_
                obtain ⟨⟨later, stage⟩, closed⟩ := staged
                exact ⟨_, done.next stage closed layered order⟩

theorem le_max?_getD {l : List Nat} {n : Nat} (mem : n ∈ l) : n ≤ l.max?.getD 0 := by
  cases top : l.max? with
  | none =>
      rw [List.max?_eq_none_iff.mp top] at mem
      cases mem
  | some m => exact (List.max?_eq_some_iff.mp top).2 n mem

/-- The facts of an evaluation grew from those of the store, each made by a rule when all facts
of the predicates it negates were there, and the rules of the predicates asked for and of
those these call make nothing more of them. -/
theorem evaluate_perfect {t : FactStorage} (run : ev.evaluate predicates = .ok t)
    (layered : Layered ev.rules (ev.needed predicates)) (ok : ev.storage.Ok) (distinct : ev.storage.Distinct)
    (room : t.facts.length < 2 ^ 32) :
    (predicates ⊆ ev.needed predicates ∧ ∀ p ∈ ev.needed predicates, ev.rules.calls p ⊆ ev.needed predicates) ∧
      (∃ new, t.facts = ev.storage.facts ++ new ∧ new.length ≤ ev.maxResults) ∧
      Saturation.Grown Fact.eavKey (Justified ev (ev.rulesOf (ev.needed predicates)) t.assertedFacts)
        ev.storage.assertedFacts t.assertedFacts ∧
      Saturation.Closed Fact.eavKey (RulesMake ev (ev.rulesOf (ev.needed predicates))) t.assertedFacts := by
  rw [evaluate] at run
  cases accepted : (DependencyGraph.fromRules ev.rules).stratify with
  | error e =>
      rw [accepted] at run
      cases run
  | ok strata =>
      simp only [accepted, Except.mapError, bind, Except.bind] at run
      cases ran : (List.range (((ev.needed predicates).map strata).max?.getD 0 + 1)).foldlM
          (ev.evaluateStratum strata (ev.needed predicates)) ⟨ev.storage, 0⟩ with
      | error e =>
          rw [ran] at run
          cases run
      | ok state =>
          rw [ran] at run
          cases run
          rcases evaluateStrata_ok ran layered (ordered layered.parsed accepted) ok distinct with full | ⟨new, done⟩
          · exact absurd room (Nat.not_lt.mpr full)
          · have all : ∀ entry, entry ∈ ev.rulesBelow strata (ev.needed predicates)
                (((ev.needed predicates).map strata).max?.getD 0 + 1) ↔ entry ∈ ev.rulesOf (ev.needed predicates) := by
              intro entry
              rw [mem_rulesBelow, and_iff_left_iff_imp]
              intro mem
              exact Nat.lt_succ_of_le (le_max?_getD (List.mem_map_of_mem (mem_rulesOf.mp mem).1))
            have search := Digraph.breadthFirst_closed ev.rules.calls_subset predicates
            refine ⟨⟨search.1.subset, search.2⟩, ⟨new, done.grew.facts, done.total ▸ done.few⟩, ?_, ?_⟩
            · apply done.grown.mono
              rintro earlier f - ⟨entry, hentry, made⟩
              exact ⟨entry, (all entry).mp hentry, made⟩
            · exact fun f made => done.closed f (made.mono fun entry => (all entry).mpr)

/-! ## The pages that do not lead to a goal -/

/-- `[(stuck ?x) [?x :edge ?y] (not (leads ?x))]` -/
def stuckRule : Rule :=
  ⟨[.symbol "stuck", .var (.named "x")], [.pattern edges, .not [.ruleInvocation "leads" [.var (.named "x")]]]⟩

def stuckBase : List Fact := [edge 1 2, edge 2 3, goal 3, edge 5 6]

def stuckEvaluator : StratifiedEvaluator where
  toRecursiveEvaluator := { leadsEvaluator [] 10 with
    storage := attempted (loadFacts stuckBase) .new
    rules := (leadsEvaluator [] 10).rules.registerRuleUnchecked "stuck" stuckRule }
  build := .wasm

theorem stuck_rules {p : String} {rule : Rule} :
    stuckEvaluator.rules.HasRule p rule ↔
      (p, rule) ∈ [("leads", leadsDirect), ("leads", leadsFurther), ("stuck", stuckRule)] := by
  have same : stuckEvaluator.rules = subRegistry
      [("leads", leadsDirect), ("leads", leadsFurther), ("stuck", stuckRule)] := rfl
  rw [same, mem_subRegistry]

theorem stuck_parsed : stuckEvaluator.rules.Parsed := by
  intro p rule has clause hclause
  simp only [stuck_rules, List.mem_cons, Prod.mk.injEq, List.not_mem_nil, or_false] at has
  rcases has with ⟨-, rfl⟩ | ⟨-, rfl⟩ | ⟨-, rfl⟩ <;>
    simp only [leadsDirect, leadsFurther, stuckRule, List.mem_cons, List.not_mem_nil, or_false] at hclause <;>
    rcases hclause with rfl | rfl
  · exact .plain trivial
  · exact .plain trivial
  · exact .plain trivial
  · exact .plain trivial
  · exact .plain trivial
  · exact .not fun clause mem => List.mem_singleton.mp mem ▸ trivial

theorem stuck_reads {rule : Rule} (mem : rule ∈ [leadsDirect, leadsFurther, stuckRule]) :
    ∀ clause ∈ rule.body, clause.ReadsOnly (fun k => ∀ q ∈ ["stuck", "leads"], k ≠ ":" ++ q) (fun _ => True) := by
  have edge : WhereClause.ReadsOnly (fun k => ∀ q ∈ ["stuck", "leads"], k ≠ ":" ++ q) (fun _ => True)
      (.pattern edges) := .pattern ⟨":edge", rfl, by decide⟩
  have goal : WhereClause.ReadsOnly (fun k => ∀ q ∈ ["stuck", "leads"], k ≠ ":" ++ q) (fun _ => True)
      (.pattern goals) := .pattern ⟨":goal", rfl, by decide⟩
  intro clause hclause
  simp only [List.mem_cons, List.not_mem_nil, or_false] at mem
  rcases mem with rfl | rfl | rfl <;>
    simp only [leadsDirect, leadsFurther, stuckRule, List.mem_cons, List.not_mem_nil, or_false] at hclause <;>
    rcases hclause with rfl | rfl
  · exact edge
  · exact goal
  · exact edge
  · exact .call trivial
  · exact edge
  · exact .not fun clause mem => List.mem_singleton.mp mem ▸ .call trivial

theorem stuck_layered : Layered stuckEvaluator.rules ["stuck", "leads"] where
  parsed := stuck_parsed
  heads := by
    intro p rule has
    simp only [stuck_rules, List.mem_cons, Prod.mk.injEq, List.not_mem_nil, or_false] at has
    rcases has with ⟨rfl, rfl⟩ | ⟨rfl, rfl⟩ | ⟨rfl, rfl⟩ <;> rfl
  reads := by
    intro p _ rule has
    have mem := List.mem_map_of_mem (f := Prod.snd) (stuck_rules.mp has)
    exact stuck_reads mem

theorem stuck_run : ∃ t, stuckEvaluator.evaluate ["stuck"] = .ok t ∧ t.facts.length = 7 := by
  have count : (stuckEvaluator.evaluate ["stuck"]).toOption.map (fun t => t.facts.length) = some 7 := by decide +kernel
  cases run : stuckEvaluator.evaluate ["stuck"] with
  | error e =>
      rw [run] at count
      cases count
  | ok t =>
      rw [run] at count
      exact ⟨t, rfl, Option.some_inj.mp count⟩

theorem stuck_needed : stuckEvaluator.needed ["stuck"] = ["stuck", "leads"] := by decide +kernel

theorem stuck_ok : stuckEvaluator.storage.Ok := by
  have fresh : FactStorage.new.Ok := ⟨fun k => by simp [FactStorage.new], rfl⟩
  have taken := wp_loadFacts FactStorage.new stuckBase
  show (attempted (loadFacts stuckBase) .new).Ok
  unfold EStateM.Wp at taken
  unfold attempted
  cases ran : loadFacts stuckBase FactStorage.new with
  | ok _ t =>
      rw [ran] at taken
      exact taken.ok fresh
  | error _ t =>
      rw [ran] at taken
      exact absurd taken.2 (by simp [FactStorage.new, stuckBase])

theorem evaluate_perfect_stuck :
    ∃ t, stuckEvaluator.evaluate ["stuck"] = .ok t ∧
      (["stuck"] ⊆ stuckEvaluator.needed ["stuck"] ∧
        ∀ p ∈ stuckEvaluator.needed ["stuck"], stuckEvaluator.rules.calls p ⊆ stuckEvaluator.needed ["stuck"]) ∧
      (∃ new, t.facts = stuckEvaluator.storage.facts ++ new ∧ new.length ≤ 100) ∧
      Saturation.Grown Fact.eavKey
        (Justified stuckEvaluator (stuckEvaluator.rulesOf (stuckEvaluator.needed ["stuck"])) t.assertedFacts)
        stuckEvaluator.storage.assertedFacts t.assertedFacts ∧
      Saturation.Closed Fact.eavKey
        (RulesMake stuckEvaluator (stuckEvaluator.rulesOf (stuckEvaluator.needed ["stuck"]))) t.assertedFacts := by
  obtain ⟨t, run, length⟩ := stuck_run
  refine ⟨t, run, evaluate_perfect run (stuck_needed.symm ▸ stuck_layered) stuck_ok ?_ (by rw [length]; decide)⟩
  rw [FactStorage.Distinct]
  decide +kernel

end StratifiedEvaluator
end Minigraf
