import Minigraf.Query.Executor
import Minigraf.Query.Fixpoint
import Minigraf.Query.Substitution
import Minigraf.Storage.ValueEncoding

/-!
The facts a recursive evaluation returns are the least that hold the facts it started from
and are closed under its rules. They depend on what the rules and the facts are, not on the
order in which they come or the times the clock shows.

A rule sees of a fact its entity, attribute and value, unless it reads the times or the
transaction of the fact. A row is known by its variables.
-/

namespace Minigraf

variable {env : Env} {validAt : Option Int64} {rules : List Rule} {b b' c : Bindings}

/-! ## Rows with the same variables -/

def SameVars (b c : Bindings) : Prop := ∀ v, b.lookup (.var v) = c.lookup (.var v)

theorem SameVars.agreeOn (same : SameVars b c) (vs : List Var) : AgreeOn vs b c := fun v _ => same v

theorem SameLookups.sameVars (same : SameLookups b c) : SameVars b c := fun v => same (.var v)

theorem SameVars.trans {d : Bindings} (first : SameVars b c) (second : SameVars c d) : SameVars b d :=
  fun v => (first v).trans (second v)

theorem SameVars.symm (same : SameVars b c) : SameVars c b := fun v => (same v).symm

theorem SameVars.cons (same : SameVars b c) (entry : Key × Value) : SameVars (entry :: b) (entry :: c) := by
  intro v
  rw [List.lookup_cons, List.lookup_cons, same v]

theorem applyExpr_sameVars {expr : Expr} {binding : Option Var} (same : SameVars b c)
    (made : applyExpr env expr binding b = some b') :
    ∃ c', applyExpr env expr binding c = some c' ∧ SameVars b' c' := by
  unfold applyExpr at made ⊢
  rw [evalExpr_congr env (same.agreeOn (exprVars expr))] at made
  cases value : evalExpr env expr c with
  | none =>
      rw [value] at made
      cases made
  | some x =>
      rw [value] at made
      cases binding with
      | none =>
          by_cases truthy : isTruthy x = true
          · simp only [truthy, if_true] at made ⊢
            cases made
            exact ⟨c, rfl, same⟩
          · simp only [truthy, Bool.false_eq_true, if_false] at made
            cases made
      | some out =>
          cases made
          exact ⟨_, rfl, same.cons _⟩

theorem applyExprsToRow_sameVars {clauses : List WhereClause} (same : SameVars b c)
    (made : applyExprsToRow env clauses b = some b') :
    ∃ c', applyExprsToRow env clauses c = some c' ∧ SameVars b' c' := by
  induction clauses generalizing b c with
  | nil =>
      cases made
      exact ⟨c, rfl, same⟩
  | cons clause clauses ih =>
      cases clause with
      | expr expr binding =>
          obtain ⟨b₁, step, rest⟩ := Option.bind_eq_some_iff.mp made
          obtain ⟨c₁, step', same₁⟩ := applyExpr_sameVars same step
          obtain ⟨c', rest', same'⟩ := ih same₁ rest
          exact ⟨c', Option.bind_eq_some_iff.mpr ⟨c₁, step', rest'⟩, same'⟩
      | pattern _ | ruleInvocation _ _ | not _ | notJoin _ _ | or _ | orJoin _ _ => exact ih same made

theorem substituteVariable_sameVars (same : SameVars b c) (edn : EdnValue) :
    substituteVariable edn b = substituteVariable edn c := by
  cases edn with
  | var v => simp only [substituteVariable, same v]
  | keyword _ | underscore | symbol _ | string _ | integer _ | float _ | boolean _ | uuid _ | vector _ | list _
    | map _ | nil | bindSlot _ => rfl

/-- A head makes the same fact of rows with the same variables. -/
theorem instantiateHead_sameVars (same : SameVars b c) (head : List EdnValue) :
    instantiateHead env head b = instantiateHead env head c := by
  match head with
  | [] | [_] => rfl
  | predicate :: entityArg :: rest =>
      have value : headValue rest.head? b = headValue rest.head? c := by
        cases rest.head? with
        | none => rfl
        | some arg => simp only [headValue, substituteVariable_sameVars same]
      simp only [instantiateHead, headEntity, substituteVariable_sameVars same, value]

/-! ## Facts with the same triples -/

namespace PatternMatcher

variable {m m' : PatternMatcher} {p : Pattern} {f g : Fact}

theorem matchComponents_env (env : m.env = m'.env) (cs : List (EdnValue × Value)) (b : Bindings) :
    m.matchComponents cs b = m'.matchComponents cs b := by
  obtain ⟨e, facts, time⟩ := m
  obtain ⟨e', facts', time'⟩ := m'
  cases env
  induction cs generalizing b with
  | nil => rfl
  | cons c cs ih =>
      simp only [matchComponents]
      congr 1
      funext b₁
      exact ih b₁

theorem components_triple (same : g.triple = f.triple) (time : m.validAt = m'.validAt) (plain : ¬ PerFact p) :
    m'.components g p = m.components f p := by
  simp only [Fact.triple, Prod.mk.injEq] at same
  obtain ⟨entity, attr, value⟩ := same
  obtain ⟨pe, pa, pv⟩ := p
  cases pa with
  | real edn => simp only [components, entity, attr, value]
  | pseudo q =>
      cases q with
      | validAt => simp only [components, entity, PseudoAttr.ofFact, validAtValue, time]
      | validFrom | validTo | txCount | txId => exact absurd ⟨_, rfl, by simp⟩ plain

theorem storedValue_plain (plain : ¬ PerFact p) (b : Bindings) : m.storedValue p b = none := by
  obtain ⟨pe, pa, pv⟩ := p
  cases pa with
  | real edn => rfl
  | pseudo q =>
      cases q with
      | validAt => rfl
      | validFrom | validTo | txCount | txId => exact absurd ⟨_, rfl, nofun⟩ plain

/-- What a pattern that reads no times makes of a row by a fact, another matcher makes of it
by a fact with the same triple, up to hidden keys. -/
theorem Joins.transfer (env : m.env = m'.env) (time : m.validAt = m'.validAt) (plain : ¬ PerFact p)
    (same : g.triple = f.triple) (vars : SameVars b c) (h : m.Joins p f b b') :
    ∃ c', m'.Joins p g c c' ∧ SameVars b' c' := by
  obtain ⟨cand, matched, agrees, ext⟩ := h
  rw [matchFactAgainstPattern_eq] at matched
  obtain ⟨base, fits, rfl⟩ := Option.map_eq_some_iff.mp matched
  have fits' : m'.matchFactAgainstPattern g p = some (leftBehind g p ++ base) := by
    rw [matchFactAgainstPattern_eq, components_triple same time plain, ← matchComponents_env env, fits,
      Option.map_some]
  refine ⟨_, ⟨leftBehind g p ++ base, fits', ?_, extends_merge c _⟩, fun v => ?_⟩
  · intro v x y bound found
    rw [lookup_leftBehind_var] at found
    rw [← env]
    exact agrees v x y ((vars v).trans bound) (by rw [lookup_leftBehind_var, found])
  · rw [ext.var, (extends_merge c _).var, vars v, lookup_leftBehind_var, lookup_leftBehind_var]

theorem Steps.transfer (env : m.env = m'.env) (time : m.validAt = m'.validAt) (plain : ¬ PerFact p)
    (covered : ∀ f ∈ m.facts, ∃ g ∈ m'.facts, g.triple = f.triple) (vars : SameVars b c) (h : m.Steps p b b') :
    ∃ c', m'.Steps p c c' ∧ SameVars b' c' := by
  rw [Steps, storedValue_plain plain] at h
  obtain ⟨f, mem, joins⟩ := h
  obtain ⟨g, mem', same⟩ := covered f mem
  obtain ⟨c', joins', vars'⟩ := joins.transfer env time plain same vars
  refine ⟨c', ?_, vars'⟩
  rw [Steps, storedValue_plain plain]
  exact ⟨g, mem', joins'⟩

theorem Chain.transfer (env : m.env = m'.env) (time : m.validAt = m'.validAt) {ps : List Pattern}
    (plain : ∀ p ∈ ps, ¬ PerFact p) (covered : ∀ f ∈ m.facts, ∃ g ∈ m'.facts, g.triple = f.triple)
    (vars : SameVars b c) (h : m.Chain ps b b') : ∃ c', m'.Chain ps c c' ∧ SameVars b' c' := by
  induction ps generalizing b c with
  | nil => exact ⟨c, fun _ => rfl, h.sameVars.symm.trans vars⟩
  | cons p ps ih =>
      obtain ⟨b₁, step, rest⟩ := h
      obtain ⟨c₁, step', vars₁⟩ := step.transfer env time (plain p List.mem_cons_self) covered vars
      obtain ⟨c', rest', vars'⟩ := ih (fun q hq => plain q (List.mem_cons_of_mem p hq)) vars₁ rest
      exact ⟨c', ⟨c₁, step', rest'⟩, vars'⟩

/-- The keywords of facts are among those of facts with the same triples. -/
theorem namesApart_of_covered (env : m.env = m'.env)
    (covered : ∀ f ∈ m.facts, ∃ g ∈ m'.facts, g.triple = f.triple)
    (apart : NamesApart m'.env m'.KeywordOf) : NamesApart m.env m.KeywordOf := by
  have among : ∀ k, m.KeywordOf k → m'.KeywordOf k := by
    rintro k ⟨f, mem, named⟩
    obtain ⟨g, mem', same⟩ := covered f mem
    simp only [Fact.triple, Prod.mk.injEq] at same
    refine ⟨g, mem', ?_⟩
    rw [same.2.1, same.2.2]
    exact named
  intro k l hk hl same
  rw [env] at same
  exact apart k l (among k hk) (among l hl) same

theorem mem_splitRows {split : List Pattern × List WhereClause} (some_ : split.1 ≠ [] ∨ split.2 ≠ []) :
    b ∈ m.splitRows split ↔ ∃ b₀ ∈ m.matchPatterns split.1, applyExprsToRow m.env split.2 b₀ = some b := by
  obtain ⟨patterns, exprs⟩ := split
  have full : (patterns.isEmpty && exprs.isEmpty) = false := by
    rcases some_ with some_ | some_
    · simp [List.isEmpty_eq_false_iff.mpr some_]
    · simp [List.isEmpty_eq_false_iff.mpr some_]
  have start : (if patterns.isEmpty = true then [[]] else m.matchPatterns patterns) = m.matchPatterns patterns := by
    cases patterns with
    | nil => rfl
    | cons p ps => rfl
  simp only [splitRows, full, Bool.false_eq_true, if_false, start, applyExprClausesInEvaluator, List.mem_filterMap]

/-- The rows of a body, from facts to facts with the same triples. -/
theorem splitRows_transfer (env : m.env = m'.env) (time : m.validAt = m'.validAt)
    {split : List Pattern × List WhereClause} (plain : ∀ p ∈ split.1, ¬ PerFact p)
    (covered : ∀ f ∈ m.facts, ∃ g ∈ m'.facts, g.triple = f.triple) (apart : NamesApart m'.env m'.KeywordOf)
    (mem : b ∈ m.splitRows split) : ∃ c ∈ m'.splitRows split, SameVars b c := by
  have some_ : split.1 ≠ [] ∨ split.2 ≠ [] := by
    by_contra none_
    rw [not_or, not_not, not_not] at none_
    simp only [splitRows, none_.1, none_.2, List.isEmpty_nil, Bool.and_self, if_true, List.not_mem_nil] at mem
  obtain ⟨b₀, mem₀, made⟩ := (mem_splitRows some_).mp mem
  have chain := chain_of_mem_matchPatterns (discerned_of_namesApart (namesApart_of_covered env covered apart) _) mem₀
  obtain ⟨c₁, chain', vars₁⟩ := chain.transfer env time plain covered (fun _ => rfl : SameVars [] [])
  obtain ⟨c₀, mem₁, same⟩ := mem_matchPatterns_of_chain (discerned_of_namesApart apart _) chain'
  obtain ⟨c, made', vars⟩ := applyExprsToRow_sameVars (vars₁.trans same.sameVars.symm) made
  rw [env] at made'
  exact ⟨c, (mem_splitRows some_).mpr ⟨c₀, mem₁, made'⟩, vars⟩

end PatternMatcher

/-! ## Rules -/

/-- No rule reads the times or the transaction of a fact. -/
def Timeless (rules : List Rule) : Prop :=
  ∀ rule ∈ rules, ∀ split, splitBody rule.body = .ok split → ∀ p ∈ split.1, ¬ PatternMatcher.PerFact p

/-- The keywords of facts are told apart by the entities they name. -/
def KeywordsApart (env : Env) (facts : List Fact) : Prop :=
  NamesApart env (PatternMatcher.KeywordOf ⟨env, facts, none⟩)

/-- No fact holds a NaN. -/
def NoNaN (facts : List Fact) : Prop := ∀ f ∈ facts, ¬ f.value.IsNaN

theorem Derives.transfer (timeless : Timeless rules) {facts model : List Fact} {f : Fact}
    (covered : ∀ f ∈ facts, ∃ g ∈ model, g.triple = f.triple) (apart : KeywordsApart env model)
    (made : Derives env validAt rules facts f) : Derives env validAt rules model f := by
  obtain ⟨rule, hrule, split, hsplit, b, hb, head, instantiated, triple⟩ := made
  let m : PatternMatcher := ⟨env, facts, validAt⟩
  let m' : PatternMatcher := ⟨env, model, validAt⟩
  have envs : m.env = m'.env := rfl
  have times : m.validAt = m'.validAt := rfl
  obtain ⟨c, hc, vars⟩ :=
    PatternMatcher.splitRows_transfer envs times (timeless rule hrule split hsplit) covered apart hb
  rw [instantiateHead_sameVars vars] at instantiated
  exact ⟨rule, hrule, split, hsplit, c, hc, head, instantiated, triple⟩

theorem triple_of_eavKey {f g : Fact} (number : ¬ f.value.IsNaN) (number' : ¬ g.value.IsNaN)
    (same : f.eavKey = g.eavKey) : f.triple = g.triple := by
  simp only [Fact.eavKey, Prod.mk.injEq] at same
  rw [Fact.triple, Fact.triple, same.1, same.2.1, (encodeValue_inj number number').mp same.2.2]

theorem covered_of_keys {facts model : List Fact} (numbers : NoNaN facts) (numbers' : NoNaN model)
    (keys : facts.map Fact.eavKey ⊆ model.map Fact.eavKey) : ∀ f ∈ facts, ∃ g ∈ model, g.triple = f.triple := by
  intro f hf
  obtain ⟨g, hg, same⟩ := List.mem_map.mp (keys (List.mem_map_of_mem hf))
  exact ⟨g, hg, triple_of_eavKey (numbers' g hg) (numbers f hf) same⟩

theorem not_perFact {p : Pattern} (real : ∃ edn, p.attr = .real edn) : ¬ PatternMatcher.PerFact p := by
  rintro ⟨q, pseudo, -⟩
  obtain ⟨edn, attr⟩ := real
  rw [attr] at pseudo
  cases pseudo

/-! ## The pages that lead to a goal -/

def edge (x y : EntityId) : Fact := Fact.new x ":edge" (.ref y) 0

def goal (x : EntityId) : Fact := Fact.new x ":goal" (.boolean true) 0

def edges : Pattern := ⟨.var (.named "x"), .real (.keyword ":edge"), .var (.named "y")⟩

def goals : Pattern := ⟨.var (.named "y"), .real (.keyword ":goal"), .boolean true⟩

/-- `[(leads ?x) [?x :edge ?y] [?y :goal true]]` -/
def leadsDirect : Rule := ⟨[.symbol "leads", .var (.named "x")], [.pattern edges, .pattern goals]⟩

/-- `[(leads ?x) [?x :edge ?y] (leads ?y)]` -/
def leadsFurther : Rule :=
  ⟨[.symbol "leads", .var (.named "x")], [.pattern edges, .ruleInvocation "leads" [.var (.named "y")]]⟩

def leadsEnv : Env :=
  ⟨fun _ => none, fun s => if s = ":edge" then 1 else if s = ":goal" then 2 else 3, fun _ _ => false, fun _ => none⟩

def leadsEvaluator (facts : List Fact) (maxIterations : Nat) : RecursiveEvaluator where
  env := leadsEnv
  storage := { FactStorage.new with facts := facts }
  rules := (RuleRegistry.new.registerRuleUnchecked "leads" leadsDirect).registerRuleUnchecked "leads" leadsFurther
  maxIterations := maxIterations
  maxDerivedFacts := 100
  maxResults := 100
  validAt := none
  clock n := UInt64.ofNat n

theorem leads_rules (facts : List Fact) (maxIterations : Nat) :
    (leadsEvaluator facts maxIterations).inForce ["leads"] = [leadsDirect, leadsFurther] := rfl

theorem leads_real {rule : Rule} (mem : rule ∈ [leadsDirect, leadsFurther]) :
    ∃ value, splitBody rule.body = .ok ([edges, value], []) ∧ ∃ edn, value.attr = .real edn := by
  rcases List.mem_cons.mp mem with rfl | mem
  · exact ⟨goals, rfl, _, rfl⟩
  · rw [List.mem_singleton.mp mem]
    exact ⟨_, rfl, _, rfl⟩

theorem leads_timeless (facts : List Fact) (maxIterations : Nat) :
    Timeless ((leadsEvaluator facts maxIterations).inForce ["leads"]) := by
  intro rule hrule split hsplit p hp
  obtain ⟨value, parts, real⟩ := leads_real (leads_rules facts maxIterations ▸ hrule)
  rw [parts] at hsplit
  cases hsplit
  rcases List.mem_cons.mp hp with rfl | hp
  · exact not_perFact ⟨_, rfl⟩
  · rw [List.mem_singleton.mp hp]
    exact not_perFact real

/-- Facts of the example: their attributes name entities of their own. -/
structure LeadsFacts (facts : List Fact) : Prop where
  attrs : ∀ f ∈ facts, f.attr ∈ [":edge", ":goal", ":leads"]
  values : ∀ f ∈ facts, (∃ id, f.value = .ref id) ∨ f.value = .boolean true

theorem LeadsFacts.noNaN {facts : List Fact} (h : LeadsFacts facts) : NoNaN facts := by
  intro f hf
  rcases h.values f hf with ⟨id, value⟩ | value
  · rw [value]
    exact not_false
  · rw [value]
    exact not_false

theorem LeadsFacts.apart {facts : List Fact} (h : LeadsFacts facts) : KeywordsApart leadsEnv facts := by
  have among : ∀ k, PatternMatcher.KeywordOf ⟨leadsEnv, facts, none⟩ k → k ∈ [":edge", ":goal", ":leads"] := by
    rintro k ⟨f, hf, rfl | keyword⟩
    · exact h.attrs f hf
    · rcases h.values f hf with ⟨id, value⟩ | value
      · rw [value] at keyword
        cases keyword
      · rw [value] at keyword
        cases keyword
  have ids : ∀ k ∈ [":edge", ":goal", ":leads"], ∀ l ∈ [":edge", ":goal", ":leads"],
      keywordId leadsEnv k = keywordId leadsEnv l → k = l := by decide
  exact fun k l hk hl => ids k (among k hk) l (among l hl)

theorem leads_made {base facts : List Fact} {maxIterations : Nat} {f : Fact}
    (made : (leadsEvaluator base maxIterations).Makes ["leads"] facts f) :
    f.attr = ":leads" ∧ f.value = .boolean true := by
  obtain ⟨rule, hrule, -, -, b, -, h, instantiated, triple⟩ := made
  have head : rule.head = [.symbol "leads", .var (.named "x")] := by
    rcases List.mem_cons.mp (leads_rules base maxIterations ▸ hrule) with rfl | mem
    · rfl
    · rw [List.mem_singleton.mp mem]
      rfl
  rw [head] at instantiated
  cases entity : headEntity leadsEnv (.var (.named "x")) b with
  | error e =>
      simp only [instantiateHead, EdnValue.asSymbol, leadsEvaluator, entity] at instantiated
      cases instantiated
  | ok id =>
      simp only [instantiateHead, EdnValue.asSymbol, leadsEvaluator, entity, List.head?_nil, headValue] at instantiated
      cases instantiated
      simp only [Fact.triple, Fact.new, Prod.mk.injEq] at triple
      exact ⟨triple.2.1, triple.2.2⟩

theorem LeadsFacts.grown {base start facts : List Fact} {maxIterations : Nat} (h : LeadsFacts start)
    (grown : Saturation.Grown Fact.eavKey ((leadsEvaluator base maxIterations).Makes ["leads"]) start facts) :
    LeadsFacts facts := by
  induction grown with
  | base => exact h
  | make _ _ _ made _ ih =>
      obtain ⟨attr, value⟩ := leads_made made
      constructor
      · intro g hg
        rcases List.mem_append.mp hg with hg | hg
        · exact ih.attrs g hg
        · rw [List.mem_singleton.mp hg, attr]
          decide
      · intro g hg
        rcases List.mem_append.mp hg with hg | hg
        · exact ih.values g hg
        · rw [List.mem_singleton.mp hg]
          exact .inr value

theorem leads_start {facts : List Fact} (h : LeadsFacts facts) (maxIterations : Nat) :
    LeadsFacts (leadsEvaluator facts maxIterations).baseFacts := by
  have among : ∀ f ∈ (leadsEvaluator facts maxIterations).baseFacts, f ∈ facts := fun f hf =>
    (List.mem_filter.mp (mem_freshFacts hf).1).1
  exact ⟨fun f hf => h.attrs f (among f hf), fun f hf => h.values f (among f hf)⟩

theorem leads_result {facts : List Fact} (h : LeadsFacts facts) {maxIterations : Nat} {t : FactStorage}
    (run : (leadsEvaluator facts maxIterations).evaluateRecursiveRules ["leads"] = .ok t) : LeadsFacts t.facts := by
  obtain ⟨-, grown, -⟩ := RecursiveEvaluator.evaluateRecursiveRules_ok run
  exact (leads_start h maxIterations).grown grown

def leadsBase : List Fact := [edge 1 2, edge 2 3, goal 3]

theorem leadsBase_facts : LeadsFacts leadsBase :=
  ⟨by decide, by simp [leadsBase, edge, goal, Fact.new]⟩

theorem leadsBase_facts_reverse : LeadsFacts leadsBase.reverse :=
  ⟨by decide, by simp [leadsBase, edge, goal, Fact.new]⟩

theorem leads_run {facts : List Fact} {maxIterations : Nat}
    (some_ : ((leadsEvaluator facts maxIterations).evaluateRecursiveRules ["leads"]).toOption.isSome = true) :
    ∃ t, (leadsEvaluator facts maxIterations).evaluateRecursiveRules ["leads"] = .ok t := by
  cases run : (leadsEvaluator facts maxIterations).evaluateRecursiveRules ["leads"] with
  | error e =>
      rw [run] at some_
      cases some_
  | ok t => exact ⟨t, rfl⟩

theorem leadsBase_run : ∃ t, (leadsEvaluator leadsBase 10).evaluateRecursiveRules ["leads"] = .ok t :=
  leads_run (by decide +kernel)

theorem leadsBase_run_reverse : ∃ t, (leadsEvaluator leadsBase.reverse 5).evaluateRecursiveRules ["leads"] = .ok t :=
  leads_run (by decide +kernel)

namespace RecursiveEvaluator

variable {ev ev' : RecursiveEvaluator} {predicates predicates' : List String} {t t' : FactStorage}

/-- Facts that hold the base and are closed under the rules hold all that grows from it. -/
theorem grown_subset (timeless : Timeless (ev.inForce predicates)) {facts model : List Fact}
    (grown : Saturation.Grown Fact.eavKey (ev.Makes predicates) ev.baseFacts facts) (numbers : NoNaN facts)
    (numbers' : NoNaN model) (apart : KeywordsApart ev.env model)
    (base : ∀ f ∈ ev.storage.assertedFacts, f.eavKey ∈ model.map Fact.eavKey)
    (closed : Saturation.Closed Fact.eavKey (ev.Makes predicates) model) :
    facts.map Fact.eavKey ⊆ model.map Fact.eavKey := by
  apply grown.keys_subset
  · intro k hk
    obtain ⟨f, hf, same⟩ := List.mem_map.mp ((ev.mem_baseFacts_keys k).mp hk)
    exact same ▸ base f hf
  · intro earlier f front keys made
    have few : NoNaN earlier := fun g hg => numbers g (front.subset hg)
    exact closed f (made.transfer timeless (covered_of_keys few numbers' keys) apart)

/-- The result of an evaluation holds the facts it started from, is closed under the rules, and
is held by all facts that are so. -/
theorem evaluateRecursiveRules_least (run : ev.evaluateRecursiveRules predicates = .ok t)
    (timeless : Timeless (ev.inForce predicates)) (numbers : NoNaN t.facts) :
    (∀ f ∈ ev.storage.assertedFacts, f.eavKey ∈ t.facts.map Fact.eavKey) ∧
      Saturation.Closed Fact.eavKey (ev.Makes predicates) t.facts ∧
      ∀ model, NoNaN model → KeywordsApart ev.env model →
        (∀ f ∈ ev.storage.assertedFacts, f.eavKey ∈ model.map Fact.eavKey) →
        Saturation.Closed Fact.eavKey (ev.Makes predicates) model →
        t.facts.map Fact.eavKey ⊆ model.map Fact.eavKey := by
  obtain ⟨-, grown, closed, -⟩ := evaluateRecursiveRules_ok run
  refine ⟨fun f hf => ?_, closed, fun model numbers' apart base closed' =>
    grown_subset timeless grown numbers numbers' apart base closed'⟩
  exact List.map_subset _ grown.prefix_.subset ((ev.mem_baseFacts_keys _).mpr (List.mem_map_of_mem hf))

theorem evaluateRecursiveRules_least_leads :
    ∃ t, (leadsEvaluator leadsBase 10).evaluateRecursiveRules ["leads"] = .ok t ∧
      (∀ f ∈ (leadsEvaluator leadsBase 10).storage.assertedFacts, f.eavKey ∈ t.facts.map Fact.eavKey) ∧
      Saturation.Closed Fact.eavKey ((leadsEvaluator leadsBase 10).Makes ["leads"]) t.facts ∧
      ∀ model, NoNaN model → KeywordsApart leadsEnv model →
        (∀ f ∈ (leadsEvaluator leadsBase 10).storage.assertedFacts, f.eavKey ∈ model.map Fact.eavKey) →
        Saturation.Closed Fact.eavKey ((leadsEvaluator leadsBase 10).Makes ["leads"]) model →
        t.facts.map Fact.eavKey ⊆ model.map Fact.eavKey := by
  obtain ⟨t, run⟩ := leadsBase_run
  exact ⟨t, run, evaluateRecursiveRules_least run (leads_timeless _ _) (leads_result leadsBase_facts run).noNaN⟩

/-- Evaluations of the same rules on the same facts return the same facts, whatever the order
of predicates, rules and facts, the limits and the clock. -/
theorem evaluateRecursiveRules_confluent (run : ev.evaluateRecursiveRules predicates = .ok t)
    (run' : ev'.evaluateRecursiveRules predicates' = .ok t') (env : ev.env = ev'.env)
    (time : ev.validAt = ev'.validAt)
    (rules : ∀ rule, rule ∈ ev.inForce predicates ↔ rule ∈ ev'.inForce predicates')
    (base : ∀ k, k ∈ ev.storage.assertedFacts.map Fact.eavKey ↔ k ∈ ev'.storage.assertedFacts.map Fact.eavKey)
    (timeless : Timeless (ev.inForce predicates)) (numbers : NoNaN t.facts) (numbers' : NoNaN t'.facts)
    (apart : KeywordsApart ev.env t.facts) (apart' : KeywordsApart ev.env t'.facts) (k : EavKey) :
    k ∈ t.facts.map Fact.eavKey ↔ k ∈ t'.facts.map Fact.eavKey := by
  obtain ⟨-, grown, closed, -⟩ := evaluateRecursiveRules_ok run
  obtain ⟨-, grown', closed', -⟩ := evaluateRecursiveRules_ok run'
  have makes : ∀ facts f, ev.Makes predicates facts f ↔ ev'.Makes predicates' facts f := by
    intro facts f
    simp only [Makes, Derives, ← env, ← time, rules]
  have holds : ∀ (ev : RecursiveEvaluator) (facts : List Fact), ev.baseFacts <+: facts →
      ∀ k ∈ ev.storage.assertedFacts.map Fact.eavKey, k ∈ facts.map Fact.eavKey :=
    fun ev facts front k hk => List.map_subset _ front.subset ((ev.mem_baseFacts_keys k).mpr hk)
  constructor
  · apply grown_subset timeless grown numbers numbers' apart'
    · exact fun f hf => holds ev' _ grown'.prefix_ _ ((base _).mp (List.mem_map_of_mem hf))
    · exact fun f made => closed' f ((makes _ f).mp made)
  · have timeless' : Timeless (ev'.inForce predicates') := fun rule hrule => timeless rule ((rules rule).mpr hrule)
    apply grown_subset timeless' grown' numbers' numbers (env ▸ apart)
    · exact fun f hf => holds ev _ grown.prefix_ _ ((base _).mpr (List.mem_map_of_mem hf))
    · exact fun f made => closed f ((makes _ f).mpr made)

theorem evaluateRecursiveRules_confluent_leads :
    ∃ t t', (leadsEvaluator leadsBase 10).evaluateRecursiveRules ["leads"] = .ok t ∧
      (leadsEvaluator leadsBase.reverse 5).evaluateRecursiveRules ["leads"] = .ok t' ∧
      ∀ k, k ∈ t.facts.map Fact.eavKey ↔ k ∈ t'.facts.map Fact.eavKey := by
  obtain ⟨t, run⟩ := leadsBase_run
  obtain ⟨t', run'⟩ := leadsBase_run_reverse
  have facts := leads_result leadsBase_facts run
  have facts' := leads_result leadsBase_facts_reverse run'
  refine ⟨t, t', run, run', fun k => evaluateRecursiveRules_confluent run run' rfl rfl (fun _ => Iff.rfl) ?_
    (leads_timeless _ _) facts.noNaN facts'.noNaN facts.apart facts'.apart k⟩
  intro k
  have reversed : (leadsEvaluator leadsBase.reverse 5).storage.assertedFacts =
      (leadsEvaluator leadsBase 10).storage.assertedFacts.reverse := by decide
  rw [reversed, List.map_reverse, List.mem_reverse]

end RecursiveEvaluator
end Minigraf
