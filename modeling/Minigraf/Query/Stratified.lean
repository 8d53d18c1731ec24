import Minigraf.Lib.BreadthFirst
import Minigraf.Query.Disjunction
import Minigraf.Query.MagicSets
import Minigraf.Query.Recursion

/-!
The stratified evaluator of `src/query/datalog/evaluator.rs`. The predicates asked for and
those they call are evaluated stratum by stratum. In a stratum the rules without negation
and disjunction go to the recursive evaluator, then the other rules add the heads of their
rows; where one of these feeds the stratum again, the two take turns until the second brings
nothing new.

What the evaluation adds goes to one store. Errors of the store as it takes a fact are
dropped, and so are those of a head.
-/

namespace Minigraf

/-! ## Mixed bodies -/

/-- What the planner is given of a clause of a rule: calls are patterns over derived facts. -/
def WhereClause.planClause : WhereClause → Option WhereClause
  | .pattern p => some (.pattern p)
  | .expr e binding => some (.expr e binding)
  | .ruleInvocation predicate args => (ruleInvocationToPattern predicate args).toOption.map .pattern
  | _ => none

def notBodies (body : List WhereClause) : List (List WhereClause) :=
  body.filterMap fun
    | .not inner => some inner
    | _ => none

def notJoinBodies (body : List WhereClause) : List (List Var × List WhereClause) :=
  body.filterMap fun
    | .notJoin joinVars inner => some (joinVars, inner)
    | _ => none

/-- The patterns of a `not` body of a rule under a row. -/
def substituteRuleBody (notBody : List WhereClause) (binding : Bindings) : List Pattern :=
  notBody.filterMap fun
    | .pattern p => some (substitutePattern p binding)
    | .ruleInvocation predicate args =>
        (ruleInvocationToPattern predicate (args.map (substituteValue · binding))).toOption
    | _ => none

/-- `FunctionRegistry::with_builtins`: no predicates are registered in it. -/
def Env.withBuiltins (env : Env) : Env := { env with getPredicate := fun _ => none }

namespace PatternMatcher

variable (m : PatternMatcher) (build : Build)

/-- A `not` body of a rule has a match on the row. -/
def ruleNotMatches (notBody : List WhereClause) (binding : Bindings) : Bool :=
  !(applyExprClausesInEvaluator m.env (m.bodyRows (substituteRuleBody notBody binding) binding)
    (notBody.filter WhereClause.isExpr)).isEmpty

/-- The negations of a rule hold on a row. -/
def ruleKeeps (body : List WhereClause) (binding : Bindings) : Bool :=
  let nots := build.sortBy (fun a b => decide (clauseCost (.not a) ≤ clauseCost (.not b))) (notBodies body)
  let notJoins := build.sortBy
    (fun a b => decide (clauseCost (.notJoin a.1 a.2) ≤ clauseCost (.notJoin b.1 b.2))) (notJoinBodies body)
  nots.all (fun notBody => !m.ruleNotMatches notBody binding) &&
    notJoins.all fun (joinVars, clauses) => !m.evaluateNotJoin joinVars clauses binding

/-- The rows of a mixed body. Negations are no part of its plan, so only expressions are put
off behind the disjunctions. -/
def mixedRows (body : List WhereClause) : Except QueryError (List Bindings) := do
  let (planned, deferred) := plan build (body.filterMap WhereClause.planClause)
  let candidates := m.runClauses [[]] (planned.map Prod.fst)
  let candidates ← ({ m with env := m.env.withBuiltins } : PatternMatcher).applyOrClauses build body candidates
  pure ((applyExprClausesInEvaluator m.env candidates deferred).filter (m.ruleKeeps build body))

end PatternMatcher

/-- The store behind a step that may fail, whose error is dropped. -/
def attempted {α : Type} (x : FactM α) (s : FactStorage) : FactStorage :=
  match x s with
  | .ok _ t => t
  | .error _ t => t

/-! ## The evaluator -/

structure StratifiedEvaluator extends RecursiveEvaluator where
  build : Build

namespace StratifiedEvaluator

/-- The store, and how many facts the rules have derived. -/
structure Progress where
  accumulated : FactStorage
  derivedTotal : Nat

/-- The same in a pass over mixed rules, with the keys that are there and how many are new. -/
structure MixedPass extends Progress where
  known : List EavKey
  newInPass : Nat

variable (ev : StratifiedEvaluator)

/-! ## Positive rules -/

/-- The derived facts that are new go to the store as they are. -/
def loadDerived (existing : List EavKey) : List Fact → Progress → Except EvaluationError Progress
  | [], state => pure state
  | fact :: facts, state =>
      if fact.eavKey ∈ existing then loadDerived existing facts state
      else if state.derivedTotal + 1 > ev.maxResults then throw (resultsExceeded ev.maxResults)
      else
        loadDerived existing facts
          { accumulated := attempted (loadFact fact) state.accumulated, derivedTotal := state.derivedTotal + 1 }

/-- The rules handed to the recursive evaluator. -/
def subRegistry (rules : List (String × Rule)) : RuleRegistry :=
  rules.foldl (fun registry entry => registry.registerRuleUnchecked entry.1 entry.2) .new

/-- The recursive evaluator over the store. -/
def subEvaluator (rules : List (String × Rule)) (accumulated : FactStorage) : RecursiveEvaluator :=
  { ev.toRecursiveEvaluator with storage := accumulated, rules := subRegistry rules }

def evaluatePositive (predicates : List String) (positive : List (String × Rule)) (state : Progress) :
    Except EvaluationError Progress :=
  if positive.isEmpty then pure state
  else do
    let derived ← (ev.subEvaluator positive state.accumulated).evaluateRecursiveRules predicates
    let existing := state.accumulated.assertedFacts.map Fact.eavKey
    let state ← ev.loadDerived existing derived.assertedFacts state
    let accumulated ← stored restoreTxCounter state.accumulated
    pure { state with accumulated }

/-! ## Mixed rules -/

/-- The fact of a row whose negations hold. -/
def deriveHead (head : List EdnValue) (state : MixedPass) (binding : Bindings) : Except EvaluationError MixedPass :=
  match instantiateHead ev.env head binding with
  | .error _ => pure state
  | .ok fact =>
      if fact.eavKey ∈ state.known then pure state
      else if state.newInPass + 1 > ev.maxDerivedFacts then throw (derivedExceeded ev.maxDerivedFacts)
      else if state.derivedTotal + 1 > ev.maxResults then throw (resultsExceeded ev.maxResults)
      else
        pure
          { accumulated := attempted (transact [(fact.entity, fact.attr, fact.value)] none
              (ev.clock state.accumulated.facts.length)) state.accumulated
            derivedTotal := state.derivedTotal + 1
            known := fact.eavKey :: state.known
            newInPass := state.newInPass + 1 }

def evaluateMixedRule (state : MixedPass) (entry : String × Rule) : Except EvaluationError MixedPass := do
  let candidates ← ((ev.matcher state.accumulated.assertedFacts).mixedRows ev.build entry.2.body).mapError .query
  candidates.foldlM (ev.deriveHead entry.2.head) state

def evaluateMixed (mixed : List (String × Rule)) (state : Progress) : Except EvaluationError MixedPass :=
  let known := if mixed.isEmpty then [] else state.accumulated.assertedFacts.map Fact.eavKey
  mixed.foldlM ev.evaluateMixedRule { state with known, newInPass := 0 }

/-! ## A stratum -/

/-- The passes that are left. -/
def passes (predicates : List String) (positive mixed : List (String × Rule)) (again : Bool) :
    Nat → Progress → Except EvaluationError Progress
  | 0, _ => throw (iterationsExceeded ev.maxIterations)
  | left + 1, state => do
      let state ← ev.evaluatePositive predicates positive state
      let done ← ev.evaluateMixed mixed state
      if !again || done.newInPass = 0 then pure done.toProgress
      else passes predicates positive mixed again left done.toProgress

/-- The rules of predicates, with the predicates. -/
def rulesOf (predicates : List String) : List (String × Rule) :=
  predicates.flatMap fun pred => (ev.rules.getRules pred).map fun rule => (pred, rule)

def isMixed (entry : String × Rule) : Bool := hasMixedClause entry.2.body

/-- Some rule calls the predicate of a mixed rule. -/
def feedsBack (rules mixed : List (String × Rule)) : Bool :=
  rules.any fun entry => (bodyInvocations entry.2.body).any fun dep => (mixed.map Prod.fst).contains dep

def evaluateStratum (strata : DependencyGraph.Strata) (needed : List String) (state : Progress) (stratum : Nat) :
    Except EvaluationError Progress :=
  let predicates := needed.filter fun pred => strata pred = stratum
  if predicates.isEmpty then pure state
  else
    let positive := (ev.rulesOf predicates).filter (!isMixed ·)
    let mixed := (ev.rulesOf predicates).filter isMixed
    ev.passes predicates positive mixed (feedsBack (positive ++ mixed) mixed) ev.maxIterations state

/-- The predicates asked for and all that they call. -/
def needed (predicates : List String) : List String :=
  Digraph.breadthFirst ev.rules.calls ev.rules.allCalls ev.rules.calls_subset predicates 0

def evaluate (predicates : List String) : Except EvaluationError FactStorage := do
  let strata ← (DependencyGraph.fromRules ev.rules).stratify.mapError .query
  let needed := ev.needed predicates
  let maxStratum := (needed.map strata).max?.getD 0
  let state ← (List.range (maxStratum + 1)).foldlM (ev.evaluateStratum strata needed) ⟨ev.storage, 0⟩
  pure state.accumulated

end StratifiedEvaluator
end Minigraf
