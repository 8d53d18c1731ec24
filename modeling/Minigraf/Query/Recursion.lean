import Minigraf.Graph.FactStorage
import Minigraf.Graph.Visible
import Minigraf.Lib.Saturation
import Minigraf.Query.Matcher
import Minigraf.Query.Negation
import Minigraf.Query.Rules

/-!
The recursive evaluator of `src/query/datalog/evaluator.rs`: rules without negation and
disjunction are applied to all facts, round after round, until a round brings nothing new.

The stores of an evaluation are stores in memory, so what they hold is their facts. The
clock is read once for each derived fact; its readings are numbered by the facts stored
before them.
-/

namespace Minigraf

/-! ## Errors -/

/-- Why a head makes no fact of a row. -/
inductive HeadError where
  | short
  | unnamed
  | unbound (v : Var)
  | entity (edn : EdnValue)
  | value (edn : EdnValue)

inductive EvaluationError where
  | int020 (message : String)
  | int021 (message : String)
  | int022 (reason : HeadError)
  | query (e : QueryError)
  | storage (e : ErrorCode)

/-! ## Limits -/

def iterationsExceeded (limit : Nat) : EvaluationError :=
  .int020 s!"Max iterations ({limit}) exceeded. Possible infinite recursion or cycle in rules."

def derivedExceeded (limit : Nat) : EvaluationError :=
  .int020 s!"Max derived facts per iteration ({limit}) exceeded. Rule may be generating too many facts."

def resultsExceeded (limit : Nat) : EvaluationError :=
  .int020 s!"Max query results ({limit}) exceeded."

/-! ## Stores -/

/-- `Fact::new`. -/
def Fact.new (entity : EntityId) (attr : Attribute) (value : Value) (txId : TxId) : Fact where
  entity := entity
  attr := attr
  value := value
  txId := txId
  txCount := 0
  validFrom := txTime txId
  validTo := VALID_TIME_FOREVER
  asserted := true

/-- `get_asserted_facts`. -/
def FactStorage.assertedFacts (s : FactStorage) : List Fact := s.facts.filter Fact.asserted

/-- The store behind a step, or the error of the step. -/
def stored {α : Type} (x : FactM α) (s : FactStorage) : Except EvaluationError FactStorage :=
  match x s with
  | .ok _ t => .ok t
  | .error e _ => .error (.storage e)

/-! ## Heads -/

/-- `substitute_variable`. -/
def substituteVariable (edn : EdnValue) (binding : Bindings) : Except EvaluationError EdnValue :=
  match edn with
  | .var v =>
      match binding.lookup (.var v) with
      | some value => pure (Evaluator.valueToEdn value)
      | none => throw (.int022 (.unbound v))
  | _ => pure edn

/-- The entity a head argument stands for on a row. -/
def headEntity (env : Env) (arg : EdnValue) (binding : Bindings) : Except EvaluationError EntityId := do
  let edn ← substituteVariable arg binding
  match ednToEntityId env edn with
  | some entity => pure entity
  | none => throw (.int022 (.entity edn))

/-- The value a head stands for on a row: its second argument, or `true`. -/
def headValue (arg : Option EdnValue) (binding : Bindings) : Except EvaluationError Value :=
  match arg with
  | none => pure (.boolean true)
  | some arg => do
      let edn ← substituteVariable arg binding
      match ednToValue edn with
      | some value => pure value
      | none => throw (.int022 (.value edn))

def instantiateHead (env : Env) (head : List EdnValue) (binding : Bindings) : Except EvaluationError Fact :=
  match head with
  | [] | [_] => throw (.int022 .short)
  | predicate :: entityArg :: rest =>
      match predicate.asSymbol with
      | none => throw (.int022 .unnamed)
      | some predicate => do
          let entity ← headEntity env entityArg binding
          let value ← headValue rest.head? binding
          pure (Fact.new entity (":" ++ predicate) value 0)

/-! ## One rule -/

/-- The patterns of a body, calls among them, and its expressions. -/
def splitBody : List WhereClause → Except EvaluationError (List Pattern × List WhereClause)
  | [] => pure ([], [])
  | .pattern p :: body => do
      let (patterns, exprClauses) ← splitBody body
      pure (p :: patterns, exprClauses)
  | .ruleInvocation predicate args :: body => do
      let p ← (ruleInvocationToPattern predicate args).mapError .query
      let (patterns, exprClauses) ← splitBody body
      pure (p :: patterns, exprClauses)
  | .expr expr binding :: body => do
      let (patterns, exprClauses) ← splitBody body
      pure (patterns, .expr expr binding :: exprClauses)
  | .not _ :: _ =>
      throw (.int021 "WhereClause::Not in evaluate_rule: use StratifiedEvaluator for rules with negation")
  | .notJoin _ _ :: _ =>
      throw (.int021 "WhereClause::NotJoin in evaluate_rule: use StratifiedEvaluator for rules with negation")
  | .or _ :: _ | .orJoin _ _ :: _ =>
      throw (.int021 "WhereClause::Or/OrJoin in evaluate_rule: not yet implemented")

/-- The rows of a split body over facts. -/
def PatternMatcher.splitRows (m : PatternMatcher) (split : List Pattern × List WhereClause) : List Bindings :=
  if split.1.isEmpty && split.2.isEmpty then []
  else
    let bindings := if split.1.isEmpty then [[]] else m.matchPatterns split.1
    applyExprClausesInEvaluator m.env bindings split.2

structure RecursiveEvaluator where
  env : Env
  storage : FactStorage
  rules : RuleRegistry
  maxIterations : Nat
  maxDerivedFacts : Nat
  maxResults : Nat
  validAt : Option Int64
  clock : Nat → TxId

namespace RecursiveEvaluator

variable (ev : RecursiveEvaluator)

/-- The matcher of an iteration. -/
def matcher (facts : List Fact) : PatternMatcher := ⟨ev.env, facts, ev.validAt⟩

def evaluateRule (rule : Rule) (currentFacts : FactStorage) : Except EvaluationError (List Fact) := do
  let split ← splitBody rule.body
  ((ev.matcher currentFacts.assertedFacts).splitRows split).mapM (instantiateHead ev.env rule.head)

def evaluateIteration (predicates : List String) (currentFacts : FactStorage) :
    Except EvaluationError (List Fact) := do
  let derived ← (predicates.flatMap ev.rules.getRules).mapM (ev.evaluateRule · currentFacts)
  pure derived.flatten

/-! ## The loop -/

instance : LawfulBEq EavKey := inferInstance

/-- The facts whose keys were not seen, each once, as far as the results are not too many. -/
def delta (baseCount : Nat) : List EavKey → List Fact → Except EvaluationError (List EavKey × List Fact)
  | seen, [] => pure (seen, [])
  | seen, fact :: facts =>
      if fact.eavKey ∈ seen then delta baseCount seen facts
      else if seen.length - baseCount ≥ ev.maxResults then throw (resultsExceeded ev.maxResults)
      else do
        let (seen, later) ← delta baseCount (fact.eavKey :: seen) facts
        pure (seen, fact :: later)

def addDelta : List Fact → FactStorage → Except EvaluationError FactStorage
  | [], derived => pure derived
  | fact :: later, derived => do
      let derived ← stored (transact [(fact.entity, fact.attr, fact.value)] none
        (ev.clock derived.facts.length)) derived
      addDelta later derived

/-- The iterations that are left. -/
def iterate (predicates : List String) (baseCount : Nat) :
    Nat → List EavKey → FactStorage → Except EvaluationError FactStorage
  | 0, _, _ => throw (iterationsExceeded ev.maxIterations)
  | left + 1, seen, derived => do
      let newFacts ← ev.evaluateIteration predicates derived
      if newFacts.length > ev.maxDerivedFacts then throw (derivedExceeded ev.maxDerivedFacts)
      let (seen, delta) ← ev.delta baseCount seen newFacts
      if delta.isEmpty then pure derived
      else do
        let derived ← ev.addDelta delta derived
        iterate predicates baseCount left seen derived

def evaluateRecursiveRules (predicates : List String) : Except EvaluationError FactStorage := do
  let baseFacts := ev.storage.assertedFacts
  let derived ← stored (loadFacts baseFacts) .new
  let derived ← stored restoreTxCounter derived
  let seenFacts := (baseFacts.map Fact.eavKey).dedup
  ev.iterate predicates seenFacts.length ev.maxIterations seenFacts derived

end RecursiveEvaluator
end Minigraf
