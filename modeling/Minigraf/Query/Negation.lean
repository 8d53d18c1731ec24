import Minigraf.Query.Matcher

/-!
Negation: the `not` and `not-join` filters of `src/query/datalog/executor.rs`, one pair
for queries without rules and one for queries over derived facts, and the functions of
`src/query/datalog/evaluator.rs` they share.
-/

namespace Minigraf

/-- `value_to_edn` of the evaluator. -/
def Evaluator.valueToEdn : Value → EdnValue
  | .string s => .string s
  | .integer i => .integer i
  | .float f => .float f
  | .boolean b => .boolean b
  | .ref id => .uuid id
  | .keyword k => .keyword k
  | .null => .symbol "nil"

def substituteValue (value : EdnValue) (binding : Bindings) : EdnValue :=
  substituteWith Evaluator.valueToEdn binding value

def substitutePattern (p : Pattern) (binding : Bindings) : Pattern :=
  substitutePatternWith Evaluator.valueToEdn binding p

def ruleInvocationToPattern (predicate : String) (args : List EdnValue) : Except QueryError Pattern :=
  match args with
  | [entity] => pure ⟨entity, .real (.keyword (":" ++ predicate)), .var (.anon "rule_value")⟩
  | [entity, value] => pure ⟨entity, .real (.keyword (":" ++ predicate)), value⟩
  | args => throw (.int028 predicate args.length)

def WhereClause.isExpr : WhereClause → Bool
  | .expr _ _ => true
  | _ => false

def WhereClause.pattern? : WhereClause → Option Pattern
  | .pattern p => some p
  | _ => none

/-- The patterns of a body, as they stand. -/
def bodyPatterns (body : List WhereClause) : List Pattern := body.filterMap WhereClause.pattern?

def Bindings.visible (b : Bindings) : Bindings := b.filter fun (key, _) => !key.isHidden

/-- Equal as maps: the sorted entries of the two are equal one by one. -/
def Bindings.sameEntries (a b : Bindings) : Bool :=
  (a.map Prod.fst ++ b.map Prod.fst).all fun key =>
    match a.lookup key, b.lookup key with
    | some x, some y => x.eq y
    | none, none => true
    | _, _ => false

/-- The entries of a row at some keys, normalized. -/
def Bindings.keyAt (env : Env) (b : Bindings) (keys : List Key) : Bindings :=
  keys.filterMap fun key => (b.lookup key).map fun value => (key, normalizeValue env value)

/-- The bindings of the join variables on a row. -/
def partialBinding (joinVars : List Var) (binding : Bindings) : Bindings :=
  joinVars.filterMap fun v => (binding.lookup (.var v)).map fun value => (.var v, value)

/-- The patterns of a body under a row. -/
def substituteBody (notBody : List WhereClause) (outer : Bindings) : List Pattern :=
  notBody.filterMap fun
    | .pattern p => some (substitutePattern p outer)
    | _ => none

/-- The same of a `not-join` body, under its join variables. -/
def substituteJoinBody (clauses : List WhereClause) (part : Bindings) : List Pattern :=
  clauses.filterMap fun
    | .pattern p => some (substitutePattern p part)
    | .ruleInvocation predicate args =>
        (ruleInvocationToPattern predicate args).toOption.map (substitutePattern · part)
    | _ => none

namespace PatternMatcher

variable (m : PatternMatcher)

/-- The matches of a substituted body under a row, or the row itself for a body of
expressions. -/
def bodyRows (patterns : List Pattern) (outer : Bindings) : List Bindings :=
  if patterns.isEmpty then [outer] else (m.matchPatterns patterns).map (· ++ outer)

/-- The expressions of a body on its rows; an unknown predicate is no match. -/
def survives (rows : List Bindings) (body : List WhereClause) : Bool :=
  match applyExprClauses m.env rows body with
  | .ok rows => !rows.isEmpty
  | .error _ => false

/-! ## Queries without rules -/

def notBodyMatches (notBody : List WhereClause) (outer : Bindings) : Bool :=
  m.survives (m.bodyRows (substituteBody notBody outer) outer) notBody

/-- The visible bindings that match the patterns of a body, normalized. -/
def exclusionSet (patterns : List Pattern) : List Bindings :=
  (m.matchPatterns patterns).map fun b =>
    b.visible.map fun (key, value) => (key, normalizeValue m.env value)

/-- One probe of the exclusion set: its rows all have the keys of the first. A row that
lacks one of them is left to the slow path. -/
def notKeeps (notBody : List WhereClause) (exclusions : List Bindings) (binding : Bindings) : Bool :=
  match exclusions.head? with
  | some sample =>
      let keys := sample.map Prod.fst
      let key := Bindings.keyAt m.env binding keys
      if !notBody.any WhereClause.isExpr && decide (key.length = sample.length) then
        !exclusions.any (Bindings.sameEntries · key)
      else !m.notBodyMatches notBody binding
  | none => !m.notBodyMatches notBody binding

def applyNotClause (bindings : List Bindings) (notBody : List WhereClause) : List Bindings :=
  let patterns := bodyPatterns notBody
  if patterns.isEmpty then bindings.filter fun b => !m.notBodyMatches notBody b
  else
    let exclusions := m.exclusionSet patterns
    if exclusions.isEmpty && !notBody.any WhereClause.isExpr then bindings
    else bindings.filter (m.notKeeps notBody exclusions)

def evaluateNotJoin (joinVars : List Var) (clauses : List WhereClause) (binding : Bindings) : Bool :=
  let part := partialBinding joinVars binding
  !(applyExprClausesInEvaluator m.env (m.bodyRows (substituteJoinBody clauses part) part)
    (clauses.filter WhereClause.isExpr)).isEmpty

/-- The join variables that key the exclusion set: those every row of the body binds. -/
def keyVars (joinVars : List Var) (bodyBindings : List Bindings) : List Var :=
  if bodyBindings.isEmpty then joinVars
  else joinVars.filter fun v => bodyBindings.all fun b => (b.lookup (.var v)).isSome

def notJoinKeeps (joinVars : List Var) (clauses : List WhereClause) (keys : List Var)
    (exclusions : List Bindings) (binding : Bindings) : Bool :=
  if !clauses.any WhereClause.isExpr && keys.isEmpty then exclusions.isEmpty
  else
    let key := Bindings.keyAt m.env binding (keys.map .var)
    if !clauses.any WhereClause.isExpr && decide (key.length = keys.length) then
      !exclusions.any (Bindings.sameEntries · key)
    else !m.evaluateNotJoin joinVars clauses binding

def applyNotJoinClause (bindings : List Bindings) (joinVars : List Var) (clauses : List WhereClause) :
    List Bindings :=
  let patterns := bodyPatterns clauses
  if patterns.isEmpty then bindings.filter fun b => !m.evaluateNotJoin joinVars clauses b
  else
    let bodyBindings := m.matchPatterns patterns
    let keys := keyVars joinVars bodyBindings
    let exclusions := bodyBindings.map fun b => Bindings.keyAt m.env b (keys.map .var)
    bindings.filter (m.notJoinKeeps joinVars clauses keys exclusions)

/-! ## Queries over derived facts -/

end PatternMatcher
end Minigraf
