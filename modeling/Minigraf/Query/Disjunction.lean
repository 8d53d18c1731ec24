import Minigraf.Query.Executor
import Minigraf.Query.Exclusion

/-!
Disjunction: `apply_or_clauses` and `evaluate_branch` of `src/query/datalog/executor.rs`,
and the query without rules they are part of.

A branch is evaluated under the time of its query. A set of keys is the list of the rows
that brought them, of which the first with a key is kept.
-/

namespace Minigraf

/-! ## Rows as sets -/

/-- Rows with a key that no row before them has. -/
def addDistinct (key : Bindings → Bindings) (kept rows : List Bindings) : List Bindings :=
  rows.foldl (fun kept b => if kept.any fun c => Bindings.sameEntries (key c) (key b) then kept else kept ++ [b])
    kept

/-- The visible variables some row binds. -/
def visibleVars (rows : List Bindings) : List Key := rows.flatMap fun b => b.visible.map Prod.fst

/-- A row under its own keys and, where it has none, another's. -/
def mergeRows (incoming branch : Bindings) : Bindings := incoming ++ branch

/-- Each row with the rows of a branch that have its key. -/
def joinOn (env : Env) (keys : List Key) (bindings branchRows : List Bindings) : List Bindings :=
  addDistinct id [] (bindings.flatMap fun incoming =>
    (branchRows.filter fun b =>
      Bindings.sameEntries (Bindings.keyAt env b keys) (Bindings.keyAt env incoming keys)).map (mergeRows incoming))

/-! ## Reads of the outer row -/

/-- The variables the clauses of a branch bind themselves. -/
def branchBound (branch : List WhereClause) : List Var :=
  branch.flatMap fun
    | .pattern p => patternBoundVars p
    | .ruleInvocation _ args => args.filterMap EdnValue.asVariable
    | .expr _ binding => binding.toList
    | _ => []

mutual

def WhereClause.reads : WhereClause → List Var
  | .expr e _ => exprVars e
  | .or branches => branchesOuterReads branches
  | .orJoin _ branches => branchesOuterReads branches
  | _ => []

def clauseReads : List WhereClause → List Var
  | [] => []
  | clause :: clauses => clause.reads ++ clauseReads clauses

def branchesOuterReads : List (List WhereClause) → List Var
  | [] => []
  | branch :: branches =>
      (clauseReads branch).filter (fun v => !(branchBound branch).contains v) ++ branchesOuterReads branches

end

def branchOuterReads (branch : List WhereClause) : List Var :=
  (clauseReads branch).filter fun v => !(branchBound branch).contains v

/-! ## Branches -/

/-- A branch and what it makes of rows. -/
abbrev Branch := List WhereClause × (List Bindings → Except QueryError (List Bindings))

def sortedBranches (build : Build) (branches : List Branch) : List Branch :=
  build.sortBy (fun a b => decide (branchCost a.1 ≤ branchCost b.1)) branches

def branchPatterns (branch : List WhereClause) : List Pattern :=
  branch.filterMap fun
    | .pattern p => some p
    | .ruleInvocation predicate args => (ruleInvocationToPattern predicate args).toOption
    | _ => none

namespace PatternMatcher

variable (m : PatternMatcher) (build : Build)

/-- The negations of a branch on a row. -/
def branchKeeps (branch : List WhereClause) (binding : Bindings) : Bool :=
  branch.all fun
    | .not body => !m.notBodyMatches body binding
    | .notJoin joinVars clauses => !m.evaluateNotJoin joinVars clauses binding
    | _ => true

/-- `evaluate_branch`, with `apply_or_clauses` of its nested disjunctions given. -/
def evaluateBranchWith (nested : List Bindings → Except QueryError (List Bindings))
    (branch : List WhereClause) (incoming : List Bindings) : Except QueryError (List Bindings) := do
  if incoming.isEmpty then return []
  let patterns := branchPatterns branch
  let rows := if patterns.isEmpty then incoming else m.matchPatternsSeeded patterns incoming
  if rows.isEmpty then return []
  let rows ← nested rows
  if rows.isEmpty then return []
  applyExprClauses m.env (rows.filter (m.branchKeeps branch)) branch

/-! ## `or` -/

/-- The rows of each branch on all rows, without those seen before. -/
def seededUnion (bindings : List Bindings) : List Branch → List Bindings → Except QueryError (List Bindings)
  | [], result => pure result
  | branch :: branches, result => do
      let rows ← branch.2 bindings
      seededUnion bindings branches (addDistinct Bindings.visible result rows)

/-- The short circuit of an `or` that binds nothing new: every row has a match already. -/
def covered (bindings union : List Bindings) : Bool :=
  let branchVars := visibleVars union
  !branchVars.isEmpty && branchVars.all (visibleVars bindings).contains &&
    bindings.all fun incoming => union.any fun b =>
      Bindings.sameEntries (Bindings.keyAt m.env b branchVars) (Bindings.keyAt m.env incoming branchVars)

/-- The rows of the branches on their own, as far as they are evaluated. -/
def unionBranches (bindings : List Bindings) :
    List Branch → List Bindings → Except QueryError (List Bindings)
  | [], union => pure union
  | branch :: branches, union => do
      let rows ← branch.2 [[]]
      let union := addDistinct Bindings.visible union rows
      if build = .native && m.covered bindings union then pure union
      else unionBranches bindings branches union

/-- A branch that has to see the outer row. -/
def needsSeed (branch : Branch) : Bool :=
  branch.1.any WhereClause.isNegation || !(branchOuterReads branch.1).isEmpty

def applyOr (branches : List Branch) (bindings : List Bindings) : Except QueryError (List Bindings) := do
  let branches := sortedBranches build branches
  if branches.any needsSeed then seededUnion bindings branches []
  else
    let union ← m.unionBranches build bindings branches []
    let shared := (visibleVars bindings).dedup.filter (visibleVars union).contains
    pure (joinOn m.env shared bindings union)

/-! ## `or-join` -/

/-- Whether some branch has a row from the seed. -/
def anyBranch (seed : Bindings) : List Branch → Except QueryError Bool
  | [] => pure false
  | branch :: branches => do
      let rows ← branch.2 [seed]
      if rows.isEmpty then anyBranch seed branches else pure true

/-- The rows for which some branch has a row from their join variables. -/
def seededOrJoin (joinVars : List Var) (branches : List Branch) :
    List Bindings → List Bindings → Except QueryError (List Bindings)
  | [], result => pure result
  | incoming :: rest, result => do
      let found ← anyBranch (partialBinding joinVars incoming) branches
      seededOrJoin joinVars branches rest (if found then addDistinct id result [incoming] else result)

/-- A row of a branch that binds the join variables, under the keys of the outer rows. -/
def projectRow (joinVars : List Var) (outerKeys : List Key) (b : Bindings) : Option Bindings :=
  if joinVars.all fun v => (b.lookup (.var v)).isSome then
    some (b.filter fun (key, _) => outerKeys.contains key)
  else none

def unionOrJoin (joinVars : List Var) (bindings : List Bindings) :
    List Branch → List Bindings → Except QueryError (List Bindings)
  | [], union => pure union
  | branch :: branches, union => do
      let rows ← branch.2 [[]]
      let outerKeys := bindings.flatMap fun b => b.map Prod.fst
      let union := addDistinct id union (rows.filterMap (projectRow joinVars outerKeys))
      let keys := joinVars.map Key.var
      let complete := bindings.all fun incoming => union.any fun b =>
        Bindings.sameEntries (Bindings.keyAt m.env b keys) (Bindings.keyAt m.env incoming keys)
      if build = .native && complete then pure union else unionOrJoin joinVars bindings branches union

def applyOrJoin (joinVars : List Var) (branches : List Branch) (bindings : List Bindings) :
    Except QueryError (List Bindings) := do
  if bindings.isEmpty then return bindings
  let branches := sortedBranches build branches
  match joinVars.find? fun v => !bindings.any fun b => (b.lookup (.var v)).isSome with
  | some v => throw (.int031 v)
  | none =>
      if branches.any fun branch => !(branchOuterReads branch.1).isEmpty then
        seededOrJoin joinVars branches bindings []
      else
        let union ← m.unionOrJoin build joinVars bindings branches []
        pure (joinOn m.env (joinVars.map Key.var) bindings union)

/-! ## Clauses -/

mutual

def applyOrClause : WhereClause → List Bindings → Except QueryError (List Bindings)
  | .or branches, bindings => m.applyOr build (branchesOf branches) bindings
  | .orJoin joinVars branches, bindings => m.applyOrJoin build joinVars (branchesOf branches) bindings
  | _, bindings => pure bindings

def applyOrClauses : List WhereClause → List Bindings → Except QueryError (List Bindings)
  | [], bindings => pure bindings
  | clause :: clauses, bindings => do
      let bindings ← applyOrClause clause bindings
      applyOrClauses clauses bindings

def branchesOf : List (List WhereClause) → List Branch
  | [] => []
  | branch :: branches =>
      (branch, m.evaluateBranchWith (fun rows => applyOrClauses branch rows) branch) :: branchesOf branches

end

def evaluateBranch (branch : List WhereClause) (incoming : List Bindings) : Except QueryError (List Bindings) :=
  m.evaluateBranchWith (m.applyOrClauses build branch) branch incoming

/-! ## The query -/

/-- A clause the planner put off, on the rows behind the disjunctions. -/
def runDeferred (rows : List Bindings) : WhereClause → Except QueryError (List Bindings)
  | .expr e binding => applyExprClauses m.env rows [.expr e binding]
  | .not body => pure (m.applyNotClause rows body)
  | .notJoin joinVars clauses => pure (m.applyNotJoinClause rows joinVars clauses)
  | _ => pure rows

/-- The rows of `execute_query` that `apply_post_processing` is given. -/
def queryRows (clauses : List WhereClause) : Except QueryError (List Bindings) :=
  match clauses.findSome? (unknownPredicate m.env) with
  | some name => throw (.qry007 name)
  | none => do
      let rows ← m.applyOrClauses build clauses (m.planRows build clauses)
      let deferred := build.sortBy (fun c d => decide (clauseCost c ≤ clauseCost d)) (plan build clauses).2
      deferred.foldlM m.runDeferred rows

end PatternMatcher
end Minigraf
