import Minigraf.Query.Negation

/-!
The planner of `src/query/datalog/optimizer.rs`: patterns in the order of their
selectivity, expressions and negations pushed to the first place where patterns bind
what they read, the rest deferred.

The sorts are left out of the build with the `wasm` feature, so the build is a
parameter. A set of variables is a list of which only the members count.
-/

namespace Minigraf

inductive Build where
  | native
  | wasm
  deriving DecidableEq, Repr

inductive IndexHint where
  | eavt
  | aevt
  | avet
  | vaet
  deriving DecidableEq, Repr

def isEntityLiteral : EdnValue → Bool
  | .uuid _ => true
  | _ => false

def attrIsIndexBound : AttributeSpec → Bool
  | .real edn => !edn.isVariable
  | .pseudo _ => false

/-- How many components of a pattern are no variables. -/
def selectivityScore (p : Pattern) : Nat :=
  (!p.entity.isVariable).toNat + (attrIsIndexBound p.attr).toNat + (!p.value.isVariable).toNat

def selectIndex (p : Pattern) : IndexHint :=
  if !p.entity.isVariable then .eavt
  else if attrIsIndexBound p.attr && !p.value.isVariable then .avet
  else if attrIsIndexBound p.attr then .aevt
  else if !p.value.isVariable && isEntityLiteral p.value then .vaet
  else .eavt

/-! ## Variables -/

def Var.isAnon : Var → Bool
  | .named _ => false
  | .anon _ => true

def exprVars : Expr → List Var
  | .var v => [v]
  | .lit _ => []
  | .slot _ => []
  | .binOp _ lhs rhs => exprVars lhs ++ exprVars rhs
  | .unaryOp _ arg => exprVars arg

def attrVariable : AttributeSpec → Option Var
  | .real edn => edn.asVariable
  | .pseudo _ => none

def patternBoundVars (p : Pattern) : List Var :=
  p.entity.asVariable.toList ++ (attrVariable p.attr).toList ++ p.value.asVariable.toList

mutual

def WhereClause.refVars : WhereClause → List Var
  | .pattern p => patternBoundVars p
  | .expr expr binding => exprVars expr ++ binding.toList
  | .not inner => clauseRefVars inner
  | .notJoin _ inner => clauseRefVars inner
  | .ruleInvocation _ args => args.filterMap EdnValue.asVariable
  | .or _ => []
  | .orJoin _ _ => []

def clauseRefVars : List WhereClause → List Var
  | [] => []
  | clause :: clauses => clause.refVars ++ clauseRefVars clauses

end

/-! ## Costs -/

def patternCost (p : Pattern) : Nat :=
  match selectivityScore p with
  | 3 => 1
  | 2 => 10
  | 1 => 100
  | _ => 10000

def branchCost (branch : List WhereClause) : Nat :=
  ((bodyPatterns branch).map patternCost).min?.getD 0

def clauseCost : WhereClause → Nat
  | .pattern p => patternCost p
  | .expr _ _ => 0
  | .not body => branchCost body
  | .notJoin _ clauses => branchCost clauses
  | .or branches => (branches.map branchCost).sum
  | .orJoin _ branches => (branches.map branchCost).sum
  | .ruleInvocation _ _ => 2 ^ 64 - 1

/-- A stable sort that the `wasm` build leaves out. -/
def Build.sortBy {α : Type} (build : Build) (le : α → α → Bool) (xs : List α) : List α :=
  match build with
  | .native => xs.mergeSort le
  | .wasm => xs

/-! ## The plan -/

abbrev Planned := WhereClause × Option IndexHint

/-- Behind the first planned pattern with which the patterns so far bind the variables. -/
def bindingPlace (vars : List Var) : List Var → List Planned → Option Nat
  | _, [] => none
  | bound, (.pattern p, _) :: rest =>
      let bound := bound ++ patternBoundVars p
      if vars.all bound.contains then some 1 else (bindingPlace vars bound rest).map (· + 1)
  | bound, _ :: rest => (bindingPlace vars bound rest).map (· + 1)

/-- A plan as it grows: the clauses in order, the variables an expression may read, and
what is put off. -/
structure Plan where
  result : List Planned
  placeable : List Var
  deferred : List WhereClause

namespace Plan

def insertAt (plan : Plan) (place : Nat) (clause : WhereClause) : Plan :=
  { plan with result := plan.result.insertIdx place (clause, none) }

def defer (plan : Plan) (clause : WhereClause) : Plan :=
  { plan with deferred := plan.deferred ++ [clause] }

/-- Patterns only, in the order of the build. -/
def ofPatterns (patterns : List Pattern) : Plan where
  result := patterns.map fun p => (.pattern p, some (selectIndex p))
  placeable := patterns.flatMap patternBoundVars
  deferred := []

def placeExpr (plan : Plan) (clause : WhereClause) : Plan :=
  match clause with
  | .expr expr binding =>
      let vars := exprVars expr
      if vars.all plan.placeable.contains then
        let place := if vars.isEmpty then none else bindingPlace vars [] plan.result
        let plan := plan.insertAt (place.getD plan.result.length) clause
        { plan with placeable := plan.placeable ++ binding.toList }
      else plan.defer clause
  | _ => plan

/-- The variables a negation needs: a `?_` variable is a wildcard. -/
def requiredVars : WhereClause → List Var
  | .not body => (clauseRefVars body).filter (!·.isAnon)
  | .notJoin joinVars _ => joinVars.filter (!·.isAnon)
  | _ => []

def placeNot (plan : Plan) (clause : WhereClause) : Plan :=
  let required := requiredVars clause
  if required.isEmpty then plan.insertAt 0 clause
  else
    match bindingPlace required [] plan.result with
    | some place => plan.insertAt place clause
    | none => plan.defer clause

end Plan

def WhereClause.isNegation : WhereClause → Bool
  | .not _ => true
  | .notJoin _ _ => true
  | _ => false

def sortedPatterns (build : Build) (clauses : List WhereClause) : List Pattern :=
  build.sortBy (fun p q => decide (selectivityScore q ≤ selectivityScore p)) (bodyPatterns clauses)

/-- Most expensive first: each is put before those at the same place. -/
def sortedNots (build : Build) (clauses : List WhereClause) : List WhereClause :=
  build.sortBy (fun c d => decide (clauseCost d ≤ clauseCost c)) (clauses.filter WhereClause.isNegation)

def plan (build : Build) (clauses : List WhereClause) : List Planned × List WhereClause :=
  let placed := (clauses.filter WhereClause.isExpr).foldl Plan.placeExpr
    (Plan.ofPatterns (sortedPatterns build clauses))
  let placed := (sortedNots build clauses).foldl Plan.placeNot placed
  (placed.result, placed.deferred)

end Minigraf
