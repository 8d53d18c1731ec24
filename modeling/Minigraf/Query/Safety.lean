import Minigraf.Query.Optimizer

/-!
The safety checks a query passes before it is run, of `src/query/datalog/parser.rs`:
what a negation and an expression read must be bound by other clauses.
-/

namespace Minigraf

mutual

/-- `outer_vars_from_clause`: the variables a clause is taken to bind. -/
def WhereClause.outerVars : WhereClause → List Var
  | .pattern p => (patternBoundVars p).filter (!·.isAnon)
  | .ruleInvocation _ args => (args.filterMap EdnValue.asVariable).filter (!·.isAnon)
  | .not _ => []
  | .notJoin _ _ => []
  | .or branches =>
      match branchOuterVars branches with
      | [] => []
      | first :: rest => first.filter fun v => rest.all (·.contains v)
  | .orJoin joinVars _ => joinVars
  | .expr _ binding => binding.toList

def bodyOuterVars : List WhereClause → List Var
  | [] => []
  | clause :: clauses => clause.outerVars ++ bodyOuterVars clauses

def branchOuterVars : List (List WhereClause) → List (List Var)
  | [] => []
  | branch :: branches => bodyOuterVars branch :: branchOuterVars branches

end

def varsInNot : WhereClause → List Var
  | .not inner => bodyOuterVars inner
  | _ => []

/-- The first variable of some that a set lacks. -/
def firstUnbound (vars bound : List Var) : Option Var := vars.find? fun v => !bound.contains v

def checkNotSafety (clauses : List WhereClause) (outerBound : List Var) : Except QueryError Unit :=
  clauses.forM fun clause =>
    match firstUnbound (varsInNot clause) outerBound with
    | some var => throw (.int018 "variable" var "(not ...)" "outer")
    | none => pure ()

def checkNotJoinSafety (clauses : List WhereClause) (outerBound : List Var) : Except QueryError Unit :=
  clauses.forM fun clause =>
    match clause with
    | .notJoin joinVars _ =>
        match firstUnbound (joinVars.filter (!·.isAnon)) outerBound with
        | some var => throw (.int018 "join variable" var "(not-join ...)" "outer")
        | none => pure ()
    | _ => pure ()

/-- Two lists of variables with the same members. -/
def sameVars (vs ws : List Var) : Bool := vs.all ws.contains && ws.all vs.contains

mutual

/-- One clause of `check_expr_safety_with_bound`: the variables bound behind it. -/
def WhereClause.checkExprs : WhereClause → List Var → Except QueryError (List Var)
  | .expr e binding, bound =>
      match firstUnbound (exprVars e) bound with
      | some var => throw (.int018 "variable" var "expression clause" "earlier")
      | none => pure (bound ++ binding.toList)
  | .not inner, bound => do
      let _ ← checkExprSafetyWithBound inner bound
      pure bound
  | .notJoin _ inner, bound => do
      let _ ← checkExprSafetyWithBound inner bound
      pure bound
  | .or branches, bound => do
      let newVars ← checkBranches branches bound
      if (newVars.zip newVars.tail).any fun (vs, ws) => !sameVars vs ws then throw .prs057
      pure (bound ++ newVars.headD [])
  | .orJoin joinVars branches, bound =>
      match firstUnbound (joinVars.filter (!·.isAnon)) bound with
      | some var => throw (.int018 "join variable" var "(or-join ...)" "earlier")
      | none => do
          let _ ← checkBranches branches bound
          pure bound
  | .pattern p, bound => pure (bound ++ (WhereClause.pattern p).outerVars)
  | .ruleInvocation predicate args, bound => pure (bound ++ (WhereClause.ruleInvocation predicate args).outerVars)

def checkExprSafetyWithBound : List WhereClause → List Var → Except QueryError (List Var)
  | [], bound => pure bound
  | clause :: clauses, bound => do
      let bound ← clause.checkExprs bound
      checkExprSafetyWithBound clauses bound

/-- The variables each branch adds. -/
def checkBranches : List (List WhereClause) → List Var → Except QueryError (List (List Var))
  | [], _ => pure []
  | branch :: branches, bound => do
      let branchBound ← checkExprSafetyWithBound branch bound
      let rest ← checkBranches branches bound
      pure (branchBound.filter (fun v => !bound.contains v) :: rest)

end

def checkExprSafety (clauses : List WhereClause) : Except QueryError Unit := do
  let _ ← checkExprSafetyWithBound clauses []

/-- The safety checks of `parse_query`. -/
def checkSafety (clauses : List WhereClause) : Except QueryError Unit := do
  let outerBound := bodyOuterVars clauses
  checkNotSafety clauses outerBound
  checkNotJoinSafety clauses outerBound
  checkExprSafety clauses

theorem bind_eq_ok {α β : Type} {x : Except QueryError α} {f : α → Except QueryError β} {b : β}
    (h : x >>= f = .ok b) : ∃ a, x = .ok a ∧ f a = .ok b := by
  cases x with
  | error e => cases h
  | ok a => exact ⟨a, rfl, h⟩

theorem checkSafety_ok {clauses : List WhereClause} (h : checkSafety clauses = .ok ()) :
    checkNotSafety clauses (bodyOuterVars clauses) = .ok () ∧
      checkNotJoinSafety clauses (bodyOuterVars clauses) = .ok () ∧
      ∃ bound, checkExprSafetyWithBound clauses [] = .ok bound := by
  obtain ⟨_, nots, h⟩ := bind_eq_ok h
  obtain ⟨_, joins, h⟩ := bind_eq_ok h
  obtain ⟨bound, exprs, _⟩ := bind_eq_ok h
  exact ⟨nots, joins, bound, exprs⟩

end Minigraf
