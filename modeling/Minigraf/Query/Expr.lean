import Mathlib.Data.List.Infix
import Minigraf.Query.Types

/-!
Rows of bindings and the expressions of `src/query/datalog/executor.rs`.

A `HashMap` of bindings is an association list of which the first entry for a key
counts. Its keys are variables and the hidden keys `__fvf_…`, `__fvt_…`, `__ftc_…` and
`__fti_…` a matched fact leaves behind, by pseudo-attribute and entity.

The build is the one without the `wasm` feature. Dividing the least integer by -1, on
which Rust panics, gives no value here.
-/

namespace Minigraf

/-- What the code asks of other packages: `Uuid::parse_str` and `Uuid::new_v5`, a
compiled regex, and the predicates of the function registry. -/
structure Env where
  parseStr : String → Option EntityId
  newV5 : String → EntityId
  isMatch : String → String → Bool
  getPredicate : String → Option (Value → Bool)

inductive Key where
  | var (v : Var)
  | hidden (p : PseudoAttr) (id : EntityId)
  deriving DecidableEq, Repr

def Key.isHidden : Key → Bool
  | .var _ => false
  | .hidden _ _ => true

abbrev Bindings := List (Key × Value)

section

variable (env : Env)

/-- `edn_to_entity_id` of a keyword. -/
def keywordId (k : String) : EntityId :=
  (env.parseStr (k.dropWhile (· = ':')).toString).getD (env.newV5 k)

/-- `normalize_value` and `normalize_join_value`: a keyword stands for the entity it
names. -/
def normalizeValue : Value → Value
  | .keyword k => .ref (keywordId env k)
  | v => v

/-- Equal as a join compares them. -/
def Meets (x y : Value) : Bool := (normalizeValue env x).eq (normalizeValue env y)

def isTruthy : Value → Bool
  | .boolean b => b
  | .integer i => decide (i ≠ 0)
  | .float f => !f.isZero
  | _ => false

/-! ## Operators -/

def F64.toFloat (f : F64) : Float := Float.ofBits f.bits

def F64.ofFloat (x : Float) : F64 := ⟨x.toBits⟩

/-- `as f64`: the nearest float, of two the even one. -/
def asFloat (i : Int64) : Float := .ofModel (.ofInt64 i)

def toFloat : Value → Option Float
  | .integer i => some (asFloat i)
  | .float f => some f.toFloat
  | _ => none

def toFloatPair (l r : Value) : Option (Float × Float) := do
  let lf ← toFloat l
  let rf ← toFloat r
  pure (lf, rf)

/-- `partial_cmp` on floats. -/
def partialCmp (x y : Float) : Option Ordering :=
  if x < y then some .lt else if y < x then some .gt else if x == y then some .eq else none

def exprEq : Value → Value → Bool
  | .keyword k, .ref u => decide (keywordId env k = u)
  | .ref u, .keyword k => decide (keywordId env k = u)
  | l, r => l.eq r

/-- The order the comparisons use. -/
def exprOrdering : Value → Value → Option (Option Ordering)
  | .string a, .string b => some (some (compare a b))
  | l, r => (toFloatPair l r).map fun (x, y) => partialCmp x y

def compareWith (test : Ordering → Bool) (l r : Value) : Option Value :=
  (exprOrdering l r).map fun ordering => .boolean (ordering.any test)

/-- Integers stay integers; with a float on either side both are. -/
def arithmetic (onIntegers : Int64 → Int64 → Option Int64) (onFloats : Float → Float → Option Float) :
    Value → Value → Option Value
  | .integer a, .integer b => (onIntegers a b).map .integer
  | l, r => do
      let (x, y) ← toFloatPair l r
      let z ← onFloats x y
      pure (.float (.ofFloat z))

/-- A sum, difference or product of floats that is a NaN is an error. -/
def notNan (x : Float) : Option Float := if x.isNaN then none else some x

def divIntegers (a b : Int64) : Option Int64 :=
  if b = 0 then none else if a = Int64.minValue ∧ b = -1 then none else some (a / b)

def divFloats (x y : Float) : Option Float := if y == 0.0 || y.isNaN then none else some (x / y)

/-- A string predicate. -/
def onStrings (test : String → String → Bool) : Value → Value → Option Value
  | .string s, .string t => some (.boolean (test s t))
  | _, _ => none

def evalBinop (op : BinOp) (l r : Value) : Option Value :=
  match op with
  | .eq => some (.boolean (exprEq env l r))
  | .neq => some (.boolean (!exprEq env l r))
  | .lt => compareWith (·.isLT) l r
  | .gt => compareWith (·.isGT) l r
  | .lte => compareWith (·.isLE) l r
  | .gte => compareWith (·.isGE) l r
  | .add => arithmetic (fun a b => some (a + b)) (fun x y => notNan (x + y)) l r
  | .sub => arithmetic (fun a b => some (a - b)) (fun x y => notNan (x - y)) l r
  | .mul => arithmetic (fun a b => some (a * b)) (fun x y => notNan (x * y)) l r
  | .div => arithmetic divIntegers divFloats l r
  | .startsWith => onStrings (fun s t => t.toList.isPrefixOf s.toList) l r
  | .endsWith => onStrings (fun s t => t.toList.isSuffixOf s.toList) l r
  | .contains => onStrings (fun s t => decide (t.toList <:+: s.toList)) l r
  | .matches pattern => onStrings (fun s _ => env.isMatch pattern s) l r

def evalUnaryOp (op : UnaryOp) (v : Value) : Option Value :=
  match op with
  | .stringQ => some (.boolean (v matches .string _))
  | .integerQ => some (.boolean (v matches .integer _))
  | .floatQ => some (.boolean (v matches .float _))
  | .booleanQ => some (.boolean (v matches .boolean _))
  | .nilQ => some (.boolean (v matches .null))
  | .udf name => (env.getPredicate name).map fun f => .boolean (f v)

/-- The value of an expression on a row. An unbound variable, a type mismatch, a
division by zero and an unknown predicate have none. -/
def evalExpr : Expr → Bindings → Option Value
  | .var v, b => b.lookup (.var v)
  | .lit value, _ => some value
  | .slot _, _ => none
  | .binOp op lhs rhs, b => do
      let l ← evalExpr lhs b
      let r ← evalExpr rhs b
      evalBinop env op l r
  | .unaryOp op arg, b => do
      let v ← evalExpr arg b
      evalUnaryOp env op v

/-! ## Expression clauses -/

/-- One expression clause on one row: a filter, or a new binding. -/
def applyExpr (expr : Expr) (binding : Option Var) (b : Bindings) : Option Bindings :=
  match evalExpr env expr b with
  | none => none
  | some value =>
      match binding with
      | none => if isTruthy value then some b else none
      | some out => some ((.var out, value) :: b)

/-- The name of the predicate an expression clause calls, if none is registered. -/
def unknownPredicate : WhereClause → Option String
  | .expr (.unaryOp (.udf name) _) _ => if (env.getPredicate name).isNone then some name else none
  | _ => none

def applyExprClause (bindings : List Bindings) : WhereClause → List Bindings
  | .expr expr binding => bindings.filterMap (applyExpr env expr binding)
  | _ => bindings

def applyExprClauses (bindings : List Bindings) (whereClauses : List WhereClause) :
    Except QueryError (List Bindings) :=
  match whereClauses.findSome? (unknownPredicate env) with
  | some name => throw (.qry007 name)
  | none => pure (whereClauses.foldl (applyExprClause env) bindings)

/-- `apply_expr_clauses_in_evaluator` on one row: the same clauses, with no check of the
names before them. -/
def applyExprsToRow : List WhereClause → Bindings → Option Bindings
  | [], b => some b
  | .expr expr binding :: clauses, b => do
      let b ← applyExpr env expr binding b
      applyExprsToRow clauses b
  | _ :: clauses, b => applyExprsToRow clauses b

def applyExprClausesInEvaluator (bindings : List Bindings) (exprClauses : List WhereClause) :
    List Bindings :=
  bindings.filterMap (applyExprsToRow env exprClauses)

/-! ## What a join compares -/

theorem Meets.symm {x y : Value} (h : Meets env x y = true) : Meets env y x = true :=
  Value.eq_comm h

theorem Meets.trans {x y z : Value} (h : Meets env x y = true) (h' : Meets env y z = true) :
    Meets env x z = true :=
  Value.eq_trans h h'

end
end Minigraf
