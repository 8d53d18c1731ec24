import Minigraf.Query.Edn

/-!
The where clauses of `src/query/datalog/types.rs`, as the parser hands them on.
-/

namespace Minigraf

inductive PseudoAttr where
  | validFrom
  | validTo
  | txCount
  | txId
  | validAt
  deriving DecidableEq, Repr

inductive AttributeSpec where
  | real (edn : EdnValue)
  | pseudo (p : PseudoAttr)
  deriving DecidableEq, Repr

/-- A pattern of a query. The valid-time overrides belong to transactions only. -/
structure Pattern where
  entity : EdnValue
  attr : AttributeSpec
  value : EdnValue
  deriving DecidableEq, Repr

/-- The binary operators. `matches?` carries the text its regex was compiled from. -/
inductive BinOp where
  | lt
  | gt
  | lte
  | gte
  | eq
  | neq
  | add
  | sub
  | mul
  | div
  | startsWith
  | endsWith
  | contains
  | matches (pattern : String)
  deriving DecidableEq, Repr

inductive UnaryOp where
  | stringQ
  | integerQ
  | floatQ
  | booleanQ
  | nilQ
  | udf (name : String)
  deriving DecidableEq, Repr

inductive Expr where
  | var (v : Var)
  | lit (value : Value)
  | slot (name : String)
  | binOp (op : BinOp) (lhs rhs : Expr)
  | unaryOp (op : UnaryOp) (arg : Expr)
  deriving DecidableEq, Repr

inductive WhereClause where
  | pattern (p : Pattern)
  | ruleInvocation (predicate : String) (args : List EdnValue)
  | not (body : List WhereClause)
  | notJoin (joinVars : List Var) (clauses : List WhereClause)
  | expr (expr : Expr) (binding : Option Var)
  | or (branches : List (List WhereClause))
  | orJoin (joinVars : List Var) (branches : List (List WhereClause))

/-- The error codes of parsing and running a query, with what their messages name. -/
inductive QueryError where
  | int018 (what : String) (var : Var) (place binder : String)
  | int025
  | int028 (predicate : String) (arity : Nat)
  | int031 (var : Var)
  | int054 (head dep : String)
  | int055 (predicate : String)
  | prs057
  | qry007 (name : String)
  deriving DecidableEq, Repr

/-! ## Equality of values -/

/-- Positive or negative zero. -/
def F64.isZero (f : F64) : Bool := decide (f.bits &&& 0x7FFFFFFFFFFFFFFF = 0)

/-- `==` on floats. -/
def F64.eq (f g : F64) : Bool := !f.isNaN && !g.isNaN && (decide (f = g) || f.isZero && g.isZero)

/-- `PartialEq` of `Value`, which its `Hash` respects: two values meet in a hash map
exactly if they are equal in this sense. A NaN equals nothing. -/
def Value.eq : Value → Value → Bool
  | .string s, .string t => decide (s = t)
  | .integer i, .integer j => decide (i = j)
  | .float f, .float g => f.eq g
  | .boolean b, .boolean c => decide (b = c)
  | .ref x, .ref y => decide (x = y)
  | .keyword k, .keyword l => decide (k = l)
  | .null, .null => true
  | _, _ => false

theorem F64.eq_comm {f g : F64} (h : f.eq g = true) : g.eq f = true := by
  simp only [F64.eq, Bool.and_eq_true, Bool.or_eq_true, decide_eq_true_eq] at h ⊢
  refine ⟨⟨h.1.2, h.1.1⟩, ?_⟩
  rcases h.2 with same | zero
  · exact .inl same.symm
  · exact .inr ⟨zero.2, zero.1⟩

theorem F64.eq_trans {f g k : F64} (h : f.eq g = true) (h' : g.eq k = true) : f.eq k = true := by
  simp only [F64.eq, Bool.and_eq_true, Bool.or_eq_true, decide_eq_true_eq] at h h' ⊢
  refine ⟨⟨h.1.1, h'.1.2⟩, ?_⟩
  rcases h.2 with rfl | zero
  · exact h'.2
  · rcases h'.2 with rfl | zero'
    · exact .inr zero
    · exact .inr ⟨zero.1, zero'.2⟩

/-- Values that are no floats are equal if they are the same. -/
theorem Value.eq_iff {x y : Value} :
    x.eq y = true ↔
      (∃ f g, x = .float f ∧ y = .float g ∧ f.eq g = true) ∨ (x = y ∧ ∀ f, x ≠ .float f) := by
  constructor
  · intro h
    cases x <;> cases y <;> first
      | exact absurd h Bool.false_ne_true
      | exact .inr ⟨congrArg _ (of_decide_eq_true h), fun _ no => nomatch no⟩
      | exact .inr ⟨rfl, fun _ no => nomatch no⟩
      | exact .inl ⟨_, _, rfl, rfl, h⟩
  · rintro (⟨f, g, rfl, rfl, h⟩ | ⟨rfl, plain⟩)
    · exact h
    · cases x with
      | float f => exact absurd rfl (plain f)
      | null => rfl
      | string _ | integer _ | boolean _ | ref _ | keyword _ => exact decide_eq_true rfl

theorem Value.eq_comm {x y : Value} (h : x.eq y = true) : y.eq x = true := by
  rw [Value.eq_iff] at h ⊢
  rcases h with ⟨f, g, rfl, rfl, h⟩ | ⟨rfl, plain⟩
  · exact .inl ⟨g, f, rfl, rfl, F64.eq_comm h⟩
  · exact .inr ⟨rfl, plain⟩

theorem Value.eq_trans {x y z : Value} (h : x.eq y = true) (h' : y.eq z = true) : x.eq z = true := by
  rw [Value.eq_iff] at h
  rcases h with ⟨f, g, rfl, rfl, h⟩ | ⟨rfl, -⟩
  · rw [Value.eq_iff] at h' ⊢
    rcases h' with ⟨g', k, same, rfl, h'⟩ | ⟨-, plain⟩
    · cases same
      exact .inl ⟨f, k, rfl, rfl, F64.eq_trans h h'⟩
    · exact absurd rfl (plain g)
  · exact h'

end Minigraf
