import Mathlib.Data.List.Dedup
import Mathlib.Data.List.Sort
import Minigraf.Query.Parser

/-!
Prepared queries: `src/query/datalog/prepared.rs`.

A template is a query with bind slots. Preparing it rejects slots for attributes and
collects the names of the others; executing it replaces each slot by the value bound to its
name, of the kind its place asks for.
-/

namespace Minigraf

inductive BindValue where
  | entity (id : EntityId)
  | val (v : Value)
  | txCount (n : UInt64)
  | timestamp (t : Int64)
  | anyValidTime
  deriving DecidableEq, Repr

/-- `bind_value_type_name`. -/
def BindValue.typeName : BindValue → String
  | .entity _ => "Entity"
  | .val _ => "Val"
  | .txCount _ => "TxCount"
  | .timestamp _ => "Timestamp"
  | .anyValidTime => "AnyValidTime"

inductive PreparedError where
  | int033 (name : String)
  | int034 (name : String)
  | int035 (name position expected got : String)
  deriving DecidableEq, Repr

/-- The value bound to a name in the `HashMap` of the bindings: the last one. -/
def boundValue (bindings : List (String × BindValue)) (name : String) : Option BindValue :=
  bindings.reverse.lookup name

structure PreparedQuery where
  template : DatalogQuery
  slotNames : List String

def EdnValue.slot? : EdnValue → Option String
  | .bindSlot name => some name
  | _ => none

namespace Prepared

/-! ## Validation -/

def validateAttribute : AttributeSpec → Except PreparedError Unit
  | .real (.bindSlot name) => throw (.int034 name)
  | _ => pure ()

mutual

def validateClause : WhereClause → Except PreparedError Unit
  | .pattern p => validateAttribute p.attr
  | .not inner => validateClausesNoAttrSlots inner
  | .notJoin _ inner => validateClausesNoAttrSlots inner
  | .or branches => validateBranches branches
  | .orJoin _ branches => validateBranches branches
  | .expr _ _ => pure ()
  | .ruleInvocation _ _ => pure ()

def validateClausesNoAttrSlots : List WhereClause → Except PreparedError Unit
  | [] => pure ()
  | clause :: clauses => do
      validateClause clause
      validateClausesNoAttrSlots clauses

def validateBranches : List (List WhereClause) → Except PreparedError Unit
  | [] => pure ()
  | branch :: branches => do
      validateClausesNoAttrSlots branch
      validateBranches branches

end

/-! ## Slot collection -/

def collectAttribute : AttributeSpec → List String
  | .real edn => edn.slot?.toList
  | .pseudo _ => []

def collectSlotsFromExpr : Expr → List String
  | .slot name => [name]
  | .binOp _ l r => collectSlotsFromExpr l ++ collectSlotsFromExpr r
  | .unaryOp _ arg => collectSlotsFromExpr arg
  | .var _ => []
  | .lit _ => []

mutual

def collectSlotsFromClause : WhereClause → List String
  | .pattern p => p.entity.slot?.toList ++ collectAttribute p.attr ++ p.value.slot?.toList
  | .not inner => collectSlotsFromClauses inner
  | .notJoin _ inner => collectSlotsFromClauses inner
  | .or branches => collectSlotsFromBranches branches
  | .orJoin _ branches => collectSlotsFromBranches branches
  | .expr expr _ => collectSlotsFromExpr expr
  | .ruleInvocation _ args => args.filterMap EdnValue.slot?

def collectSlotsFromClauses : List WhereClause → List String
  | [] => []
  | clause :: clauses => collectSlotsFromClause clause ++ collectSlotsFromClauses clauses

def collectSlotsFromBranches : List (List WhereClause) → List String
  | [] => []
  | branch :: branches => collectSlotsFromClauses branch ++ collectSlotsFromBranches branches

end

def asOfSlot : Option AsOf → Option String
  | some (.slot name) => some name
  | _ => none

def validAtSlot : Option ValidAt → Option String
  | some (.slot name) => some name
  | _ => none

/-- The names of the slots, sorted and without doubles. -/
def collectSlotNames (query : DatalogQuery) : List String :=
  ((asOfSlot query.asOf).toList ++ (validAtSlot query.validAt).toList ++
    collectSlotsFromClauses query.whereClauses).dedup.insertionSort (· ≤ ·)

/-! ## Slot resolvers -/

/-- What a slot is replaced by: the part of its value that its position takes. -/
def resolveSlot {α : Type} (position expected : String) (take : BindValue → Option α) (name : String)
    (bindings : List (String × BindValue)) : Except PreparedError α :=
  match boundValue bindings name with
  | some value =>
      match take value with
      | some a => .ok a
      | none => .error (.int035 name position expected value.typeName)
  | none => .error (.int033 name)

def valueToEdn : Value → EdnValue
  | .string s => .string s
  | .integer i => .integer i
  | .float f => .float f
  | .boolean b => .boolean b
  | .keyword k => .keyword k
  | .ref id => .uuid id
  | .null => .nil

def takeEntity : BindValue → Option EdnValue
  | .entity id => some (.uuid id)
  | _ => none

def takeVal : BindValue → Option Value
  | .val v => some v
  | _ => none

def takeValue (value : BindValue) : Option EdnValue := (takeVal value).map valueToEdn

def takeAsOf : BindValue → Option AsOf
  | .txCount n => some (.counter n)
  | .timestamp t => some (.timestamp t)
  | _ => none

def takeValidAt : BindValue → Option ValidAt
  | .timestamp t => some (.timestamp t)
  | .anyValidTime => some .anyValidTime
  | _ => none

section

variable (bindings : List (String × BindValue))

def resolveEntitySlot (name : String) : Except PreparedError EdnValue :=
  resolveSlot "entity" "Entity" takeEntity name bindings

def resolveValueSlot (name : String) : Except PreparedError EdnValue :=
  resolveSlot "value" "Val" takeValue name bindings

def resolveValSlot (name : String) : Except PreparedError Value :=
  resolveSlot "expression" "Val" takeVal name bindings

def resolveAsOfSlot (name : String) : Except PreparedError AsOf :=
  resolveSlot ":as-of" "TxCount or Timestamp" takeAsOf name bindings

def resolveValidAtSlot (name : String) : Except PreparedError ValidAt :=
  resolveSlot ":valid-at" "Timestamp or AnyValidTime" takeValidAt name bindings

/-! ## Substitution -/

def substituteEntity : EdnValue → Except PreparedError EdnValue
  | .bindSlot name => resolveEntitySlot bindings name
  | edn => .ok edn

def substituteEdnValue : EdnValue → Except PreparedError EdnValue
  | .bindSlot name => resolveValueSlot bindings name
  | edn => .ok edn

def substitutePattern (p : Pattern) : Except PreparedError Pattern := do
  let entity ← substituteEntity bindings p.entity
  let value ← substituteEdnValue bindings p.value
  pure { p with entity := entity, value := value }

def substituteExpr : Expr → Except PreparedError Expr
  | .slot name => do
      let v ← resolveValSlot bindings name
      pure (.lit v)
  | .binOp op lhs rhs => do
      let lhs ← substituteExpr lhs
      let rhs ← substituteExpr rhs
      pure (.binOp op lhs rhs)
  | .unaryOp op arg => do
      let arg ← substituteExpr arg
      pure (.unaryOp op arg)
  | .var v => pure (.var v)
  | .lit v => pure (.lit v)

mutual

def substituteWhereClause : WhereClause → Except PreparedError WhereClause
  | .pattern p => do
      let p ← substitutePattern bindings p
      pure (.pattern p)
  | .not clauses => do
      let clauses ← substituteClauses clauses
      pure (.not clauses)
  | .notJoin joinVars clauses => do
      let clauses ← substituteClauses clauses
      pure (.notJoin joinVars clauses)
  | .or branches => do
      let branches ← substituteBranches branches
      pure (.or branches)
  | .orJoin joinVars branches => do
      let branches ← substituteBranches branches
      pure (.orJoin joinVars branches)
  | .expr expr binding => do
      let expr ← substituteExpr bindings expr
      pure (.expr expr binding)
  | .ruleInvocation predicate args => do
      let args ← args.mapM (substituteEdnValue bindings)
      pure (.ruleInvocation predicate args)

def substituteClauses : List WhereClause → Except PreparedError (List WhereClause)
  | [] => pure []
  | clause :: clauses => do
      let clause ← substituteWhereClause clause
      let clauses ← substituteClauses clauses
      pure (clause :: clauses)

def substituteBranches : List (List WhereClause) → Except PreparedError (List (List WhereClause))
  | [] => pure []
  | branch :: branches => do
      let branch ← substituteClauses branch
      let branches ← substituteBranches branches
      pure (branch :: branches)

end

def substituteAsOf : Option AsOf → Except PreparedError (Option AsOf)
  | some (.slot name) => do
      let asOf ← resolveAsOfSlot bindings name
      pure (some asOf)
  | asOf => .ok asOf

def substituteValidAt : Option ValidAt → Except PreparedError (Option ValidAt)
  | some (.slot name) => do
      let validAt ← resolveValidAtSlot bindings name
      pure (some validAt)
  | validAt => .ok validAt

def substitute (template : DatalogQuery) : Except PreparedError DatalogQuery := do
  let asOf ← substituteAsOf bindings template.asOf
  let validAt ← substituteValidAt bindings template.validAt
  let whereClauses ← substituteClauses bindings template.whereClauses
  pure { template with asOf := asOf, validAt := validAt, whereClauses := whereClauses }

end

end Prepared

/-! ## Preparing and executing -/

def prepareQuery (query : DatalogQuery) : Except PreparedError PreparedQuery := do
  Prepared.validateClausesNoAttrSlots query.whereClauses
  pure ⟨query, Prepared.collectSlotNames query⟩

/-- `execute_inner` up to the query it runs. -/
def PreparedQuery.filledQuery (pq : PreparedQuery) (bindings : List (String × BindValue)) :
    Except PreparedError DatalogQuery :=
  match pq.slotNames.find? fun name => (boundValue bindings name).isNone with
  | some name => .error (.int033 name)
  | none => Prepared.substitute bindings pq.template

end Minigraf
