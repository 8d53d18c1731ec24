import Minigraf.Query.Prepared

/-!
Where the slots of a template stand, and a template with its slots replaced.

The slots a vector, a list or a map holds stand apart: nothing of a prepared query looks for
them. `fill` replaces these as well; it is what executing a template is compared with.
-/

namespace Minigraf

/-- A place for a slot, and whose values it takes. -/
inductive SlotPlace where
  | entity
  | value
  | argument
  | expression
  | asOf
  | validAt
  | inner
  deriving DecidableEq, Repr

def SlotPlace.takes : SlotPlace → BindValue → Bool
  | .entity, v => (Prepared.takeEntity v).isSome
  | .asOf, v => (Prepared.takeAsOf v).isSome
  | .validAt, v => (Prepared.takeValidAt v).isSome
  | _, v => (Prepared.takeVal v).isSome

abbrev Occurrence := SlotPlace × String

mutual

def EdnValue.slots : EdnValue → List String
  | .bindSlot name => [name]
  | .vector items => EdnValue.itemSlots items
  | .list items => EdnValue.itemSlots items
  | .map entries => EdnValue.entrySlots entries
  | _ => []

def EdnValue.itemSlots : List EdnValue → List String
  | [] => []
  | item :: items => item.slots ++ EdnValue.itemSlots items

def EdnValue.entrySlots : List (EdnValue × EdnValue) → List String
  | [] => []
  | (key, value) :: entries => key.slots ++ value.slots ++ EdnValue.entrySlots entries

end

/-- The slots of a value that stands in a place itself. -/
def EdnValue.placed (place : SlotPlace) : EdnValue → List Occurrence
  | .bindSlot name => [(place, name)]
  | edn => edn.slots.map fun name => (.inner, name)

def AttributeSpec.occurrences : AttributeSpec → List Occurrence
  | .real edn => edn.slots.map fun name => (.inner, name)
  | .pseudo _ => []

def Pattern.occurrences (p : Pattern) : List Occurrence :=
  p.entity.placed .entity ++ p.attr.occurrences ++ p.value.placed .value

def Expr.occurrences : Expr → List Occurrence
  | .slot name => [(.expression, name)]
  | .binOp _ lhs rhs => lhs.occurrences ++ rhs.occurrences
  | .unaryOp _ arg => arg.occurrences
  | .var _ => []
  | .lit _ => []

mutual

def WhereClause.occurrences : WhereClause → List Occurrence
  | .pattern p => p.occurrences
  | .not inner => bodyOccurrences inner
  | .notJoin _ inner => bodyOccurrences inner
  | .or branches => branchOccurrences branches
  | .orJoin _ branches => branchOccurrences branches
  | .expr expr _ => expr.occurrences
  | .ruleInvocation _ args => args.flatMap (EdnValue.placed .argument)

def bodyOccurrences : List WhereClause → List Occurrence
  | [] => []
  | clause :: clauses => clause.occurrences ++ bodyOccurrences clauses

def branchOccurrences : List (List WhereClause) → List Occurrence
  | [] => []
  | branch :: branches => bodyOccurrences branch ++ branchOccurrences branches

end

def asOfOccurrences : Option AsOf → List Occurrence
  | some (.slot name) => [(.asOf, name)]
  | _ => []

def validAtOccurrences : Option ValidAt → List Occurrence
  | some (.slot name) => [(.validAt, name)]
  | _ => []

def DatalogQuery.occurrences (q : DatalogQuery) : List Occurrence :=
  asOfOccurrences q.asOf ++ validAtOccurrences q.validAt ++ bodyOccurrences q.whereClauses

/-! ## Templates filled in -/

section

variable (f : String → Option EdnValue)

mutual

/-- Every slot replaced that has a replacement. -/
def EdnValue.fill : EdnValue → EdnValue
  | .bindSlot name => (f name).getD (.bindSlot name)
  | .vector items => .vector (EdnValue.fillItems items)
  | .list items => .list (EdnValue.fillItems items)
  | .map entries => .map (EdnValue.fillEntries entries)
  | edn => edn

def EdnValue.fillItems : List EdnValue → List EdnValue
  | [] => []
  | item :: items => item.fill :: EdnValue.fillItems items

def EdnValue.fillEntries : List (EdnValue × EdnValue) → List (EdnValue × EdnValue)
  | [] => []
  | (key, value) :: entries => (key.fill, value.fill) :: EdnValue.fillEntries entries

end

/-- The same with a replacement of its own for the value itself. -/
def EdnValue.fillAt (g : String → Option EdnValue) : EdnValue → EdnValue
  | .bindSlot name => (g name).getD (.bindSlot name)
  | edn => edn.fill f

end

section

variable (b : String → Option BindValue)

def valueAt (name : String) : Option EdnValue := (b name).bind Prepared.takeValue

def entityAt (name : String) : Option EdnValue := (b name).bind Prepared.takeEntity

def AttributeSpec.fill : AttributeSpec → AttributeSpec
  | .real edn => .real (edn.fill (valueAt b))
  | .pseudo p => .pseudo p

def Pattern.fill (p : Pattern) : Pattern :=
  ⟨p.entity.fillAt (valueAt b) (entityAt b), p.attr.fill b, p.value.fill (valueAt b)⟩

def Expr.fill : Expr → Expr
  | .slot name => (((b name).bind Prepared.takeVal).map Expr.lit).getD (.slot name)
  | .binOp op lhs rhs => .binOp op lhs.fill rhs.fill
  | .unaryOp op arg => .unaryOp op arg.fill
  | .var v => .var v
  | .lit v => .lit v

mutual

def WhereClause.fill : WhereClause → WhereClause
  | .pattern p => .pattern (p.fill b)
  | .not inner => .not (fillBody inner)
  | .notJoin joinVars inner => .notJoin joinVars (fillBody inner)
  | .or branches => .or (fillBranches branches)
  | .orJoin joinVars branches => .orJoin joinVars (fillBranches branches)
  | .expr expr binding => .expr (expr.fill b) binding
  | .ruleInvocation predicate args => .ruleInvocation predicate (args.map (EdnValue.fill (valueAt b)))

def fillBody : List WhereClause → List WhereClause
  | [] => []
  | clause :: clauses => clause.fill :: fillBody clauses

def fillBranches : List (List WhereClause) → List (List WhereClause)
  | [] => []
  | branch :: branches => fillBody branch :: fillBranches branches

end

def fillAsOf : Option AsOf → Option AsOf
  | some (.slot name) => some (((b name).bind Prepared.takeAsOf).getD (.slot name))
  | asOf => asOf

def fillValidAt : Option ValidAt → Option ValidAt
  | some (.slot name) => some (((b name).bind Prepared.takeValidAt).getD (.slot name))
  | validAt => validAt

def DatalogQuery.fill (q : DatalogQuery) : DatalogQuery :=
  { q with asOf := fillAsOf b q.asOf, validAt := fillValidAt b q.validAt, whereClauses := fillBody b q.whereClauses }

end

/-! ## Values without slots -/

section

variable {f g : String → Option EdnValue}

mutual

theorem EdnValue.fill_congr : ∀ e : EdnValue, (∀ name ∈ e.slots, f name = g name) → e.fill f = e.fill g
  | .bindSlot name, same => by rw [fill, fill, same name List.mem_cons_self]
  | .vector items, same => congrArg _ (EdnValue.fillItems_congr items same)
  | .list items, same => congrArg _ (EdnValue.fillItems_congr items same)
  | .map entries, same => congrArg _ (EdnValue.fillEntries_congr entries same)
  | .keyword _, _ | .var _, _ | .underscore, _ | .symbol _, _ | .string _, _ | .integer _, _
  | .float _, _ | .boolean _, _ | .uuid _, _ | .nil, _ => rfl

theorem EdnValue.fillItems_congr : ∀ items : List EdnValue,
    (∀ name ∈ EdnValue.itemSlots items, f name = g name) → EdnValue.fillItems f items = EdnValue.fillItems g items
  | [], _ => rfl
  | item :: items, same => by
      rw [fillItems, fillItems,
        EdnValue.fill_congr item fun name mem => same name (List.mem_append_left _ mem),
        EdnValue.fillItems_congr items fun name mem => same name (List.mem_append_right _ mem)]

theorem EdnValue.fillEntries_congr : ∀ entries : List (EdnValue × EdnValue),
    (∀ name ∈ EdnValue.entrySlots entries, f name = g name) →
      EdnValue.fillEntries f entries = EdnValue.fillEntries g entries
  | [], _ => rfl
  | (key, value) :: entries, same => by
      rw [fillEntries, fillEntries,
        EdnValue.fill_congr key fun name mem => same name
          (List.mem_append_left _ (List.mem_append_left _ mem)),
        EdnValue.fill_congr value fun name mem => same name
          (List.mem_append_left _ (List.mem_append_right _ mem)),
        EdnValue.fillEntries_congr entries fun name mem => same name (List.mem_append_right _ mem)]

end

mutual

theorem EdnValue.fill_none : ∀ e : EdnValue, e.fill (fun _ => none) = e
  | .bindSlot _ => rfl
  | .vector items => congrArg _ (EdnValue.fillItems_none items)
  | .list items => congrArg _ (EdnValue.fillItems_none items)
  | .map entries => congrArg _ (EdnValue.fillEntries_none entries)
  | .keyword _ | .var _ | .underscore | .symbol _ | .string _ | .integer _ | .float _ | .boolean _
  | .uuid _ | .nil => rfl

theorem EdnValue.fillItems_none : ∀ items : List EdnValue, EdnValue.fillItems (fun _ => none) items = items
  | [] => rfl
  | item :: items => by rw [fillItems, EdnValue.fill_none item, EdnValue.fillItems_none items]

theorem EdnValue.fillEntries_none : ∀ entries : List (EdnValue × EdnValue),
    EdnValue.fillEntries (fun _ => none) entries = entries
  | [] => rfl
  | (key, value) :: entries => by
      rw [fillEntries, EdnValue.fill_none key, EdnValue.fill_none value, EdnValue.fillEntries_none entries]

end

theorem EdnValue.fill_of_slots_nil {e : EdnValue} (none : e.slots = []) : e.fill f = e := by
  refine (EdnValue.fill_congr e (g := fun _ => Option.none) fun name mem => ?_).trans (EdnValue.fill_none e)
  rw [none] at mem
  cases mem

end

end Minigraf
