import Minigraf.Lib.Results
import Minigraf.Query.Slots

/-!
The text of a template with literals written for its slots. The parser reads it as the
template with the slots replaced: each literal is typed by its position as the value of the
slot is.
-/

namespace Minigraf

/-- A literal for a value in a place: the parser has none for a reference in an expression,
for a `:db/` keyword in a pattern, or for a counter beyond `i64`. -/
inductive IsLiteral (env : ParserEnv) : SlotPlace → BindValue → EdnValue → Prop where
  | entity (id : EntityId) : IsLiteral env .entity (.entity id) (.uuid id)
  | value (v : Value) (plain : (Prepared.valueToEdn v).pseudo = none) :
      IsLiteral env .value (.val v) (Prepared.valueToEdn v)
  | argument (v : Value) : IsLiteral env .argument (.val v) (Prepared.valueToEdn v)
  | expression (v : Value) (plain : ∀ id, v ≠ .ref id) :
      IsLiteral env .expression (.val v) (Prepared.valueToEdn v)
  | counter (i : Int64) (natural : 0 ≤ i) :
      IsLiteral env .asOf (.txCount (UInt64.ofNat i.toInt.toNat)) (.integer i)
  | asOf (t : Int64) (text : String) (reads : env.parseTimestamp text = .ok t) :
      IsLiteral env .asOf (.timestamp t) (.string text)
  | validAt (t : Int64) (text : String) (reads : env.parseTimestamp text = .ok t) :
      IsLiteral env .validAt (.timestamp t) (.string text)
  | anyValidTime : IsLiteral env .validAt .anyValidTime (.keyword ":any-valid-time")
  | inner (v : Value) : IsLiteral env .inner (.val v) (Prepared.valueToEdn v)

section

variable (env : ParserEnv) (b : String → Option BindValue) (lit : String → Option EdnValue)

/-- The literals written for these slots are those of their values. -/
def WrittenSlots (os : List Occurrence) : Prop :=
  ∀ o ∈ os, ∃ v e, b o.2 = some v ∧ lit o.2 = some e ∧ IsLiteral env o.1 v e

variable {env b lit}

theorem WrittenSlots.append {os os' : List Occurrence} :
    WrittenSlots env b lit (os ++ os') ↔ WrittenSlots env b lit os ∧ WrittenSlots env b lit os' := List.forall_mem_append

/-! ## Values -/

theorem WrittenSlots.slot {place : SlotPlace} (vals : place = .value ∨ place = .argument ∨ place = .inner)
    {name : String} (written : WrittenSlots env b lit [(place, name)]) :
    ∃ v, valueAt b name = some (Prepared.valueToEdn v) ∧ lit name = some (Prepared.valueToEdn v) ∧
      (place = .value → (Prepared.valueToEdn v).pseudo = none) := by
  obtain ⟨v, e, bound, there, literal⟩ := written _ List.mem_cons_self
  rcases vals with rfl | rfl | rfl
  · cases literal with
    | value v plain => exact ⟨v, by rw [valueAt, bound]; rfl, there, fun _ => plain⟩
  · cases literal with
    | argument v => exact ⟨v, by rw [valueAt, bound]; rfl, there, fun no => nomatch no⟩
  · cases literal with
    | inner v => exact ⟨v, by rw [valueAt, bound]; rfl, there, fun no => nomatch no⟩

theorem WrittenSlots.names {names : List String} (written : WrittenSlots env b lit (names.map fun name => (.inner, name))) :
    ∀ name ∈ names, lit name = valueAt b name := by
  intro name mem
  have one : WrittenSlots env b lit [(.inner, name)] := fun o own => written o (by
    rw [List.mem_singleton.mp own]
    exact List.mem_map_of_mem mem)
  obtain ⟨v, bound, there, _⟩ := one.slot (.inr (.inr rfl))
  rw [bound, there]

/-- In a place that takes values the literal is the value. -/
theorem fill_value {place : SlotPlace} (vals : place = .value ∨ place = .argument ∨ place = .inner)
    {e : EdnValue} (written : WrittenSlots env b lit (e.placed place)) : e.fill lit = e.fill (valueAt b) := by
  cases e with
  | bindSlot name =>
      obtain ⟨v, bound, there, _⟩ := WrittenSlots.slot vals written
      rw [EdnValue.fill, EdnValue.fill, bound, there]
  | keyword _ | var _ | underscore | symbol _ | string _ | integer _ | float _ | boolean _ | uuid _ | nil => rfl
  | vector items | list items | map entries => exact EdnValue.fill_congr _ (WrittenSlots.names written)

theorem fill_entity {e : EdnValue} (written : WrittenSlots env b lit (e.placed .entity)) :
    e.fill lit = e.fillAt (valueAt b) (entityAt b) := by
  cases e with
  | bindSlot name =>
      obtain ⟨v, e, bound, there, literal⟩ := written _ List.mem_cons_self
      cases literal with
      | entity id =>
          have taken : entityAt b name = some (.uuid id) := by
            rw [entityAt, bound]
            rfl
          rw [EdnValue.fill, EdnValue.fillAt, there, taken]
  | keyword _ | var _ | underscore | symbol _ | string _ | integer _ | float _ | boolean _ | uuid _ | nil => rfl
  | vector items | list items | map entries => exact EdnValue.fill_congr _ (WrittenSlots.names written)

/-- What the parser asks of a value that is no slot stays. -/
theorem asSymbol_fill {f : String → Option EdnValue} {e : EdnValue} {name : String}
    (own : e.asSymbol = some name) : e.fill f = e := by
  cases e with
  | var v => rfl
  | underscore => rfl
  | symbol s => rfl
  | keyword _ | string _ | integer _ | float _ | boolean _ | uuid _ | vector _ | list _ | map _ | nil
  | bindSlot _ => cases own

theorem asKeyword_fill {f : String → Option EdnValue} {e : EdnValue} (plain : ∀ name, e ≠ .bindSlot name) :
    (e.fill f).asKeyword = e.asKeyword := by
  cases e with
  | bindSlot name => exact absurd rfl (plain name)
  | keyword _ | var _ | underscore | symbol _ | string _ | integer _ | float _ | boolean _ | uuid _
  | vector _ | list _ | map _ | nil => rfl

theorem pseudo_fill_entity {e : EdnValue} (written : WrittenSlots env b lit (e.placed .entity)) :
    (e.fill lit).pseudo = e.pseudo := by
  by_cases slot : ∃ name, e = .bindSlot name
  · obtain ⟨name, rfl⟩ := slot
    obtain ⟨v, e, _, there, literal⟩ := written _ List.mem_cons_self
    cases literal with
    | entity id =>
        rw [EdnValue.fill, there]
        rfl
  · rw [EdnValue.pseudo, EdnValue.pseudo, asKeyword_fill fun name same => slot ⟨name, same⟩]

theorem pseudo_fill_value {e : EdnValue} (written : WrittenSlots env b lit (e.placed .value)) :
    (e.fill lit).pseudo = e.pseudo := by
  by_cases slot : ∃ name, e = .bindSlot name
  · obtain ⟨name, rfl⟩ := slot
    obtain ⟨v, _, there, plain⟩ := WrittenSlots.slot (.inl rfl) written
    rw [EdnValue.fill, there]
    exact plain rfl
  · rw [EdnValue.pseudo, EdnValue.pseudo, asKeyword_fill fun name same => slot ⟨name, same⟩]

/-! ## Expressions -/

theorem parse_bind_ok {α β : Type} {x : Except ParseError α} {f : α → Except ParseError β} {r : β}
    (h : x >>= f = .ok r) : ∃ a, x = .ok a ∧ f a = .ok r := by
  cases x with
  | error e => cases h
  | ok a => exact ⟨a, rfl, h⟩

theorem parseRegex_fill {lhs rhs expr : Expr} (read : parseRegex env lhs rhs = .ok expr) :
    expr.occurrences = lhs.occurrences ++ rhs.occurrences ∧ rhs.fill b = rhs ∧
      parseRegex env (lhs.fill b) rhs = .ok (expr.fill b) := by
  cases rhs with
  | lit v =>
      cases v with
      | string pattern =>
          rw [parseRegex] at read ⊢
          cases compiled : env.compileRegex pattern with
          | error e =>
              rw [compiled] at read
              cases read
          | ok _ =>
              rw [compiled] at read
              cases read
              exact ⟨rfl, rfl, rfl⟩
      | integer _ | float _ | boolean _ | ref _ | keyword _ | null => cases read
  | var _ | slot _ | binOp _ _ _ | unaryOp _ _ => cases read

mutual

theorem parseExprArg_fill : ∀ (e : EdnValue) (expr : Expr), parseExprArg env e = .ok expr →
    WrittenSlots env b lit expr.occurrences → parseExprArg env (e.fill lit) = .ok (expr.fill b)
  | .bindSlot name, expr, read, written => by
      cases read
      obtain ⟨v, e, bound, there, literal⟩ := written _ List.mem_cons_self
      cases literal with
      | expression w plain =>
          have filled : (Expr.slot name).fill b = .lit w := by
            rw [Expr.fill, bound]
            rfl
          rw [EdnValue.fill, there, filled]
          cases w with
          | ref id => exact absurd rfl (plain id)
          | string _ | integer _ | float _ | boolean _ | keyword _ | null => rfl
  | .list inner, expr, read, written => parseExpr_fill inner expr read written
  | .var _, expr, read, _ | .integer _, expr, read, _ | .float _, expr, read, _ | .string _, expr, read, _
  | .boolean _, expr, read, _ | .nil, expr, read, _ | .keyword _, expr, read, _ => by
      cases read
      rfl
  | .underscore, _, read, _ | .symbol _, _, read, _ | .uuid _, _, read, _ | .vector _, _, read, _
  | .map _, _, read, _ => nomatch read

theorem parseExpr_fill : ∀ (items : List EdnValue) (expr : Expr), parseExpr env items = .ok expr →
    WrittenSlots env b lit expr.occurrences → parseExpr env (EdnValue.fillItems lit items) = .ok (expr.fill b)
  | [], _, read, _ => nomatch read
  | head :: args, expr, read, written => by
      rw [parseExpr] at read
      cases symbol : head.asSymbol with
      | none =>
          rw [symbol] at read
          cases read
      | some name =>
          rw [EdnValue.fillItems, asSymbol_fill symbol, parseExpr]
          simp only [symbol] at read ⊢
          cases form : exprHead name with
          | unary op =>
              simp only [form] at read ⊢
              match args, read with
              | [first], read =>
                  obtain ⟨arg, parsed, made⟩ := parse_bind_ok read
                  cases made
                  change (do
                    let arg ← parseExprArg env (first.fill lit)
                    pure (Expr.unaryOp op arg)) = _
                  rw [parseExprArg_fill first arg parsed written]
                  rfl
          | named =>
              simp only [form] at read ⊢
              match args, read with
              | [first], read =>
                  obtain ⟨arg, parsed, made⟩ := parse_bind_ok read
                  cases made
                  change (do
                    let arg ← parseExprArg env (first.fill lit)
                    pure (Expr.unaryOp (.udf name) arg)) = _
                  rw [parseExprArg_fill first arg parsed written]
                  rfl
          | binary op =>
              simp only [form] at read ⊢
              match args, read with
              | [first, second], read =>
                  obtain ⟨lhs, parsed, read⟩ := parse_bind_ok read
                  obtain ⟨rhs, parsed', made⟩ := parse_bind_ok read
                  cases made
                  obtain ⟨left, right⟩ := WrittenSlots.append.mp written
                  change (do
                    let lhs ← parseExprArg env (first.fill lit)
                    let rhs ← parseExprArg env (second.fill lit)
                    pure (Expr.binOp op lhs rhs)) = _
                  rw [parseExprArg_fill first lhs parsed left, parseExprArg_fill second rhs parsed' right]
                  rfl
          | regex =>
              simp only [form] at read ⊢
              match args, read with
              | [first, second], read =>
                  obtain ⟨lhs, parsed, read⟩ := parse_bind_ok read
                  obtain ⟨rhs, parsed', read⟩ := parse_bind_ok read
                  obtain ⟨slots, same, made⟩ := parseRegex_fill (b := b) read
                  rw [slots] at written
                  obtain ⟨left, right⟩ := WrittenSlots.append.mp written
                  change (do
                    let lhs ← parseExprArg env (first.fill lit)
                    let rhs ← parseExprArg env (second.fill lit)
                    parseRegex env lhs rhs) = _
                  rw [parseExprArg_fill first lhs parsed left, parseExprArg_fill second rhs parsed' right, same]
                  exact made

end

theorem parseExprClause_fill {inner rest : List EdnValue} {clause : WhereClause}
    (read : parseExprClause env inner rest = .ok clause) (written : WrittenSlots env b lit clause.occurrences) :
    parseExprClause env (EdnValue.fillItems lit inner) (EdnValue.fillItems lit rest) = .ok (clause.fill b) := by
  rw [parseExprClause] at read ⊢
  obtain ⟨expr, parsed, read⟩ := parse_bind_ok read
  cases rest with
  | nil =>
      cases read
      rw [parseExpr_fill inner expr parsed written]
      rfl
  | cons second rest =>
      cases rest with
      | nil =>
          cases second with
          | var v =>
              cases read
              rw [parseExpr_fill inner expr parsed written]
              rfl
          | keyword _ | underscore | symbol _ | string _ | integer _ | float _ | boolean _ | uuid _
          | vector _ | list _ | map _ | nil | bindSlot _ => cases read
      | cons third rest => cases second <;> cases read

/-! ## Patterns -/

theorem parseQueryPattern_fill {vec : List EdnValue} {p : Pattern} (read : parseQueryPattern vec = .ok p)
    (attr : ∀ name, p.attr ≠ .real (.bindSlot name)) (written : WrittenSlots env b lit p.occurrences) :
    parseQueryPattern (EdnValue.fillItems lit vec) = .ok (p.fill b) ∧
      ∃ entity rest, vec = entity :: rest ∧ entity = p.entity := by
  match vec, read with
  | [entity, aspect, value], read =>
      rw [parseQueryPattern] at read
      by_cases reserved : entity.pseudo.isSome = true
      · rw [if_pos reserved] at read
        cases read
      · by_cases reserved' : value.pseudo.isSome = true
        · rw [if_neg reserved, if_pos reserved'] at read
          cases read
        · rw [if_neg reserved, if_neg reserved'] at read
          refine ⟨?_, entity, [aspect, value], rfl, ?_⟩
          · cases named : aspect.pseudo with
            | some pseudo =>
                rw [named] at read
                cases read
                obtain ⟨written, values⟩ := WrittenSlots.append.mp written
                obtain ⟨entities, _⟩ := WrittenSlots.append.mp written
                have plain : ∀ name, aspect ≠ .bindSlot name := by
                  rintro name rfl
                  cases named
                have same : (aspect.fill lit).pseudo = some pseudo := by
                  rw [EdnValue.pseudo, asKeyword_fill plain]
                  exact named
                change parseQueryPattern [entity.fill lit, aspect.fill lit, value.fill lit] = _
                rw [parseQueryPattern, pseudo_fill_entity entities, pseudo_fill_value values, if_neg reserved,
                  if_neg reserved', same, fill_entity entities, fill_value (.inl rfl) values]
                rfl
            | none =>
                rw [named] at read
                cases read
                obtain ⟨written, values⟩ := WrittenSlots.append.mp written
                obtain ⟨entities, attributes⟩ := WrittenSlots.append.mp written
                have plain : ∀ name, aspect ≠ .bindSlot name := by
                  rintro name rfl
                  exact attr name rfl
                have same : (aspect.fill lit).pseudo = none := by
                  rw [EdnValue.pseudo, asKeyword_fill plain]
                  exact named
                change parseQueryPattern [entity.fill lit, aspect.fill lit, value.fill lit] = _
                rw [parseQueryPattern, pseudo_fill_entity entities, pseudo_fill_value values, if_neg reserved,
                  if_neg reserved', same, fill_entity entities, fill_value (.inl rfl) values,
                  EdnValue.fill_congr aspect (WrittenSlots.names attributes)]
                rfl
          · cases named : aspect.pseudo <;> rw [named] at read <;> cases read <;> rfl

theorem parseVector_pattern {head : EdnValue} (plain : ∀ inner, head ≠ .list inner) (rest : List EdnValue) :
    parseVector env (head :: rest) = (do
      let p ← parseQueryPattern (head :: rest)
      pure (.pattern p)) := by
  cases head with
  | list inner => exact absurd rfl (plain inner)
  | keyword _ | var _ | underscore | symbol _ | string _ | integer _ | float _ | boolean _ | uuid _
  | vector _ | map _ | nil | bindSlot _ => rfl

theorem fill_not_list {e : EdnValue} (plain : ∀ inner, e ≠ .list inner)
    (written : WrittenSlots env b lit (e.placed .entity)) : ∀ inner, e.fill lit ≠ .list inner := by
  intro inner same
  cases e with
  | bindSlot name =>
      obtain ⟨v, e, _, there, literal⟩ := written _ List.mem_cons_self
      cases literal with
      | entity id =>
          rw [EdnValue.fill, there] at same
          cases same
  | list items => exact plain items rfl
  | keyword _ | var _ | underscore | symbol _ | string _ | integer _ | float _ | boolean _ | uuid _
  | vector _ | map _ | nil => cases same

theorem validate_pattern {p : Pattern} (valid : Prepared.validateClause (.pattern p) = .ok ()) :
    ∀ name, p.attr ≠ .real (.bindSlot name) := by
  intro name same
  rw [Prepared.validateClause, same] at valid
  cases valid

theorem parseVector_fill {vec : List EdnValue} {clause : WhereClause} (read : parseVector env vec = .ok clause)
    (valid : Prepared.validateClause clause = .ok ()) (written : WrittenSlots env b lit clause.occurrences) :
    parseVector env (EdnValue.fillItems lit vec) = .ok (clause.fill b) := by
  cases vec with
  | nil => cases read
  | cons head rest =>
      by_cases list : ∃ inner, head = .list inner
      · obtain ⟨inner, rfl⟩ := list
        exact parseExprClause_fill read written
      · have plain : ∀ inner, head ≠ .list inner := fun inner same => list ⟨inner, same⟩
        rw [parseVector_pattern plain] at read
        obtain ⟨p, parsed, made⟩ := parse_bind_ok read
        cases made
        obtain ⟨filled, entity, rest', same, own⟩ :=
          parseQueryPattern_fill parsed (validate_pattern valid) written
        cases same
        have entities : WrittenSlots env b lit (head.placed .entity) := by
          rw [own]
          exact (WrittenSlots.append.mp (WrittenSlots.append.mp written).1).1
        rw [EdnValue.fillItems, parseVector_pattern (fill_not_list plain entities)]
        change (do
          let p ← parseQueryPattern (EdnValue.fillItems lit (head :: rest))
          pure (WhereClause.pattern p)) = _
        rw [filled]
        rfl

/-! ## Clauses -/

theorem fillItems_isEmpty (f : String → Option EdnValue) (items : List EdnValue) :
    (EdnValue.fillItems f items).isEmpty = items.isEmpty := by
  cases items <;> rfl

theorem fillItems_variables {f : String → Option EdnValue} {error : EdnValue → ParseError} {vars : List EdnValue}
    {joinVars : List Var} (read : parseJoinVars error vars = .ok joinVars) : EdnValue.fillItems f vars = vars := by
  induction vars generalizing joinVars with
  | nil => rfl
  | cons v vars ih =>
      obtain ⟨w, ws, here, rest, -⟩ := List.mapM_cons_eq_ok read
      cases v with
      | var v => exact congrArg _ (ih rest)
      | keyword _ | underscore | symbol _ | string _ | integer _ | float _ | boolean _ | uuid _
      | vector _ | list _ | map _ | nil | bindSlot _ => cases here

theorem asVector_fill {f : String → Option EdnValue} {e : EdnValue} {items : List EdnValue}
    (own : e.asVector = some items) : (e.fill f).asVector = some (EdnValue.fillItems f items) := by
  cases e with
  | vector items =>
      cases own
      rfl
  | keyword _ | var _ | underscore | symbol _ | string _ | integer _ | float _ | boolean _ | uuid _ | list _
  | map _ | nil | bindSlot _ => cases own

theorem fillItems_arguments {args : List EdnValue}
    (written : WrittenSlots env b lit (args.flatMap (EdnValue.placed .argument))) :
    EdnValue.fillItems lit args = args.map (EdnValue.fill (valueAt b)) := by
  induction args with
  | nil => rfl
  | cons arg args ih =>
      obtain ⟨here, rest⟩ := WrittenSlots.append.mp written
      rw [EdnValue.fillItems, fill_value (.inr (.inl rfl)) here, ih rest, List.map_cons]

/-- A list that begins with a symbol still begins with it. -/
theorem startsWith_fill {f : String → Option EdnValue} (names : List String) {head : EdnValue} {name : String}
    (symbol : head.asSymbol = some name) (rest : List EdnValue) :
    startsWith names (EdnValue.fillItems f (head :: rest)) = startsWith names (head :: rest) := by
  rw [EdnValue.fillItems, asSymbol_fill symbol]
  rfl

theorem parseList_symbol {allowNot : Bool} {items : List EdnValue} {clause : WhereClause}
    (read : parseListAsWhereClause env allowNot items = .ok clause) :
    ∃ head rest name, items = head :: rest ∧ head.asSymbol = some name := by
  cases items with
  | nil => cases read
  | cons head rest =>
      cases symbol : head.asSymbol with
      | none =>
          rw [parseListAsWhereClause, symbol] at read
          cases read
      | some name => exact ⟨head, rest, name, rfl, symbol⟩

theorem startsWith_same {names : List String} {items : List EdnValue} {f : String → Option EdnValue}
    (own : startsWith names items = true) : startsWith names (EdnValue.fillItems f items) = true := by
  cases items with
  | nil => cases own
  | cons head rest =>
      cases symbol : head.asSymbol with
      | none =>
          rw [startsWith, List.head?_cons, Option.bind_some, symbol] at own
          cases own
      | some name => rwa [startsWith_fill names symbol]

theorem startsWith_list {allowNot : Bool} {items : List EdnValue} {clause : WhereClause}
    {f : String → Option EdnValue} (read : parseListAsWhereClause env allowNot items = .ok clause)
    (names : List String) : startsWith names (EdnValue.fillItems f items) = startsWith names items := by
  obtain ⟨head, rest, name, rfl, symbol⟩ := parseList_symbol read
  exact startsWith_fill names symbol rest

theorem validate_cons {clause : WhereClause} {clauses : List WhereClause}
    (valid : Prepared.validateClausesNoAttrSlots (clause :: clauses) = .ok ()) :
    Prepared.validateClause clause = .ok () ∧ Prepared.validateClausesNoAttrSlots clauses = .ok () := by
  rw [Prepared.validateClausesNoAttrSlots] at valid
  cases here : Prepared.validateClause clause with
  | error e =>
      rw [here] at valid
      cases valid
  | ok _ =>
      rw [here] at valid
      exact ⟨rfl, valid⟩

theorem validate_consBranch {branch : List WhereClause} {branches : List (List WhereClause)}
    (valid : Prepared.validateBranches (branch :: branches) = .ok ()) :
    Prepared.validateClausesNoAttrSlots branch = .ok () ∧ Prepared.validateBranches branches = .ok () := by
  rw [Prepared.validateBranches] at valid
  cases here : Prepared.validateClausesNoAttrSlots branch with
  | error e =>
      rw [here] at valid
      cases valid
  | ok _ =>
      rw [here] at valid
      exact ⟨rfl, valid⟩

mutual

theorem parseList_fill : ∀ (items : List EdnValue) (allowNot : Bool) (clause : WhereClause),
    parseListAsWhereClause env allowNot items = .ok clause → Prepared.validateClause clause = .ok () →
    WrittenSlots env b lit clause.occurrences →
    parseListAsWhereClause env allowNot (EdnValue.fillItems lit items) = .ok (clause.fill b)
  | [], _, _, read, _, _ => nomatch read
  | head :: rest, allowNot, clause, read, valid, written => by
      cases symbol : head.asSymbol with
      | none =>
          rw [parseListAsWhereClause, symbol] at read
          cases read
      | some name =>
          rw [EdnValue.fillItems, asSymbol_fill symbol]
          rw [parseListAsWhereClause] at read ⊢
          simp only [symbol] at read ⊢
          cases form : listHead name with
          | not =>
              simp only [form, fillItems_isEmpty] at read ⊢
              cases allowNot with
              | false => cases read
              | true =>
                  cases empty : rest.isEmpty with
                  | true =>
                      rw [empty] at read
                      cases read
                  | false =>
                      rw [empty] at read
                      obtain ⟨inner, parsed, made⟩ := parse_bind_ok read
                      cases made
                      simp only [Bool.not_true, Bool.false_eq_true, if_false]
                      rw [parseNegated_fill rest _ inner parsed valid written]
                      rfl
          | notJoin =>
              simp only [form] at read ⊢
              cases allowNot with
              | false => cases read
              | true =>
                  simp only [Bool.not_true, Bool.false_eq_true, if_false] at read ⊢
                  match rest, read with
                  | vector :: first :: rest, read =>
                      cases vars : vector.asVector with
                      | none =>
                          simp only [vars] at read
                          cases read
                      | some items =>
                          simp only [vars] at read
                          obtain ⟨joinVars, names, read⟩ := parse_bind_ok read
                          obtain ⟨inner, parsed, made⟩ := parse_bind_ok read
                          cases made
                          have body := parseNegated_fill (first :: rest) _ inner parsed valid written
                          have same := fillItems_variables (f := lit) names
                          simp only [EdnValue.fillItems, asVector_fill vars, same, names] at body ⊢
                          rw [body]
                          rfl
          | or =>
              simp only [form, fillItems_isEmpty] at read ⊢
              cases empty : rest.isEmpty with
              | true =>
                  rw [empty] at read
                  cases read
              | false =>
                  rw [empty] at read
                  obtain ⟨branches, parsed, made⟩ := parse_bind_ok read
                  cases made
                  simp only [Bool.false_eq_true, if_false]
                  rw [parseOrBranches_fill rest branches parsed valid written]
                  rfl
          | orJoin =>
              simp only [form] at read ⊢
              match rest, read with
              | vector :: first :: rest, read =>
                  cases vars : vector.asVector with
                  | none =>
                      simp only [vars] at read
                      cases read
                  | some items =>
                      simp only [vars] at read
                      obtain ⟨joinVars, names, read⟩ := parse_bind_ok read
                      obtain ⟨branches, parsed, made⟩ := parse_bind_ok read
                      cases made
                      have body := parseOrBranches_fill (first :: rest) branches parsed valid written
                      have same := fillItems_variables (f := lit) names
                      simp only [EdnValue.fillItems, asVector_fill vars, same, names] at body ⊢
                      rw [body]
                      rfl
          | predicate =>
              simp only [form] at read ⊢
              cases read
              rw [fillItems_arguments written]
              rfl

theorem parseNegatedItem_fill : ∀ (item : EdnValue) (place : String) (clause : WhereClause),
    parseNegatedItem env place item = .ok clause → Prepared.validateClause clause = .ok () →
    WrittenSlots env b lit clause.occurrences → parseNegatedItem env place (item.fill lit) = .ok (clause.fill b)
  | .vector _, _, _, read, valid, written => parseVector_fill read valid written
  | .list inner, place, clause, read, valid, written => by
      rw [parseNegatedItem] at read
      rw [EdnValue.fill, parseNegatedItem]
      cases disjunction : startsWith ["or", "or-join"] inner with
      | true =>
          rw [disjunction] at read
          cases read
      | false =>
          rw [disjunction] at read
          rw [startsWith_list read, disjunction]
          exact parseList_fill inner false clause read valid written
  | .keyword _, _, _, read, _, _ | .var _, _, _, read, _, _ | .underscore, _, _, read, _, _
  | .symbol _, _, _, read, _, _ | .string _, _, _, read, _, _ | .integer _, _, _, read, _, _
  | .float _, _, _, read, _, _ | .boolean _, _, _, read, _, _ | .uuid _, _, _, read, _, _
  | .map _, _, _, read, _, _ | .nil, _, _, read, _, _ | .bindSlot _, _, _, read, _, _ => nomatch read

theorem parseNegated_fill : ∀ (items : List EdnValue) (place : String) (clauses : List WhereClause),
    parseNegated env place items = .ok clauses → Prepared.validateClausesNoAttrSlots clauses = .ok () →
    WrittenSlots env b lit (bodyOccurrences clauses) →
    parseNegated env place (EdnValue.fillItems lit items) = .ok (fillBody b clauses)
  | [], _, _, read, _, _ => by
      cases read
      rfl
  | item :: rest, place, clauses, read, valid, written => by
      obtain ⟨clause, parsed, read⟩ := parse_bind_ok read
      obtain ⟨others, parsed', made⟩ := parse_bind_ok read
      cases made
      obtain ⟨valid, valid'⟩ := validate_cons valid
      obtain ⟨written, written'⟩ := WrittenSlots.append.mp written
      rw [EdnValue.fillItems, parseNegated, parseNegatedItem_fill item place clause parsed valid written,
        parseNegated_fill rest place others parsed' valid' written']
      rfl

theorem parseOrBranch_fill : ∀ (item : EdnValue) (branch : List WhereClause),
    parseOrBranch env item = .ok branch → Prepared.validateClausesNoAttrSlots branch = .ok () →
    WrittenSlots env b lit (bodyOccurrences branch) → parseOrBranch env (item.fill lit) = .ok (fillBody b branch)
  | .vector vec, branch, read, valid, written => by
      obtain ⟨clause, parsed, made⟩ := parse_bind_ok read
      cases made
      obtain ⟨valid, _⟩ := validate_cons valid
      obtain ⟨written, _⟩ := WrittenSlots.append.mp written
      rw [EdnValue.fill, parseOrBranch, parseVector_fill parsed valid written]
      rfl
  | .list inner, branch, read, valid, written => by
      rw [parseOrBranch] at read
      rw [EdnValue.fill, parseOrBranch]
      cases grouped : startsWith ["and"] inner with
      | true =>
          rw [grouped] at read
          rw [startsWith_same grouped, if_pos rfl]
          exact parseAnd_fill inner branch read valid written
      | false =>
          rw [grouped] at read
          obtain ⟨clause, parsed, made⟩ := parse_bind_ok read
          cases made
          obtain ⟨valid, _⟩ := validate_cons valid
          obtain ⟨written, _⟩ := WrittenSlots.append.mp written
          rw [startsWith_list parsed, grouped]
          rw [parseList_fill inner true clause parsed valid written]
          rfl
  | .keyword _, _, read, _, _ | .var _, _, read, _, _ | .underscore, _, read, _, _
  | .symbol _, _, read, _, _ | .string _, _, read, _, _ | .integer _, _, read, _, _
  | .float _, _, read, _, _ | .boolean _, _, read, _, _ | .uuid _, _, read, _, _
  | .map _, _, read, _, _ | .nil, _, read, _, _ | .bindSlot _, _, read, _, _ => nomatch read

theorem parseAnd_fill : ∀ (items : List EdnValue) (branch : List WhereClause),
    parseAnd env items = .ok branch → Prepared.validateClausesNoAttrSlots branch = .ok () →
    WrittenSlots env b lit (bodyOccurrences branch) →
    parseAnd env (EdnValue.fillItems lit items) = .ok (fillBody b branch)
  | [], _, read, _, _ => nomatch read
  | [_], _, read, _, _ => nomatch read
  | _ :: first :: rest, branch, read, valid, written =>
      parseOrBranchItems_fill (first :: rest) branch read valid written

theorem parseOrBranches_fill : ∀ (items : List EdnValue) (branches : List (List WhereClause)),
    parseOrBranches env items = .ok branches → Prepared.validateBranches branches = .ok () →
    WrittenSlots env b lit (branchOccurrences branches) →
    parseOrBranches env (EdnValue.fillItems lit items) = .ok (fillBranches b branches)
  | [], _, read, _, _ => by
      cases read
      rfl
  | item :: rest, branches, read, valid, written => by
      obtain ⟨branch, parsed, read⟩ := parse_bind_ok read
      obtain ⟨others, parsed', made⟩ := parse_bind_ok read
      cases made
      obtain ⟨valid, valid'⟩ := validate_consBranch valid
      obtain ⟨written, written'⟩ := WrittenSlots.append.mp written
      rw [EdnValue.fillItems, parseOrBranches, parseOrBranch_fill item branch parsed valid written,
        parseOrBranches_fill rest others parsed' valid' written']
      rfl

theorem parseOrBranchItem_fill : ∀ (item : EdnValue) (clause : WhereClause),
    parseOrBranchItem env item = .ok clause → Prepared.validateClause clause = .ok () →
    WrittenSlots env b lit clause.occurrences → parseOrBranchItem env (item.fill lit) = .ok (clause.fill b)
  | .vector _, _, read, valid, written => parseVector_fill read valid written
  | .list inner, clause, read, valid, written => parseList_fill inner true clause read valid written
  | .keyword _, _, read, _, _ | .var _, _, read, _, _ | .underscore, _, read, _, _
  | .symbol _, _, read, _, _ | .string _, _, read, _, _ | .integer _, _, read, _, _
  | .float _, _, read, _, _ | .boolean _, _, read, _, _ | .uuid _, _, read, _, _
  | .map _, _, read, _, _ | .nil, _, read, _, _ | .bindSlot _, _, read, _, _ => nomatch read

theorem parseOrBranchItems_fill : ∀ (items : List EdnValue) (clauses : List WhereClause),
    parseOrBranchItems env items = .ok clauses → Prepared.validateClausesNoAttrSlots clauses = .ok () →
    WrittenSlots env b lit (bodyOccurrences clauses) →
    parseOrBranchItems env (EdnValue.fillItems lit items) = .ok (fillBody b clauses)
  | [], _, read, _, _ => by
      cases read
      rfl
  | item :: rest, clauses, read, valid, written => by
      obtain ⟨clause, parsed, read⟩ := parse_bind_ok read
      obtain ⟨others, parsed', made⟩ := parse_bind_ok read
      cases made
      obtain ⟨valid, valid'⟩ := validate_cons valid
      obtain ⟨written, written'⟩ := WrittenSlots.append.mp written
      rw [EdnValue.fillItems, parseOrBranchItems, parseOrBranchItem_fill item clause parsed valid written,
        parseOrBranchItems_fill rest others parsed' valid' written']
      rfl

end

end

end Minigraf
