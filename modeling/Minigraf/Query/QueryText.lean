import Minigraf.Query.Literals

/-!
The text of a whole query with its literals, and the safety checks behind it: these ask for
variables alone, and filling in a template leaves its variables as they are.
-/

namespace Minigraf

section

variable (b : String → Option BindValue)

/-! ## Variables -/

theorem asVariable_valueToEdn (v : Value) : (Prepared.valueToEdn v).asVariable = none := by
  cases v <;> rfl

theorem asVariable_fill (e : EdnValue) : (e.fill (valueAt b)).asVariable = e.asVariable := by
  cases e with
  | bindSlot name =>
      rw [EdnValue.fill, valueAt]
      cases b name with
      | none => rfl
      | some value =>
          cases value with
          | val v => exact asVariable_valueToEdn v
          | entity _ | txCount _ | timestamp _ | anyValidTime => rfl
  | keyword _ | var _ | underscore | symbol _ | string _ | integer _ | float _ | boolean _ | uuid _
  | vector _ | list _ | map _ | nil => rfl

theorem asVariable_fillAt (e : EdnValue) :
    (e.fillAt (valueAt b) (entityAt b)).asVariable = e.asVariable := by
  cases e with
  | bindSlot name =>
      rw [EdnValue.fillAt, entityAt]
      cases b name with
      | none => rfl
      | some value => cases value <;> rfl
  | keyword _ | var _ | underscore | symbol _ | string _ | integer _ | float _ | boolean _ | uuid _
  | vector _ | list _ | map _ | nil => rfl

theorem patternBoundVars_fill (p : Pattern) : patternBoundVars (p.fill b) = patternBoundVars p := by
  have attr : attrVariable (p.attr.fill b) = attrVariable p.attr := by
    cases p.attr with
    | real edn => exact asVariable_fill b edn
    | pseudo _ => rfl
  rw [patternBoundVars, patternBoundVars, Pattern.fill]
  simp only [asVariable_fillAt, asVariable_fill, attr]

theorem exprVars_fill (e : Expr) : exprVars (e.fill b) = exprVars e := by
  induction e with
  | slot name =>
      rw [Expr.fill]
      cases (b name).bind Prepared.takeVal <;> rfl
  | binOp op lhs rhs ihl ihr => rw [Expr.fill, exprVars, exprVars, ihl, ihr]
  | unaryOp op arg ih => exact ih
  | var v => rfl
  | lit v => rfl

theorem argumentVars_fill (args : List EdnValue) :
    (args.map (EdnValue.fill (valueAt b))).filterMap EdnValue.asVariable = args.filterMap EdnValue.asVariable := by
  rw [List.filterMap_map]
  exact congrArg (fun f => args.filterMap f) (funext (asVariable_fill b))

mutual

theorem outerVars_fill : ∀ clause : WhereClause, (clause.fill b).outerVars = clause.outerVars
  | .pattern p => by rw [WhereClause.fill, WhereClause.outerVars, WhereClause.outerVars, patternBoundVars_fill]
  | .ruleInvocation predicate args => by
      rw [WhereClause.fill, WhereClause.outerVars, WhereClause.outerVars, argumentVars_fill]
  | .not _ | .notJoin _ _ | .orJoin _ _ | .expr _ _ => rfl
  | .or branches => by
      rw [WhereClause.fill, WhereClause.outerVars, WhereClause.outerVars, branchOuterVars_fill branches]

theorem bodyOuterVars_fill : ∀ clauses : List WhereClause, bodyOuterVars (fillBody b clauses) = bodyOuterVars clauses
  | [] => rfl
  | clause :: clauses => by
      rw [fillBody, bodyOuterVars, bodyOuterVars, outerVars_fill clause, bodyOuterVars_fill clauses]

theorem branchOuterVars_fill : ∀ branches : List (List WhereClause),
    branchOuterVars (fillBranches b branches) = branchOuterVars branches
  | [] => rfl
  | branch :: branches => by
      rw [fillBranches, branchOuterVars, branchOuterVars, bodyOuterVars_fill branch, branchOuterVars_fill branches]

end

theorem varsInNot_fill (clause : WhereClause) : varsInNot (clause.fill b) = varsInNot clause := by
  cases clause with
  | not inner => exact bodyOuterVars_fill b inner
  | pattern _ | ruleInvocation _ _ | notJoin _ _ | or _ | orJoin _ _ | expr _ _ => rfl

/-! ## Safety -/

theorem fillBody_eq_map (clauses : List WhereClause) : fillBody b clauses = clauses.map (WhereClause.fill b) := by
  induction clauses with
  | nil => rfl
  | cons clause clauses ih => rw [fillBody, List.map_cons, ih]

theorem forM_map {α β : Type} {f : β → Except QueryError Unit} {g : α → Except QueryError Unit} {c : α → β}
    (same : ∀ a, f (c a) = g a) (l : List α) : (l.map c).forM f = l.forM g := by
  induction l with
  | nil => rfl
  | cons a l ih => rw [List.map_cons, List.forM, List.forM, same, ih]

theorem checkNotSafety_fill (clauses : List WhereClause) (bound : List Var) :
    checkNotSafety (fillBody b clauses) bound = checkNotSafety clauses bound := by
  rw [fillBody_eq_map]
  exact forM_map (fun clause => by simp only [varsInNot_fill]) clauses

theorem checkNotJoinSafety_fill (clauses : List WhereClause) (bound : List Var) :
    checkNotJoinSafety (fillBody b clauses) bound = checkNotJoinSafety clauses bound := by
  rw [fillBody_eq_map]
  refine forM_map (fun clause => ?_) clauses
  cases clause <;> rfl

mutual

theorem checkExprs_fill : ∀ (clause : WhereClause) (bound : List Var),
    (clause.fill b).checkExprs bound = clause.checkExprs bound
  | .pattern p, bound => by
      rw [WhereClause.fill, WhereClause.checkExprs, WhereClause.checkExprs]
      exact congrArg _ (congrArg _ (outerVars_fill b (.pattern p)))
  | .ruleInvocation predicate args, bound => by
      rw [WhereClause.fill, WhereClause.checkExprs, WhereClause.checkExprs]
      exact congrArg _ (congrArg _ (outerVars_fill b (.ruleInvocation predicate args)))
  | .expr e binding, bound => by
      rw [WhereClause.fill, WhereClause.checkExprs, WhereClause.checkExprs, exprVars_fill]
  | .not inner, bound => by
      rw [WhereClause.fill, WhereClause.checkExprs, WhereClause.checkExprs, checkExprBody_fill inner bound]
  | .notJoin joinVars inner, bound => by
      rw [WhereClause.fill, WhereClause.checkExprs, WhereClause.checkExprs, checkExprBody_fill inner bound]
  | .or branches, bound => by
      rw [WhereClause.fill, WhereClause.checkExprs, WhereClause.checkExprs, checkBranches_fill branches bound]
  | .orJoin joinVars branches, bound => by
      rw [WhereClause.fill, WhereClause.checkExprs, WhereClause.checkExprs, checkBranches_fill branches bound]

theorem checkExprBody_fill : ∀ (clauses : List WhereClause) (bound : List Var),
    checkExprSafetyWithBound (fillBody b clauses) bound = checkExprSafetyWithBound clauses bound
  | [], _ => rfl
  | clause :: clauses, bound => by
      rw [fillBody, checkExprSafetyWithBound, checkExprSafetyWithBound, checkExprs_fill clause bound]
      exact congrArg (_ >>= ·) (funext fun bound => checkExprBody_fill clauses bound)

theorem checkBranches_fill : ∀ (branches : List (List WhereClause)) (bound : List Var),
    checkBranches (fillBranches b branches) bound = checkBranches branches bound
  | [], _ => rfl
  | branch :: branches, bound => by
      rw [fillBranches, checkBranches, checkBranches, checkExprBody_fill branch bound,
        checkBranches_fill branches bound]

end

theorem checkSafety_fill (clauses : List WhereClause) : checkSafety (fillBody b clauses) = checkSafety clauses := by
  rw [checkSafety, checkSafety, bodyOuterVars_fill, checkNotSafety_fill, checkNotJoinSafety_fill,
    checkExprSafety, checkExprSafety, checkExprBody_fill]

end

/-! ## Find specs hold no slots -/

section

variable {f : String → Option EdnValue}

theorem fill_keyword {e : EdnValue} {k : String} (own : e.asKeyword = some k) : e.fill f = e := by
  cases e with
  | keyword k => rfl
  | var _ | underscore | symbol _ | string _ | integer _ | float _ | boolean _ | uuid _ | vector _ | list _
  | map _ | nil | bindSlot _ => cases own

theorem fill_variable {e : EdnValue} {v : Var} (own : e.asVariable = some v) : e.fill f = e := by
  cases e with
  | var v => rfl
  | keyword _ | underscore | symbol _ | string _ | integer _ | float _ | boolean _ | uuid _ | vector _ | list _
  | map _ | nil | bindSlot _ => cases own

theorem parseOver_fixed : ∀ (items : List EdnValue) {frame r : Over}, parseOver items frame = .ok r →
    EdnValue.fillItems f items = items
  | [], _, _, _ => rfl
  | [item], frame, r, read => by
      cases key : item.asKeyword with
      | none =>
          simp only [parseOver, key] at read
          cases read
      | some k => rw [EdnValue.fillItems, fill_keyword key, EdnValue.fillItems]
  | item :: next :: rest, frame, r, read => by
      cases key : item.asKeyword with
      | none =>
          simp only [parseOver, key] at read
          cases read
      | some k =>
          rw [EdnValue.fillItems, fill_keyword key]
          refine congrArg _ ?_
          simp only [parseOver, key] at read
          by_cases partition : k = ":partition-by" ∨ k = ":order-by"
          · cases var : next.asVariable with
            | none =>
                simp only [var] at read
                rcases partition with rfl | rfl <;> cases read
            | some v =>
                simp only [var] at read
                rw [EdnValue.fillItems, fill_variable var]
                rcases partition with rfl | rfl
                · exact congrArg _ (parseOver_fixed rest read)
                · exact congrArg _ (parseOver_fixed rest read)
          · rw [not_or] at partition
            rw [if_neg partition.1, if_neg partition.2] at read
            by_cases desc : k = ":desc"
            · rw [if_pos desc] at read
              exact parseOver_fixed (next :: rest) read
            · by_cases asc : k = ":asc"
              · rw [if_neg desc, if_pos asc] at read
                exact parseOver_fixed (next :: rest) read
              · rw [if_neg desc, if_neg asc] at read
                cases read

theorem parseWindowEnd_fixed {func : WindowFunc} {var : Option Var} {items : List EdnValue} {spec : FindSpec}
    (read : parseWindowEnd func var items = .ok spec) : EdnValue.fillItems f items = items := by
  match items, read with
  | [clause], read =>
      cases clause with
      | list items =>
          obtain ⟨frame, parsed, _⟩ := parse_bind_ok read
          rw [EdnValue.fillItems, EdnValue.fill, parseOver_fixed items parsed, EdnValue.fillItems]
      | keyword _ | var _ | underscore | symbol _ | string _ | integer _ | float _ | boolean _ | uuid _
      | vector _ | map _ | nil | bindSlot _ => cases read

theorem isOver_iff {e : EdnValue} : isOver e = true ↔ e.asKeyword = some ":over" := decide_eq_true_iff

theorem parseWindowExpr_fixed {elems : List EdnValue} {spec : FindSpec} (read : parseWindowExpr elems = .ok spec) :
    EdnValue.fillItems f elems = elems := by
  cases elems with
  | nil => cases read
  | cons head rest =>
      rw [parseWindowExpr] at read
      cases symbol : head.asSymbol with
      | none =>
          rw [symbol] at read
          cases read
      | some name =>
          rw [EdnValue.fillItems, asSymbol_fill symbol]
          refine congrArg _ ?_
          simp only [symbol] at read
          by_cases lag : name = "lag" ∨ name = "lead"
          · rw [if_pos lag] at read
            cases read
          · by_cases distinct : name = "count-distinct" ∨ name = "sum-distinct"
            · rw [if_neg lag, if_pos distinct] at read
              cases read
            · rw [if_neg lag, if_neg distinct] at read
              by_cases ranked : windowFunc name = .rank ∨ windowFunc name = .rowNumber
              · rw [if_pos ranked] at read
                cases rest with
                | nil => cases read
                | cons frame rest =>
                    by_cases key : isOver frame = true
                    · simp only [if_pos key] at read
                      rw [EdnValue.fillItems, fill_keyword (isOver_iff.mp key), parseWindowEnd_fixed read]
                    · simp only [if_neg key] at read
                      cases read
              · rw [if_neg ranked] at read
                cases rest with
                | nil => cases read
                | cons var rest =>
                    cases named : var.asVariable with
                    | none =>
                        simp only [named] at read
                        cases read
                    | some v =>
                        simp only [named] at read
                        cases rest with
                        | nil => cases read
                        | cons frame rest =>
                            by_cases key : isOver frame = true
                            · simp only [if_pos key] at read
                              rw [EdnValue.fillItems, fill_variable named, EdnValue.fillItems,
                                fill_keyword (isOver_iff.mp key), parseWindowEnd_fixed read]
                            · simp only [if_neg key] at read
                              cases read

theorem parseAggregate_fixed {elems : List EdnValue} {spec : FindSpec} (read : parseAggregate elems = .ok spec) :
    EdnValue.fillItems f elems = elems := by
  unfold parseAggregate at read
  by_cases frame : elems.any isOver = true
  · rw [if_pos frame] at read
    exact parseWindowExpr_fixed read
  · rw [if_neg frame] at read
    match elems, read with
    | [func, var], read =>
        cases symbol : func.asSymbol with
        | none =>
            simp only [symbol] at read
            cases read
        | some name =>
            simp only [symbol] at read
            by_cases windowed : isWindowOnly name = true
            · rw [if_pos windowed] at read
              cases read
            · rw [if_neg windowed] at read
              cases named : var.asVariable with
              | none =>
                  simp only [named] at read
                  cases read
              | some v =>
                  rw [EdnValue.fillItems, asSymbol_fill symbol, EdnValue.fillItems, fill_variable named,
                    EdnValue.fillItems]

theorem parseFindSpec_fixed {e : EdnValue} {spec : FindSpec} (read : parseFindSpec e = .ok spec) : e.fill f = e := by
  cases e with
  | var v => rfl
  | list elems => exact congrArg _ (parseAggregate_fixed read)
  | keyword _ | underscore | symbol _ | string _ | integer _ | float _ | boolean _ | uuid _ | vector _
  | map _ | nil | bindSlot _ => cases read

end

/-! ## The loop over the query -/

section

variable {env : ParserEnv} {b : String → Option BindValue} {lit : String → Option EdnValue}

def QueryParts.fill (b : String → Option BindValue) (q : QueryParts) : QueryParts :=
  { q with asOf := fillAsOf b q.asOf, validAt := fillValidAt b q.validAt, whereClauses := fillBody b q.whereClauses }

/-- The slot an `:as-of` or a `:valid-at` takes. -/
def clockSlot : Expecting → EdnValue → List Occurrence
  | .asOf, .bindSlot name => [(.asOf, name)]
  | .validAt, .bindSlot name => [(.validAt, name)]
  | _, _ => []

theorem QueryParts.check_fill (q : QueryParts) : (q.fill b).check = q.check := by
  rw [check, check, fill]
  simp only [checkSafety_fill, bodyOuterVars_fill]

theorem bodyOccurrences_append (clauses clauses' : List WhereClause) :
    bodyOccurrences (clauses ++ clauses') = bodyOccurrences clauses ++ bodyOccurrences clauses' := by
  induction clauses with
  | nil => rfl
  | cons clause clauses ih => rw [List.cons_append, bodyOccurrences, bodyOccurrences, ih, List.append_assoc]

theorem fillBody_append (clauses clauses' : List WhereClause) :
    fillBody b (clauses ++ clauses') = fillBody b clauses ++ fillBody b clauses' := by
  rw [fillBody_eq_map, fillBody_eq_map, fillBody_eq_map, List.map_append]

theorem validate_concat {clauses : List WhereClause} {clause : WhereClause}
    (valid : Prepared.validateClausesNoAttrSlots (clauses ++ [clause]) = .ok ()) :
    Prepared.validateClause clause = .ok () := by
  induction clauses with
  | nil => exact (validate_cons valid).1
  | cons first clauses ih => exact ih (validate_cons valid).2

theorem parseAsOf_fill {e : EdnValue} {asOf : AsOf} (read : parseAsOf env e = .ok asOf)
    (written : WrittenSlots env b lit (clockSlot .asOf e)) :
    ∃ asOf', parseAsOf env (e.fill lit) = .ok asOf' ∧ fillAsOf b (some asOf) = some asOf' := by
  cases e with
  | bindSlot name =>
      cases read
      obtain ⟨v, e, bound, there, literal⟩ := written _ List.mem_cons_self
      cases literal with
      | counter i natural =>
          refine ⟨.counter (UInt64.ofNat i.toInt.toNat), ?_, ?_⟩
          · rw [EdnValue.fill, there]
            exact if_pos natural
          · rw [fillAsOf, bound]
            rfl
      | asOf t text reads =>
          refine ⟨.timestamp t, ?_, ?_⟩
          · rw [EdnValue.fill, there]
            simp only [Option.getD_some, parseAsOf, timestampOf, reads]
            rfl
          · rw [fillAsOf, bound]
            rfl
  | integer n =>
      refine ⟨asOf, read, ?_⟩
      rw [parseAsOf] at read
      by_cases natural : 0 ≤ n
      · rw [if_pos natural] at read
        cases read
        rfl
      · rw [if_neg natural] at read
        cases read
  | string text =>
      refine ⟨asOf, read, ?_⟩
      obtain ⟨t, _, made⟩ := parse_bind_ok read
      cases made
      rfl
  | keyword _ | var _ | underscore | symbol _ | float _ | boolean _ | uuid _ | vector _ | list _ | map _
  | nil => cases read

theorem parseValidAt_fill {e : EdnValue} {validAt : ValidAt} (read : parseValidAt env e = .ok validAt)
    (written : WrittenSlots env b lit (clockSlot .validAt e)) :
    ∃ validAt', parseValidAt env (e.fill lit) = .ok validAt' ∧ fillValidAt b (some validAt) = some validAt' := by
  cases e with
  | bindSlot name =>
      cases read
      obtain ⟨v, e, bound, there, literal⟩ := written _ List.mem_cons_self
      cases literal with
      | validAt t text reads =>
          refine ⟨.timestamp t, ?_, ?_⟩
          · rw [EdnValue.fill, there]
            simp only [Option.getD_some, parseValidAt, timestampOf, reads]
            rfl
          · rw [fillValidAt, bound]
            rfl
      | anyValidTime =>
          refine ⟨.anyValidTime, ?_, ?_⟩
          · rw [EdnValue.fill, there]
            rfl
          · rw [fillValidAt, bound]
            rfl
  | keyword k =>
      refine ⟨validAt, read, ?_⟩
      rw [parseValidAt] at read
      by_cases any : k = ":any-valid-time"
      · rw [if_pos any] at read
        cases read
        rfl
      · rw [if_neg any] at read
        cases read
  | string text =>
      refine ⟨validAt, read, ?_⟩
      obtain ⟨t, _, made⟩ := parse_bind_ok read
      cases made
      rfl
  | integer _ | var _ | underscore | symbol _ | float _ | boolean _ | uuid _ | vector _ | list _ | map _
  | nil => cases read

theorem parseLimit_fixed {f : String → Option EdnValue} {key : String} {e : EdnValue} {n : Nat}
    (read : parseLimit key e = .ok n) : e.fill f = e := by
  cases e with
  | integer n => rfl
  | keyword _ | var _ | underscore | symbol _ | string _ | float _ | boolean _ | uuid _ | vector _ | list _
  | map _ | nil | bindSlot _ => cases read

theorem keyword_fill {q q' : QueryParts} {k : String} (read : q.keyword k = .ok q') :
    (q.fill b).keyword k = .ok (q'.fill b) := by
  unfold QueryParts.keyword at read ⊢
  by_cases asOf : k = ":as-of"
  · rw [if_pos asOf] at read ⊢
    cases read
    rfl
  · rw [if_neg asOf] at read ⊢
    by_cases validAt : k = ":valid-at"
    · rw [if_pos validAt] at read ⊢
      cases read
      rfl
    · rw [if_neg validAt] at read ⊢
      by_cases any : k = ":any-valid-time"
      · rw [if_pos any] at read ⊢
        cases read
        rfl
      · rw [if_neg any] at read ⊢
        by_cases derived : k = ":max-derived-facts"
        · rw [if_pos derived] at read ⊢
          cases twice : q.maxDerivedFacts.isSome with
          | true =>
              rw [twice] at read
              cases read
          | false =>
              rw [twice] at read
              cases read
              rw [if_neg (by simpa [QueryParts.fill] using twice)]
              rfl
        · rw [if_neg derived] at read ⊢
          by_cases results : k = ":max-results"
          · rw [if_pos results] at read ⊢
            cases twice : q.maxResults.isSome with
            | true =>
                rw [twice] at read
                cases read
            | false =>
                rw [twice] at read
                cases read
                rw [if_neg (by simpa [QueryParts.fill] using twice)]
                rfl
          · rw [if_neg results] at read ⊢
            by_cases grouping : k = ":with"
            · rw [if_pos grouping] at read ⊢
              cases read
              rfl
            · rw [if_neg grouping] at read ⊢
              cases read
              rfl

theorem parseWhereItem_fill {e : EdnValue} {clause : WhereClause} (read : parseWhereItem env e = .ok clause)
    (valid : Prepared.validateClause clause = .ok ()) (written : WrittenSlots env b lit clause.occurrences) :
    parseWhereItem env (e.fill lit) = .ok (clause.fill b) := by
  cases e with
  | vector vec => exact parseVector_fill read valid written
  | list list => exact parseList_fill list true clause read valid written
  | keyword _ | var _ | underscore | symbol _ | string _ | integer _ | float _ | boolean _ | uuid _ | map _
  | nil | bindSlot _ => cases read

theorem item_fill {q q' : QueryParts} {e : EdnValue} (read : q.item env e = .ok q')
    (valid : Prepared.validateClausesNoAttrSlots q'.whereClauses = .ok ())
    (written : WrittenSlots env b lit (bodyOccurrences q'.whereClauses)) :
    (q.fill b).item env (e.fill lit) = .ok (q'.fill b) := by
  rw [QueryParts.item] at read ⊢
  by_cases find : q.current = some ":find"
  · rw [if_pos find] at read
    obtain ⟨spec, parsed, made⟩ := parse_bind_ok read
    cases made
    rw [if_pos (by exact find), parseFindSpec_fixed parsed, parsed]
    rfl
  · rw [if_neg find] at read
    by_cases body : q.current = some ":where"
    · rw [if_pos body] at read
      obtain ⟨clause, parsed, made⟩ := parse_bind_ok read
      cases made
      simp only [bodyOccurrences_append] at written
      have own : WrittenSlots env b lit clause.occurrences :=
        (WrittenSlots.append.mp (WrittenSlots.append.mp written).2).1
      rw [if_neg (by exact find), if_pos (by exact body), parseWhereItem_fill parsed (validate_concat valid) own]
      change Except.ok _ = Except.ok _
      simp only [QueryParts.fill, fillBody_append]
      rfl
    · rw [if_neg body] at read
      cases read

/-- One value of the text. -/
theorem step_fill {q q' : QueryParts} {e : EdnValue} (read : q.step env e = .ok q')
    (clock : WrittenSlots env b lit (clockSlot q.expecting e))
    (valid : Prepared.validateClausesNoAttrSlots q'.whereClauses = .ok ())
    (written : WrittenSlots env b lit (bodyOccurrences q'.whereClauses)) :
    (q.fill b).step env (e.fill lit) = .ok (q'.fill b) := by
  have expecting : (q.fill b).expecting = q.expecting := rfl
  unfold QueryParts.step at read ⊢
  rw [expecting]
  cases state : q.expecting with
  | asOf =>
      simp only [state] at read clock ⊢
      obtain ⟨asOf, parsed, made⟩ := parse_bind_ok read
      cases made
      obtain ⟨asOf', parsed', same⟩ := parseAsOf_fill parsed clock
      rw [parsed']
      exact congrArg (fun a => Except.ok { q.fill b with asOf := a, expecting := .item }) same.symm
  | validAt =>
      simp only [state] at read clock ⊢
      obtain ⟨validAt, parsed, made⟩ := parse_bind_ok read
      cases made
      obtain ⟨validAt', parsed', same⟩ := parseValidAt_fill parsed clock
      rw [parsed']
      exact congrArg (fun a => Except.ok { q.fill b with validAt := a, expecting := .item }) same.symm
  | maxDerivedFacts =>
      simp only [state] at read ⊢
      obtain ⟨n, parsed, made⟩ := parse_bind_ok read
      cases made
      rw [parseLimit_fixed parsed, parsed]
      rfl
  | maxResults =>
      simp only [state] at read ⊢
      obtain ⟨n, parsed, made⟩ := parse_bind_ok read
      cases made
      rw [parseLimit_fixed parsed, parsed]
      rfl
  | withVar =>
      simp only [state] at read ⊢
      cases e with
      | keyword k => exact keyword_fill read
      | var v =>
          cases read
          rfl
      | underscore | symbol _ | string _ | integer _ | float _ | boolean _ | uuid _ | vector _ | list _
      | map _ | nil | bindSlot _ => cases read
  | item =>
      simp only [state] at read ⊢
      cases e with
      | keyword k => exact keyword_fill read
      | vector vec => exact item_fill read valid written
      | list items => exact item_fill read valid written
      | bindSlot name =>
          have none : ∀ q₁, q.item env (.bindSlot name) ≠ .ok q₁ := by
            intro q₁ read
            rw [QueryParts.item] at read
            by_cases find : q.current = some ":find"
            · rw [if_pos find] at read
              cases read
            · by_cases body : q.current = some ":where"
              · rw [if_neg find, if_pos body] at read
                cases read
              · rw [if_neg find, if_neg body] at read
                cases read
          exact absurd read (none q')
      | var _ | underscore | symbol _ | string _ | integer _ | float _ | boolean _ | uuid _ | map _ | nil =>
          exact item_fill read valid written

variable (env) in
/-- The slots a text has behind `:as-of` and `:valid-at`, those a later one overrides too. -/
def readClocks (q : QueryParts) : List EdnValue → List Occurrence
  | [] => []
  | e :: rest => clockSlot q.expecting e ++
      match q.step env e with
      | .ok q' => readClocks q' rest
      | .error _ => []

theorem keyword_grows {q q' : QueryParts} {k : String} (read : q.keyword k = .ok q') :
    q'.whereClauses = q.whereClauses := by
  unfold QueryParts.keyword at read
  by_cases derived : k = ":max-derived-facts"
  · subst derived
    cases twice : q.maxDerivedFacts.isSome with
    | true =>
        simp only [twice] at read
        cases read
    | false =>
        simp only [twice] at read
        cases read
        rfl
  · by_cases results : k = ":max-results"
    · subst results
      cases twice : q.maxResults.isSome with
      | true =>
          simp only [twice] at read
          cases read
      | false =>
          simp only [twice] at read
          cases read
          rfl
    · rw [if_neg derived, if_neg results] at read
      split_ifs at read <;> cases read <;> rfl

theorem item_grows {q q' : QueryParts} {e : EdnValue} (read : q.item env e = .ok q') :
    ∃ more, q'.whereClauses = q.whereClauses ++ more := by
  rw [QueryParts.item] at read
  by_cases find : q.current = some ":find"
  · rw [if_pos find] at read
    obtain ⟨spec, _, made⟩ := parse_bind_ok read
    cases made
    exact ⟨[], (List.append_nil _).symm⟩
  · rw [if_neg find] at read
    by_cases body : q.current = some ":where"
    · rw [if_pos body] at read
      obtain ⟨clause, _, made⟩ := parse_bind_ok read
      cases made
      exact ⟨[clause], rfl⟩
    · rw [if_neg body] at read
      cases read

/-- Clauses are only added. -/
theorem step_grows {q q' : QueryParts} {e : EdnValue} (read : q.step env e = .ok q') :
    ∃ more, q'.whereClauses = q.whereClauses ++ more := by
  unfold QueryParts.step at read
  cases state : q.expecting with
  | asOf | validAt | maxDerivedFacts | maxResults =>
      simp only [state] at read
      obtain ⟨_, _, made⟩ := parse_bind_ok read
      cases made
      exact ⟨[], (List.append_nil _).symm⟩
  | withVar =>
      simp only [state] at read
      cases e with
      | keyword k => exact ⟨[], by rw [keyword_grows read, List.append_nil]⟩
      | var v =>
          cases read
          exact ⟨[], (List.append_nil _).symm⟩
      | underscore | symbol _ | string _ | integer _ | float _ | boolean _ | uuid _ | vector _ | list _
      | map _ | nil | bindSlot _ => cases read
  | item =>
      simp only [state] at read
      cases e with
      | keyword k => exact ⟨[], by rw [keyword_grows read, List.append_nil]⟩
      | var _ | underscore | symbol _ | string _ | integer _ | float _ | boolean _ | uuid _ | vector _
      | list _ | map _ | nil | bindSlot _ => exact item_grows read

theorem steps_grow {items : List EdnValue} {q r : QueryParts} (read : items.foldlM (QueryParts.step env) q = .ok r) :
    ∃ more, r.whereClauses = q.whereClauses ++ more := by
  induction items generalizing q with
  | nil =>
      cases read
      exact ⟨[], (List.append_nil _).symm⟩
  | cons e items ih =>
      rw [List.foldlM_cons] at read
      obtain ⟨q', first, rest⟩ := parse_bind_ok read
      obtain ⟨more, grown⟩ := step_grows first
      obtain ⟨more', grown'⟩ := ih rest
      exact ⟨more ++ more', by rw [grown', grown, List.append_assoc]⟩

theorem validate_left {clauses clauses' : List WhereClause}
    (valid : Prepared.validateClausesNoAttrSlots (clauses ++ clauses') = .ok ()) :
    Prepared.validateClausesNoAttrSlots clauses = .ok () := by
  induction clauses with
  | nil => rfl
  | cons clause clauses ih =>
      obtain ⟨here, rest⟩ := validate_cons valid
      rw [Prepared.validateClausesNoAttrSlots, here]
      exact ih rest

/-- The text read to its end. -/
theorem steps_fill {items : List EdnValue} {q r : QueryParts}
    (read : items.foldlM (QueryParts.step env) q = .ok r) (clocks : WrittenSlots env b lit (readClocks env q items))
    (valid : Prepared.validateClausesNoAttrSlots r.whereClauses = .ok ())
    (written : WrittenSlots env b lit (bodyOccurrences r.whereClauses)) :
    (EdnValue.fillItems lit items).foldlM (QueryParts.step env) (q.fill b) = .ok (r.fill b) := by
  induction items generalizing q with
  | nil =>
      cases read
      rfl
  | cons e items ih =>
      rw [List.foldlM_cons] at read
      obtain ⟨q', first, rest⟩ := parse_bind_ok read
      rw [readClocks, first] at clocks
      obtain ⟨clock, clocks⟩ := WrittenSlots.append.mp clocks
      obtain ⟨more, grown⟩ := steps_grow rest
      have valid' : Prepared.validateClausesNoAttrSlots q'.whereClauses = .ok () := by
        rw [grown] at valid
        exact validate_left valid
      have written' : WrittenSlots env b lit (bodyOccurrences q'.whereClauses) := by
        rw [grown, bodyOccurrences_append] at written
        exact (WrittenSlots.append.mp written).1
      rw [EdnValue.fillItems, List.foldlM_cons, step_fill first clock valid' written']
      exact ih rest clocks

theorem parseQuery_vector {elements : List EdnValue} {template : DatalogQuery}
    (read : parseQuery env elements = .ok template) :
    ∃ items r, elements = [.vector items] ∧ items.foldlM (QueryParts.step env) .start = .ok r ∧
      r.expecting.missing = none ∧ r.check = .ok () ∧ template = r.query := by
  match elements, read with
  | [e], read =>
      cases e with
      | vector items =>
          obtain ⟨r, run, read⟩ := parse_bind_ok read
          cases ends : r.expecting.missing with
          | some e =>
              rw [ends] at read
              cases read
          | none =>
              rw [ends] at read
              obtain ⟨_, checked, made⟩ := parse_bind_ok read
              cases made
              exact ⟨items, r, rfl, run, ends, checked, rfl⟩
      | keyword _ | var _ | underscore | symbol _ | string _ | integer _ | float _ | boolean _ | uuid _ | list _
      | map _ | nil | bindSlot _ => cases read
  | first :: second :: rest, read => cases first <;> cases read

variable (env) in
/-- The slots of a text behind `:as-of` and `:valid-at`. -/
def textClocks : List EdnValue → List Occurrence
  | [.vector items] => readClocks env .start items
  | _ => []

/-- The text with its literals is read as the template filled in. -/
theorem parseQuery_fill {elements : List EdnValue} {template : DatalogQuery}
    (read : parseQuery env elements = .ok template)
    (valid : Prepared.validateClausesNoAttrSlots template.whereClauses = .ok ())
    (clocks : WrittenSlots env b lit (textClocks env elements))
    (written : WrittenSlots env b lit (bodyOccurrences template.whereClauses)) :
    parseQuery env (EdnValue.fillItems lit elements) = .ok (template.fill b) := by
  obtain ⟨items, r, rfl, run, ends, checked, rfl⟩ := parseQuery_vector read
  have filled := steps_fill run clocks valid written
  have checked' : (r.fill b).check = .ok () := by rw [QueryParts.check_fill, checked]
  have ends' : (r.fill b).expecting.missing = none := ends
  change parseQueryVector env (EdnValue.fillItems lit items) = _
  rw [parseQueryVector]
  change (EdnValue.fillItems lit items).foldlM (QueryParts.step env) (QueryParts.fill b .start) >>= _ = _
  rw [filled]
  simp only [bind, Except.bind, ends', checked']
  rfl

end

end Minigraf
