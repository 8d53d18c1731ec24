import Mathlib.Data.List.Forall2
import Minigraf.Query.Joining
import Minigraf.Query.Optimizer

/-!
The plan loop of `execute_query` in `src/query/datalog/executor.rs`: from one empty row,
patterns extend the rows, expressions filter or extend them, negations filter them.
-/

namespace Minigraf
namespace PatternMatcher

variable (m : PatternMatcher)

def runClause (rows : List Bindings) : WhereClause → List Bindings
  | .pattern p => m.matchWithHintSeeded rows p
  | .expr expr binding => rows.filterMap (applyExpr m.env expr binding)
  | .not body => m.applyNotClause rows body
  | .notJoin joinVars clauses => m.applyNotJoinClause rows joinVars clauses
  | _ => rows

def runClauses (rows : List Bindings) (clauses : List WhereClause) : List Bindings :=
  clauses.foldl m.runClause rows

/-- The rows the plan loop hands on to `apply_or_clauses`. -/
def planRows (build : Build) (clauses : List WhereClause) : List Bindings :=
  m.runClauses [[]] ((plan build clauses).1.map Prod.fst)

end PatternMatcher

/-! ## What a clause reads of a row -/

def AgreeOn (vs : List Var) (b c : Bindings) : Prop := ∀ v ∈ vs, b.lookup (.var v) = c.lookup (.var v)

theorem AgreeOn.mono {vs ws : List Var} {b c : Bindings} (h : AgreeOn ws b c) (sub : vs ⊆ ws) :
    AgreeOn vs b c :=
  fun v mem => h v (sub mem)

theorem AgreeOn.cons {vs : List Var} {b c : Bindings} (h : AgreeOn vs b c) (entry : Key × Value) :
    AgreeOn vs (entry :: b) (entry :: c) := by
  intro v mem
  rw [List.lookup_cons, List.lookup_cons, h v mem]

theorem AgreeOn.append {vs : List Var} {b c : Bindings} (h : AgreeOn vs b c) (r : Bindings) :
    AgreeOn vs (r ++ b) (r ++ c) := by
  intro v mem
  rw [List.lookup_append, List.lookup_append, h v mem]

/-- An expression depends on the variables in it. -/
theorem evalExpr_congr (env : Env) {expr : Expr} {b c : Bindings} (h : AgreeOn (exprVars expr) b c) :
    evalExpr env expr b = evalExpr env expr c := by
  induction expr with
  | var v => exact h v List.mem_cons_self
  | lit _ | slot _ => rfl
  | binOp op lhs rhs ihl ihr =>
      simp only [evalExpr, ihl (h.mono (List.subset_append_left _ _)),
        ihr (h.mono (List.subset_append_right _ _))]
  | unaryOp op arg ih => simp only [evalExpr, ih h]

/-- Two rows that agree on what is read pass an expression alike. -/
theorem applyExpr_congr (env : Env) {expr : Expr} {binding : Option Var} {vs : List Var} {b c : Bindings}
    (reads : exprVars expr ⊆ vs) (h : AgreeOn vs b c) :
    Option.Rel (AgreeOn vs) (applyExpr env expr binding b) (applyExpr env expr binding c) := by
  unfold applyExpr
  rw [evalExpr_congr env (h.mono reads)]
  cases evalExpr env expr c with
  | none => exact .none
  | some value =>
      cases binding with
      | some out => exact .some (h.cons _)
      | none =>
          simp only
          split
          · exact .some h
          · exact .none

theorem forall₂_filterMap {α : Type} {R : α → α → Prop} {f : α → Option α} {xs ys : List α}
    (h : List.Forall₂ R xs ys) (step : ∀ x y, R x y → Option.Rel R (f x) (f y)) :
    List.Forall₂ R (xs.filterMap f) (ys.filterMap f) := by
  induction h with
  | nil => exact .nil
  | @cons x y xs ys first _ ih =>
      have here := step x y first
      cases hx : f x with
      | none =>
          cases hy : f y with
          | none =>
              rw [List.filterMap_cons_none hx, List.filterMap_cons_none hy]
              exact ih
          | some _ =>
              rw [hx, hy] at here
              cases here
      | some a =>
          cases hy : f y with
          | none =>
              rw [hx, hy] at here
              cases here
          | some b =>
              rw [hx, hy] at here
              rw [List.filterMap_cons_some hx, List.filterMap_cons_some hy]
              cases here with
              | some related => exact .cons related ih

theorem refVars_subset {body : List WhereClause} {clause : WhereClause} (mem : clause ∈ body) :
    clause.refVars ⊆ clauseRefVars body := by
  induction body with
  | nil => cases mem
  | cons first body ih =>
      rw [clauseRefVars]
      cases mem with
      | head => exact List.subset_append_left _ _
      | tail _ mem => exact List.Subset.trans (ih mem) (List.subset_append_right _ _)

/-- The expressions of a body leave rows that agree on its variables in agreement. -/
theorem applyExprs_congr (env : Env) {body : List WhereClause} {vs : List Var} {rows rows' : List Bindings}
    (reads : ∀ clause ∈ body, clause.refVars ⊆ vs) (h : List.Forall₂ (AgreeOn vs) rows rows') :
    List.Forall₂ (AgreeOn vs) (body.foldl (applyExprClause env) rows)
      (body.foldl (applyExprClause env) rows') := by
  induction body generalizing rows rows' with
  | nil => exact h
  | cons clause body ih =>
      refine ih (fun c mem => reads c (List.mem_cons_of_mem _ mem)) ?_
      cases clause with
      | expr expr binding =>
          have here := reads _ List.mem_cons_self
          rw [WhereClause.refVars] at here
          exact forall₂_filterMap h fun b c agree =>
            applyExpr_congr env (List.Subset.trans (List.subset_append_left _ _) here) agree
      | pattern _ | ruleInvocation _ _ | not _ | notJoin _ _ | or _ | orJoin _ _ => exact h

namespace PatternMatcher

variable (m : PatternMatcher)

theorem survives_congr {body : List WhereClause} {vs : List Var} {rows rows' : List Bindings}
    (reads : ∀ clause ∈ body, clause.refVars ⊆ vs) (h : List.Forall₂ (AgreeOn vs) rows rows') :
    m.survives rows body = m.survives rows' body := by
  unfold survives applyExprClauses
  cases body.findSome? (unknownPredicate m.env) with
  | some name => rfl
  | none =>
      have same := (applyExprs_congr m.env reads h).length_eq
      simp only [pure, Except.pure]
      cases left : body.foldl (applyExprClause m.env) rows with
      | nil =>
          rw [left] at same
          rw [List.length_eq_zero_iff.1 same.symm]
      | cons b bs =>
          cases right : body.foldl (applyExprClause m.env) rows' with
          | nil =>
              rw [left, right] at same
              cases same
          | cons c cs => rfl

end PatternMatcher

theorem mem_patternBoundVars {p : Pattern} {v : Var} : v ∈ patternBoundVars p ↔ p.Mentions v := by
  rcases p with ⟨entity, attr, value⟩
  have component : ∀ edn : EdnValue, v ∈ edn.asVariable.toList ↔ edn = .var v := by
    intro edn
    cases edn <;> simp [EdnValue.asVariable, eq_comm]
  have inAttr : v ∈ (attrVariable attr).toList ↔ attr = .real (.var v) := by
    cases attr with
    | real edn => rw [attrVariable, component, AttributeSpec.real.injEq]
    | pseudo q => simp [attrVariable]
  simp only [patternBoundVars, Pattern.Mentions, List.mem_append, component, inAttr, or_assoc]

theorem substituteWith_congr {toEdn : Value → EdnValue} {b c : Bindings} {component : EdnValue}
    (h : ∀ v, component = .var v → b.lookup (.var v) = c.lookup (.var v)) :
    substituteWith toEdn b component = substituteWith toEdn c component := by
  cases component with
  | var v => simp only [substituteWith, h v rfl]
  | keyword _ | underscore | symbol _ | string _ | integer _ | float _ | boolean _ | uuid _ | vector _ | list _ | map _
  | nil | bindSlot _ => rfl

theorem substitutePatternWith_congr {toEdn : Value → EdnValue} {b c : Bindings} {p : Pattern}
    (h : AgreeOn (patternBoundVars p) b c) :
    substitutePatternWith toEdn b p = substitutePatternWith toEdn c p := by
  have agree : ∀ v, p.Mentions v → b.lookup (.var v) = c.lookup (.var v) :=
    fun v mentions => h v (mem_patternBoundVars.2 mentions)
  rcases p with ⟨entity, attr, value⟩
  simp only [substitutePatternWith, Pattern.mk.injEq]
  refine ⟨substituteWith_congr fun v here => agree v (.inl here), ?_,
    substituteWith_congr fun v here => agree v (.inr (.inr here))⟩
  cases attr with
  | real edn =>
      exact congrArg AttributeSpec.real
        (substituteWith_congr fun v here => agree v (.inr (.inl (congrArg AttributeSpec.real here))))
  | pseudo q => rfl

theorem substituteBody_congr {body : List WhereClause} {b c : Bindings}
    (h : AgreeOn (clauseRefVars body) b c) : substituteBody body b = substituteBody body c := by
  refine List.filterMap_congr fun clause mem => ?_
  have here := h.mono (refVars_subset mem)
  cases clause with
  | pattern p => exact congrArg some (substitutePatternWith_congr here)
  | ruleInvocation _ _ | not _ | notJoin _ _ | expr _ _ | or _ | orJoin _ _ => rfl

namespace PatternMatcher

variable (m : PatternMatcher)

theorem notBodyMatches_congr {body : List WhereClause} {b c : Bindings}
    (h : AgreeOn (clauseRefVars body) b c) : m.notBodyMatches body b = m.notBodyMatches body c := by
  unfold notBodyMatches bodyRows
  rw [substituteBody_congr h]
  refine m.survives_congr (fun clause mem => refVars_subset mem) ?_
  split
  · exact .cons h .nil
  · rw [List.forall₂_map_left_iff, List.forall₂_map_right_iff]
    exact List.forall₂_same.2 fun r _ => h.append r

/-! ## The variables of a match -/

theorem mentions_of_substituted {b : Bindings} {p : Pattern} {v : Var}
    (h : (applyBindingsToPattern b p).Mentions v) : p.Mentions v := by
  have component : ∀ c : EdnValue, substituteWith valueToEdn b c = .var v → c = .var v := by
    intro c same
    cases c with
    | var w =>
        unfold substituteWith at same
        cases bound : b.lookup (.var w) with
        | none =>
            simp only [bound] at same
            exact same
        | some x =>
            simp only [bound] at same
            cases x <;> cases same
    | keyword _ | underscore | symbol _ | string _ | integer _ | float _ | boolean _ | uuid _ | vector _ | list _ | map _
    | nil | bindSlot _ => exact same
  rcases p with ⟨entity, attr, value⟩
  rcases h with here | here | here
  · exact .inl (component _ here)
  · cases attr with
    | real edn => exact .inr (.inl (congrArg _ (component _ (AttributeSpec.real.inj here))))
    | pseudo q => cases here
  · exact .inr (.inr (component _ here))

theorem mentions_of_mem_matchFact {f : Fact} {p : Pattern} {cand : Bindings}
    (h : m.matchFactAgainstPattern f p = some cand) {v : Var} {x : Value} (mem : (.var v, x) ∈ cand) :
    p.Mentions v := by
  obtain ⟨n, -, mentions⟩ := (m.matchFact_bound h v).1 ⟨x, m.matchFact_tidy h _ x mem⟩
  exact mentions

theorem mentions_of_mem_matchPatternWithBindings {p : Pattern} {b b' : Bindings}
    (h : b' ∈ m.matchPatternWithBindings p b) {v : Var} {x : Value} (mem : (.var v, x) ∈ b') :
    (.var v, x) ∈ b ∨ p.Mentions v := by
  unfold matchPatternWithBindings at h
  cases stored : m.storedValue p b with
  | some value =>
      simp only [stored] at h
      rcases m.matchComponent_cases (Option.mem_toList.1 h) with
        ⟨n, here, ⟨_, _, _, rfl⟩ | ⟨-, rfl⟩⟩ | ⟨-, rfl⟩
      · exact .inl mem
      · rcases List.mem_cons.1 mem with same | mem
        · cases same
          exact .inr (.inr (.inr here))
        · exact .inl mem
      · exact .inl mem
  | none =>
      simp only [stored] at h
      obtain ⟨f, -, made⟩ := List.mem_filterMap.1 h
      obtain ⟨additional, matched, made⟩ := Option.bind_eq_some_iff.1 made
      split at made
      case isFalse => cases made
      case isTrue =>
          cases made
          rcases List.mem_append.1 mem with mem | mem
          · exact .inr (mentions_of_substituted (m.mentions_of_mem_matchFact matched mem))
          · exact .inl mem

/-- A join adds variables of its pattern only. -/
theorem mentions_of_mem_joinWithPattern {p : Pattern} {rows : List Bindings} {b' : Bindings}
    (h : b' ∈ m.joinWithPattern rows p) {v : Var} {x : Value} (mem : (.var v, x) ∈ b') :
    (∃ b ∈ rows, (.var v, x) ∈ b) ∨ p.Mentions v := by
  unfold joinWithPattern at h
  cases join : joinVar rows p with
  | none =>
      simp only [join] at h
      obtain ⟨b, hb, h⟩ := List.mem_flatMap.1 h
      exact (m.mentions_of_mem_matchPatternWithBindings h mem).imp_left fun old => ⟨b, hb, old⟩
  | some jvar =>
      simp only [join] at h
      obtain ⟨b, hb, h⟩ := List.mem_flatMap.1 h
      unfold PatternMatcher.probe at h
      cases bound : b.lookup jvar with
      | none =>
          simp only [bound] at h
          exact (m.mentions_of_mem_matchPatternWithBindings h mem).imp_left fun old => ⟨b, hb, old⟩
      | some probeVal =>
          simp only [bound] at h
          obtain ⟨cand, among, merged⟩ := List.mem_filterMap.1 h
          obtain ⟨f, -, matched⟩ := List.mem_filterMap.1 (List.mem_filter.1 among).1
          obtain ⟨-, rfl⟩ := m.agrees_of_mergeCandidate merged
          rcases List.mem_append.1 mem with mem | mem
          · rcases List.mem_append.1 mem with mem | mem
            · cases (List.mem_filter.1 mem).2
            · exact .inl ⟨b, hb, mem⟩
          · exact .inr (m.mentions_of_mem_matchFact matched mem)

theorem mentions_of_mem_foldl {ps : List Pattern} {rows : List Bindings} {b' : Bindings}
    (h : b' ∈ ps.foldl m.joinWithPattern rows) {v : Var} {x : Value} (mem : (.var v, x) ∈ b') :
    (∃ b ∈ rows, (.var v, x) ∈ b) ∨ ∃ p ∈ ps, p.Mentions v := by
  induction ps generalizing rows with
  | nil => exact .inl ⟨b', h, mem⟩
  | cons p ps ih =>
      rcases ih h with ⟨b, hb, old⟩ | ⟨q, hq, mentions⟩
      · exact (m.mentions_of_mem_joinWithPattern hb old).imp_right fun here =>
          ⟨p, List.mem_cons_self, here⟩
      · exact .inr ⟨q, List.mem_cons_of_mem _ hq, mentions⟩

/-- The rows of several patterns hold variables of theirs only. -/
theorem mentions_of_mem_matchPatterns {ps : List Pattern} {b : Bindings} (h : b ∈ m.matchPatterns ps)
    {v : Var} {x : Value} (mem : (.var v, x) ∈ b) : ∃ p ∈ ps, p.Mentions v := by
  cases ps with
  | nil =>
      cases List.mem_singleton.1 h
      cases mem
  | cons p ps =>
      rcases m.mentions_of_mem_foldl h mem with ⟨c, hc, old⟩ | ⟨q, hq, mentions⟩
      · obtain ⟨f, -, matched⟩ := List.mem_filterMap.1 hc
        exact ⟨p, List.mem_cons_self, m.mentions_of_mem_matchFact matched old⟩
      · exact ⟨q, List.mem_cons_of_mem _ hq, mentions⟩

/-! ## Negations row by row -/

/-- Whether a `not` keeps a row. -/
def keepsNot (body : List WhereClause) (b : Bindings) : Bool :=
  if (bodyPatterns body).isEmpty then !m.notBodyMatches body b
  else if (m.exclusionSet (bodyPatterns body)).isEmpty && !body.any WhereClause.isExpr then true
  else m.notKeeps body (m.exclusionSet (bodyPatterns body)) b

theorem applyNotClause_filter (rows : List Bindings) (body : List WhereClause) :
    m.applyNotClause rows body = rows.filter (m.keepsNot body) := by
  unfold applyNotClause keepsNot
  by_cases none_ : (bodyPatterns body).isEmpty = true
  · simp only [none_, if_true]
  · by_cases clear : ((m.exclusionSet (bodyPatterns body)).isEmpty && !body.any WhereClause.isExpr) = true
    · simp only [none_, clear, if_true, Bool.false_eq_true, if_false]
      exact (List.filter_eq_self.2 fun _ _ => rfl).symm
    · simp only [none_, clear, Bool.false_eq_true, if_false]

/-- Whether a `not-join` keeps a row. -/
def keepsNotJoin (joinVars : List Var) (clauses : List WhereClause) (b : Bindings) : Bool :=
  if (bodyPatterns clauses).isEmpty then !m.evaluateNotJoin joinVars clauses b
  else
    let bodyBindings := m.matchPatterns (bodyPatterns clauses)
    let keys := keyVars joinVars bodyBindings
    m.notJoinKeeps joinVars clauses keys
      (bodyBindings.map fun b => Bindings.keyAt m.env b (keys.map .var)) b

theorem applyNotJoinClause_filter (rows : List Bindings) (joinVars : List Var)
    (clauses : List WhereClause) :
    m.applyNotJoinClause rows joinVars clauses = rows.filter (m.keepsNotJoin joinVars clauses) := by
  unfold applyNotJoinClause keepsNotJoin
  by_cases none_ : (bodyPatterns clauses).isEmpty = true
  · simp only [none_, if_true]
  · simp only [none_, Bool.false_eq_true, if_false]

theorem keyAt_congr (env : Env) {keys : List Key} {vs : List Var} {b c : Bindings}
    (keyed : ∀ key ∈ keys, ∃ v ∈ vs, key = .var v) (h : AgreeOn vs b c) :
    Bindings.keyAt env b keys = Bindings.keyAt env c keys := by
  refine List.filterMap_congr fun key mem => ?_
  obtain ⟨v, hv, rfl⟩ := keyed key mem
  rw [h v hv]

theorem keepsNot_congr {body : List WhereClause} {b c : Bindings}
    (h : AgreeOn (clauseRefVars body) b c) : m.keepsNot body b = m.keepsNot body c := by
  unfold keepsNot
  rw [m.notBodyMatches_congr h]
  split
  · rfl
  · split
    · rfl
    · unfold notKeeps
      cases head : (m.exclusionSet (bodyPatterns body)).head? with
      | none => simp only [m.notBodyMatches_congr h]
      | some sample =>
          have keyed : ∀ key ∈ sample.map Prod.fst, ∃ v ∈ clauseRefVars body, key = .var v := by
            intro key mem
            obtain ⟨r, hr, rfl⟩ := List.mem_map.1 (List.mem_of_head? head)
            obtain ⟨entry, held, rfl⟩ := List.mem_map.1 mem
            obtain ⟨⟨key, x⟩, visible, rfl⟩ := List.mem_map.1 held
            obtain ⟨mem, shown⟩ := List.mem_filter.1 visible
            cases key with
            | hidden q id => cases shown
            | var v =>
                obtain ⟨p, hp, mentions⟩ := m.mentions_of_mem_matchPatterns hr mem
                obtain ⟨clause, hc, same⟩ := List.mem_filterMap.1 hp
                refine ⟨v, refVars_subset hc ?_, rfl⟩
                cases clause with
                | pattern q =>
                    cases same
                    exact mem_patternBoundVars.2 mentions
                | ruleInvocation _ _ | not _ | notJoin _ _ | expr _ _ | or _ | orJoin _ _ => cases same
          simp only [keyAt_congr m.env keyed h, m.notBodyMatches_congr h]

theorem partialBinding_congr {joinVars : List Var} {b c : Bindings} (h : AgreeOn joinVars b c) :
    partialBinding joinVars b = partialBinding joinVars c :=
  List.filterMap_congr fun v mem => by rw [h v mem]

theorem keepsNotJoin_congr {joinVars : List Var} {clauses : List WhereClause} {b c : Bindings}
    (h : AgreeOn joinVars b c) : m.keepsNotJoin joinVars clauses b = m.keepsNotJoin joinVars clauses c := by
  have body : m.evaluateNotJoin joinVars clauses b = m.evaluateNotJoin joinVars clauses c := by
    unfold evaluateNotJoin
    rw [partialBinding_congr h]
  unfold keepsNotJoin
  rw [body]
  split
  · rfl
  · unfold notJoinKeeps
    have keyed : ∀ key ∈ (keyVars joinVars (m.matchPatterns (bodyPatterns clauses))).map Key.var,
        ∃ v ∈ joinVars, key = .var v := by
      intro key mem
      obtain ⟨v, hv, rfl⟩ := List.mem_map.1 mem
      refine ⟨v, ?_, rfl⟩
      unfold keyVars at hv
      split at hv
      · exact hv
      · exact (List.mem_filter.1 hv).1
    simp only [keyAt_congr m.env keyed h, body]

end PatternMatcher
end Minigraf
