import Minigraf.Query.Disjunction
import Minigraf.Query.Placement

/-!
Expression outputs as join variables. The plan loop writes the value of a binding
expression over what a row has for its output, so the output joins only with the patterns
that come behind the expression; where all of them do, the rows are the assignments that
satisfy every clause, in whatever order the clauses stand.
-/

namespace Minigraf
namespace PatternMatcher

variable {m : PatternMatcher} {outs : List Var} {σ b : Bindings}

/-! ## Solutions without an order -/

theorem fits_mono {outs outs' : List Var} (sub : outs ⊆ outs') {p : Pattern} {f : Fact}
    (h : m.Fits outs σ p f) : m.Fits outs' σ p f := by
  obtain ⟨cand, matched, values⟩ := h
  refine ⟨cand, matched, fun v y found => ?_⟩
  obtain ⟨x, shown, same⟩ := values v y found
  exact ⟨x, shown, same.imp_right fun out => ⟨sub out.1, out.2⟩⟩

theorem holds_mono {outs outs' : List Var} (sub : outs ⊆ outs') {clause : WhereClause}
    (h : m.Holds outs σ clause) : m.Holds outs' σ clause := by
  cases clause with
  | pattern p =>
      obtain ⟨f, mem, fits⟩ := h
      exact ⟨f, mem, fits_mono sub fits⟩
  | expr e binding =>
      cases binding with
      | none => exact h
      | some y => exact h
  | not _ | notJoin _ _ | ruleInvocation _ _ | or _ | orJoin _ _ => exact h

theorem standing_of_not_perFact {p : Pattern} (not_ : ¬ PerFact p) (stand : Stand) (bound : List Var) :
    m.standing stand bound σ p = none := by
  cases found : m.standing stand bound σ p with
  | none => rfl
  | some f => exact absurd (standing_some found) not_

/-- Without a per-fact pseudo-attribute each clause holds on its own. -/
theorem solves_iff {clauses : List WhereClause} (plain : ∀ p, .pattern p ∈ clauses → ¬ PerFact p)
    (stand : Stand) (bound : List Var) :
    m.Solves outs stand bound clauses σ ↔ ∀ clause ∈ clauses, m.Holds outs σ clause := by
  induction clauses generalizing stand bound with
  | nil => exact ⟨fun _ _ no => absurd no List.not_mem_nil, fun _ => trivial⟩
  | cons clause clauses ih =>
      have rest : ∀ p, .pattern p ∈ clauses → ¬ PerFact p := fun p mem => plain p (List.mem_cons_of_mem _ mem)
      rw [List.forall_mem_cons]
      by_cases notPattern : ∀ p, clause ≠ .pattern p
      · rw [solves_cons notPattern, ih rest]
      · obtain ⟨p, rfl⟩ := not_forall_not.1 notPattern
        rw [Solves, standing_of_not_perFact (plain p List.mem_cons_self)]
        simp only [ih rest, Holds]
        constructor
        · rintro ⟨f, mem, fits, all⟩
          exact ⟨⟨f, mem, fits⟩, all⟩
        · rintro ⟨⟨f, mem, fits⟩, all⟩
          exact ⟨f, mem, fits, all⟩

/-! ## The rows of the plan -/

variable (m)

/-- The row shows the assignment. -/
def Shows (b σ : Bindings) : Prop := ∀ v, b.lookup (.var v) = σ.lookup (.var v)

/-- The assignments that satisfy the clauses of a plan, pseudo-attributes read off the
facts their entities stand on. -/
def PlanSolution (build : Build) (clauses : List WhereClause) (σ : Bindings) : Prop :=
  (∀ v, (∃ x, σ.lookup (.var v) = some x) ↔ v ∈ (clausesOf (plan build clauses).1).flatMap WhereClause.binds) ∧
    m.Solves (outputs (clausesOf (plan build clauses).1)) (fun _ => none) [] (clausesOf (plan build clauses).1) σ

/-- The assignments that satisfy every clause. -/
def Satisfies (clauses : List WhereClause) (σ : Bindings) : Prop :=
  (∀ v, (∃ x, σ.lookup (.var v) = some x) ↔ v ∈ clauses.flatMap WhereClause.binds) ∧
    ∀ clause ∈ clauses, m.Holds (outputs clauses) σ clause

variable {m}

theorem OneForm.mono {ps qs : List Pattern} (h : m.OneForm ps) (sub : qs ⊆ ps) : m.OneForm qs := by
  intro v x y left right
  have offered : ∀ z, m.Offered qs v z → m.Offered ps v z := fun z ⟨p, hp, rest⟩ => ⟨p, sub hp, rest⟩
  exact h v x y (offered x left) (offered y right)

/-- The plan loop computes the solutions of the plan. -/
theorem planRows_solves {build : Build} {clauses : List WhereClause} (apart : NamesApart m.env m.KeywordOf)
    (call : ∀ e binding, .expr e binding ∈ clauses → e.isCall = true) (first : OutputsFirst build clauses)
    (wild : WildcardsApart clauses) (one : m.OneForm (bodyPatterns clauses)) (σ : Bindings) :
    (∃ b ∈ m.planRows build clauses, Shows b σ) ↔ m.PlanSolution build clauses σ := by
  obtain ⟨well, patterns⟩ := plan_placed first wild
  refine runClauses_solves apart well (plan_tame call wild) (one.mono ?_) σ
  rw [patterns]
  exact (build.sortBy_perm _ _).subset

/-! ## Queries without disjunctions -/

theorem firstUnbound_none {vars bound : List Var} (h : firstUnbound vars bound = none) : vars ⊆ bound := by
  intro v mem
  have here := List.find?_eq_none.1 h v mem
  simpa using here

/-- Where the safety check passes, no expression is put off. -/
theorem deferred_placeExprs {clauses : List WhereClause} {bound bound' : List Var}
    {plan : Plan} (planned : ∀ clause ∈ clauses, clause.isPlanned = true)
    (safe : checkExprSafetyWithBound clauses bound = .ok bound') (sub : bound ⊆ plan.placeable)
    (all : ∀ p, .pattern p ∈ clauses → patternBoundVars p ⊆ plan.placeable) :
    ((clauses.filter WhereClause.isExpr).foldl Plan.placeExpr plan).deferred = plan.deferred := by
  induction clauses generalizing bound plan with
  | nil => rfl
  | cons clause clauses ih =>
      rw [checkExprSafetyWithBound] at safe
      have plannedRest : ∀ c ∈ clauses, c.isPlanned = true := fun c mem => planned c (List.mem_cons_of_mem _ mem)
      have allRest : ∀ p, .pattern p ∈ clauses → patternBoundVars p ⊆ plan.placeable :=
        fun p mem => all p (List.mem_cons_of_mem _ mem)
      cases clause with
      | pattern p =>
          refine ih plannedRest safe (List.append_subset.2 ⟨sub, ?_⟩) allRest
          exact List.Subset.trans List.filter_sublist.subset (all p List.mem_cons_self)
      | expr e binding =>
          have unbound : firstUnbound (exprVars e) bound = none := by
            cases found : firstUnbound (exprVars e) bound with
            | none => rfl
            | some v =>
                rw [WhereClause.checkExprs, found] at safe
                cases safe
          rw [WhereClause.checkExprs, unbound] at safe
          have ready : (exprVars e).all plan.placeable.contains = true :=
            all_contains.2 (List.Subset.trans (firstUnbound_none unbound) sub)
          rw [List.filter_cons_of_pos rfl, List.foldl_cons, Plan.placeExpr]
          simp only [ready, if_true]
          refine ih plannedRest safe ?_ ?_
          · exact List.append_subset.2 ⟨List.Subset.trans sub (List.subset_append_left _ _), List.subset_append_right _ _⟩
          · exact fun p mem => List.Subset.trans (allRest p mem) (List.subset_append_left _ _)
      | not body =>
          rw [WhereClause.checkExprs] at safe
          cases inner : checkExprSafetyWithBound body bound with
          | error e =>
              rw [inner] at safe
              cases safe
          | ok _ =>
              rw [inner] at safe
              exact ih plannedRest safe sub allRest
      | notJoin joinVars body =>
          rw [WhereClause.checkExprs] at safe
          cases inner : checkExprSafetyWithBound body bound with
          | error e =>
              rw [inner] at safe
              cases safe
          | ok _ =>
              rw [inner] at safe
              exact ih plannedRest safe sub allRest
      | ruleInvocation _ _ | or _ | orJoin _ _ => cases planned _ List.mem_cons_self

theorem deferred_placeNots {nots : List WhereClause} {plan : Plan} {clause : WhereClause}
    (mem : clause ∈ (nots.foldl Plan.placeNot plan).deferred) : clause ∈ plan.deferred ∨ clause ∈ nots := by
  induction nots generalizing plan with
  | nil => exact .inl mem
  | cons first nots ih =>
      rcases ih mem with early | later
      · unfold Plan.placeNot at early
        simp only at early
        split at early
        · exact .inl early
        · split at early
          · exact .inl early
          · rcases List.mem_append.1 early with old | here
            · exact .inl old
            · cases List.mem_singleton.1 here
              exact .inr List.mem_cons_self
      · exact .inr (List.mem_cons_of_mem _ later)

/-- Of a safe query without disjunctions only negations are put off. -/
theorem deferred_isNegation {build : Build} {clauses : List WhereClause}
    (planned : ∀ clause ∈ clauses, clause.isPlanned = true) (safe : checkSafety clauses = .ok ())
    {clause : WhereClause} (mem : clause ∈ (plan build clauses).2) : clause.isNegation = true := by
  obtain ⟨-, -, bound, passes⟩ := checkSafety_ok safe
  rcases deferred_placeNots mem with old | here
  · rw [deferred_placeExprs planned passes (List.nil_subset _) fun p hp v hv =>
      List.mem_flatMap.2 ⟨p, mem_sortedPatterns.2 hp, hv⟩] at old
    cases old
  · exact (List.mem_filter.1 ((build.sortBy_perm _ _).mem_iff.1 here)).2

/-- Whether a negation keeps a row. -/
def keeps (m : PatternMatcher) (b : Bindings) : WhereClause → Bool
  | .not body => m.keepsNot body b
  | .notJoin joinVars clauses => m.keepsNotJoin joinVars clauses b
  | _ => true

theorem foldlM_runDeferred {deferred : List WhereClause} (negation : ∀ c ∈ deferred, c.isNegation = true)
    (rows : List Bindings) :
    deferred.foldlM m.runDeferred rows = .ok (rows.filter fun b => deferred.all (m.keeps b)) := by
  induction deferred generalizing rows with
  | nil =>
      rw [List.foldlM_nil]
      exact congrArg Except.ok (List.filter_eq_self.2 fun _ _ => rfl).symm
  | cons clause deferred ih =>
      have step : m.runDeferred rows clause = .ok (rows.filter fun b => m.keeps b clause) := by
        cases clause with
        | not body => exact congrArg Except.ok (m.applyNotClause_filter rows body)
        | notJoin joinVars body => exact congrArg Except.ok (m.applyNotJoinClause_filter rows joinVars body)
        | pattern _ | expr _ _ | ruleInvocation _ _ | or _ | orJoin _ _ =>
            cases negation _ List.mem_cons_self
      rw [List.foldlM_cons, step]
      refine (ih (fun c mem => negation c (List.mem_cons_of_mem _ mem)) _).trans ?_
      rw [List.filter_filter]
      simp only [List.all_cons, Bool.and_comm]

theorem applyOrClauses_planned {build : Build} {clauses : List WhereClause}
    (planned : ∀ clause ∈ clauses, clause.isPlanned = true) (rows : List Bindings) :
    m.applyOrClauses build clauses rows = .ok rows := by
  induction clauses with
  | nil => rfl
  | cons clause clauses ih =>
      have step : m.applyOrClause build clause rows = .ok rows := by
        cases clause with
        | pattern _ | expr _ _ | not _ | notJoin _ _ => rfl
        | ruleInvocation _ _ | or _ | orJoin _ _ => cases planned _ List.mem_cons_self
      rw [applyOrClauses, step]
      exact ih fun c mem => planned c (List.mem_cons_of_mem _ mem)

theorem holds_negation {clause : WhereClause} (negation : clause.isNegation = true) :
    m.Holds outs σ clause ↔ m.keeps σ clause = true := by
  cases clause with
  | not _ | notJoin _ _ => rfl
  | pattern _ | expr _ _ | ruleInvocation _ _ | or _ | orJoin _ _ => cases negation

theorem keeps_congr {clause : WhereClause} (shows : Shows b σ) : m.keeps b clause = m.keeps σ clause := by
  have agree : ∀ vs, AgreeOn vs b σ := fun vs v _ => shows v
  cases clause with
  | not body => exact m.keepsNot_congr (agree _)
  | notJoin joinVars body => exact m.keepsNotJoin_congr (agree _)
  | pattern _ | expr _ _ | ruleInvocation _ _ | or _ | orJoin _ _ => rfl

/-- The clauses of a plan and those it put off are the clauses of the query. -/
theorem planned_iff {build : Build} {clauses : List WhereClause}
    (planned : ∀ clause ∈ clauses, clause.isPlanned = true) {clause : WhereClause} :
    clause ∈ clauses ↔ clause ∈ clausesOf (plan build clauses).1 ∨ clause ∈ (plan build clauses).2 := by
  have perm := (plan_perm build clauses).mem_iff (a := clause)
  rw [List.mem_append, List.mem_filter] at perm
  rw [perm]
  exact ⟨fun mem => ⟨mem, planned clause mem⟩, fun mem => mem.1⟩

/-- The rows of a query without disjunctions are those of its plan that the negations put
off keep. -/
theorem queryRows_planned {build : Build} {clauses : List WhereClause}
    (planned : ∀ clause ∈ clauses, clause.isPlanned = true) (safe : checkSafety clauses = .ok ())
    {rows : List Bindings} (run : m.queryRows build clauses = .ok rows) (σ : Bindings) :
    (∃ b ∈ rows, Shows b σ) ↔
      (∃ b ∈ m.planRows build clauses, Shows b σ) ∧ ∀ c ∈ (plan build clauses).2, m.keeps σ c = true := by
  have sorted := build.sortBy_perm (fun c d => decide (clauseCost c ≤ clauseCost d)) (plan build clauses).2
  have made : rows = (m.planRows build clauses).filter fun b =>
      (build.sortBy (fun c d => decide (clauseCost c ≤ clauseCost d)) (plan build clauses).2).all (m.keeps b) := by
    unfold queryRows at run
    cases unknown : clauses.findSome? (unknownPredicate m.env) with
    | some name =>
        rw [unknown] at run
        cases run
    | none =>
        rw [unknown] at run
        simp only [applyOrClauses_planned planned] at run
        have rest := foldlM_runDeferred (m := m) (fun c mem => deferred_isNegation planned safe (sorted.mem_iff.1 mem))
          (m.planRows build clauses)
        exact Except.ok.inj (run.symm.trans rest)
  have kept : ∀ b, (build.sortBy (fun c d => decide (clauseCost c ≤ clauseCost d)) (plan build clauses).2).all
      (m.keeps b) = true ↔ ∀ c ∈ (plan build clauses).2, m.keeps b c = true := by
    intro b
    rw [List.all_eq_true]
    exact ⟨fun h c mem => h c (sorted.mem_iff.2 mem), fun h c mem => h c (sorted.mem_iff.1 mem)⟩
  rw [made]
  constructor
  · rintro ⟨b, mem, shows⟩
    obtain ⟨hb, all⟩ := List.mem_filter.1 mem
    refine ⟨⟨b, hb, shows⟩, fun c hc => ?_⟩
    rw [← keeps_congr shows]
    exact (kept b).1 all c hc
  · rintro ⟨⟨b, hb, shows⟩, all⟩
    refine ⟨b, List.mem_filter.2 ⟨hb, (kept b).2 fun c hc => ?_⟩, shows⟩
    rw [keeps_congr shows]
    exact all c hc

/-- What is put off binds nothing. -/
theorem deferred_silent {clause : WhereClause} (negation : clause.isNegation = true) :
    clause.outputs = [] ∧ clause.binds = [] := by
  cases clause with
  | not _ | notJoin _ _ => exact ⟨rfl, rfl⟩
  | pattern _ | expr _ _ | ruleInvocation _ _ | or _ | orJoin _ _ => cases negation

theorem outputs_planned {build : Build} {clauses : List WhereClause}
    (planned : ∀ clause ∈ clauses, clause.isPlanned = true) (safe : checkSafety clauses = .ok ()) :
    outputs clauses ⊆ outputs (clausesOf (plan build clauses).1) := by
  intro y mem
  obtain ⟨c, hc, out⟩ := List.mem_flatMap.1 mem
  rcases (planned_iff planned).1 hc with placed | off
  · exact List.mem_flatMap.2 ⟨c, placed, out⟩
  · rw [(deferred_silent (deferred_isNegation planned safe off)).1] at out
    cases out

theorem binds_planned {build : Build} {clauses : List WhereClause}
    (planned : ∀ clause ∈ clauses, clause.isPlanned = true) (safe : checkSafety clauses = .ok ()) (v : Var) :
    v ∈ (clausesOf (plan build clauses).1).flatMap WhereClause.binds ↔ v ∈ clauses.flatMap WhereClause.binds := by
  simp only [List.mem_flatMap]
  constructor
  · rintro ⟨c, placed, bound⟩
    exact ⟨c, (planned_iff planned).2 (.inl placed), bound⟩
  · rintro ⟨c, hc, bound⟩
    rcases (planned_iff planned).1 hc with placed | off
    · exact ⟨c, placed, bound⟩
    · rw [(deferred_silent (deferred_isNegation planned safe off)).2] at bound
      cases bound

/-- The answer of a query without disjunctions and per-fact pseudo-attributes: the
assignments that satisfy every clause. -/
theorem queryRows_satisfies {build : Build} {clauses : List WhereClause} (apart : NamesApart m.env m.KeywordOf)
    (call : ∀ e binding, .expr e binding ∈ clauses → e.isCall = true) (first : OutputsFirst build clauses)
    (wild : WildcardsApart clauses) (one : m.OneForm (bodyPatterns clauses))
    (planned : ∀ clause ∈ clauses, clause.isPlanned = true) (safe : checkSafety clauses = .ok ())
    (plain : ∀ p, .pattern p ∈ clauses → ¬ PerFact p) {rows : List Bindings}
    (run : m.queryRows build clauses = .ok rows) (σ : Bindings) :
    (∃ b ∈ rows, Shows b σ) ↔ m.Satisfies clauses σ := by
  rw [queryRows_planned planned safe run, planRows_solves apart call first wild one, PlanSolution,
    solves_iff fun p mem => plain p (mem_of_planned mem), Satisfies]
  simp only [binds_planned planned safe, and_assoc]
  refine and_congr_right fun _ => ?_
  constructor
  · rintro ⟨holds, keeps⟩ c hc
    rcases (planned_iff planned).1 hc with placed | off
    · exact holds_mono (outputs_mono fun _ => mem_of_planned) (holds c placed)
    · exact (holds_negation (deferred_isNegation planned safe off)).2 (keeps c off)
  · intro holds
    refine ⟨fun c placed => ?_, fun c off => ?_⟩
    · exact holds_mono (outputs_planned planned safe) (holds c ((planned_iff planned).2 (.inl placed)))
    · exact (holds_negation (deferred_isNegation planned safe off)).1 (holds c ((planned_iff planned).2 (.inr off)))

theorem satisfies_perm {clauses clauses' : List WhereClause} (perm : clauses'.Perm clauses) :
    m.Satisfies clauses' σ ↔ m.Satisfies clauses σ := by
  have binds : ∀ v, v ∈ clauses'.flatMap WhereClause.binds ↔ v ∈ clauses.flatMap WhereClause.binds :=
    fun v => (perm.flatMap_right _).mem_iff
  have left : outputs clauses' ⊆ outputs clauses := outputs_mono perm.subset
  have right : outputs clauses ⊆ outputs clauses' := outputs_mono perm.symm.subset
  unfold Satisfies
  simp only [binds]
  refine and_congr_right fun _ => ⟨fun h c mem => ?_, fun h c mem => ?_⟩
  · exact holds_mono left (h c (perm.mem_iff.2 mem))
  · exact holds_mono right (h c (perm.mem_iff.1 mem))

/-- Where no expression comes behind a pattern that binds its output, a row is handed on
exactly if it satisfies the patterns and shows the values of the expressions; and without
disjunctions and per-fact pseudo-attributes the answer is that of the clauses in any order,
in both builds. -/
theorem outputs_join (m : PatternMatcher) (build : Build) {clauses : List WhereClause}
    (accepted : Accepted clauses) (first : OutputsFirst build clauses) (wild : WildcardsApart clauses)
    (apart : NamesApart m.env m.KeywordOf) (one : m.OneForm (bodyPatterns clauses)) :
    (∀ σ, (∃ b ∈ m.planRows build clauses, Shows b σ) ↔ m.PlanSolution build clauses σ) ∧
      ((∀ clause ∈ clauses, clause.isPlanned = true) → (∀ p, .pattern p ∈ clauses → ¬ PerFact p) →
        ∀ (build' : Build) (clauses' : List WhereClause), clauses'.Perm clauses → Accepted clauses' →
          OutputsFirst build' clauses' → ∀ rows, m.queryRows build' clauses' = .ok rows →
            ∀ σ, (∃ b ∈ rows, Shows b σ) ↔ m.Satisfies clauses σ) := by
  refine ⟨planRows_solves apart accepted.call first wild one, ?_⟩
  intro planned plain build' clauses' perm accepted' first' rows run σ
  rw [← satisfies_perm perm]
  refine queryRows_satisfies apart accepted'.call first' (wild.perm perm) (one.mono ?_) ?_ accepted'.safe ?_ run σ
  · exact (perm.filterMap _).subset
  · exact fun c mem => planned c (perm.mem_iff.1 mem)
  · exact fun p mem => plain p (perm.mem_iff.1 mem)

/-! ## An output before and behind its pattern -/

/-- A matcher over two facts of entity 0, `:a` and `:b`. -/
def overTwo (a b : Value) : PatternMatcher where
  env := ⟨fun _ => none, fun k => if k = ":a" then 1 else 2, fun _ _ => false, fun _ => none⟩
  facts := [⟨0, ":a", a, 0, 1, 0, VALID_TIME_FOREVER, true⟩, ⟨0, ":b", b, 0, 1, 0, VALID_TIME_FOREVER, true⟩]
  validAt := none

/-- `[?e :a ?x]`. -/
def patternA : Pattern := ⟨.var (.named "e"), .real (.keyword ":a"), .var (.named "x")⟩

/-- `[?e :b ?y]`. -/
def patternB : Pattern := ⟨.var (.named "e"), .real (.keyword ":b"), .var (.named "y")⟩

/-- `[(integer? ?x) ?y]`. -/
def integerX : WhereClause := .expr (.unaryOp .integerQ (.var (.named "x"))) (some (.named "y"))

/-- The two patterns have one selectivity, so they stay in the order of the text. -/
theorem sortedPatterns_two (build : Build) (clauses : List WhereClause) {p q : Pattern}
    (two : bodyPatterns clauses = [p, q]) (same : selectivityScore p = selectivityScore q) :
    sortedPatterns build clauses = [p, q] := by
  rw [sortedPatterns, two]
  cases build with
  | native =>
      refine List.mergeSort_of_pairwise (List.pairwise_pair.2 ?_)
      exact decide_eq_true (Nat.le_of_eq same.symm)
  | wasm => rfl

/-- The plan of two patterns of one selectivity and some expressions, in both builds. -/
theorem plan_two (build : Build) (clauses : List WhereClause) {p q : Pattern}
    (two : bodyPatterns clauses = [p, q]) (same : selectivityScore p = selectivityScore q)
    (noNots : clauses.filter WhereClause.isNegation = []) :
    plan build clauses =
      let placed := (clauses.filter WhereClause.isExpr).foldl Plan.placeExpr (Plan.ofPatterns [p, q])
      (placed.result, placed.deferred) := by
  have nots : sortedNots build clauses = [] := by
    rw [sortedNots, noNots]
    cases build with
    | native => exact List.mergeSort_nil
    | wasm => rfl
  rw [plan, sortedPatterns_two build clauses two same, nots]
  rfl

/-- `[?e :a ?x] [(integer? ?x) ?y] [?e :b ?y]`. -/
def outputBefore : List WhereClause := [.pattern patternA, integerX, .pattern patternB]

/-- `[?e :b ?y] [?e :a ?x] [(integer? ?x) ?y]`. -/
def outputBehind : List WhereClause := [.pattern patternB, .pattern patternA, integerX]

theorem accepted_outputBefore : Accepted outputBefore := by
  refine ⟨fun e binding mem => ?_, by decide⟩
  rcases List.mem_cons.1 mem with no | mem
  · cases no
  · rcases List.mem_cons.1 mem with same | mem
    · cases same
      rfl
    · cases List.mem_singleton.1 mem

/-- The values the facts have for the variables of the two patterns. -/
theorem offered_two {a b : Value} {v : Var} {x : Value}
    (h : (overTwo a b).Offered [patternA, patternB] v x) :
    (v = .named "e" ∧ x = .ref 0) ∨ (v = .named "x" ∧ x = a) ∨ (v = .named "y" ∧ x = b) := by
  obtain ⟨p, hp, f, hf, cand, matched, found⟩ := h
  have mem := matchFact_value _ matched found
  have fits : ∀ attr value, p = ⟨.var (.named "e"), .real (.keyword attr), value⟩ → f.attr = attr := by
    rintro attr value rfl
    by_contra other
    rw [matchFactAgainstPattern_eq] at matched
    obtain ⟨r, whole, -⟩ := Option.map_eq_some_iff.1 matched
    have no : (overTwo a b).constantMatches (.keyword attr) (.keyword f.attr) = false :=
      decide_eq_false fun same => other same.symm
    simp [matchComponents, components, matchComponent, no] at whole
  rcases List.mem_cons.1 hp with rfl | hp
  · have attr := fits _ _ rfl
    rcases List.mem_cons.1 hf with rfl | hf
    · rcases (by simpa [components, patternA] using mem) with here | here
      · exact .inl here
      · exact .inr (.inl here)
    · cases List.mem_singleton.1 hf
      exact absurd attr (show ":b" ≠ ":a" by decide)
  · cases List.mem_singleton.1 hp
    have attr := fits _ _ rfl
    rcases List.mem_cons.1 hf with rfl | hf
    · exact absurd attr (show ":a" ≠ ":b" by decide)
    · cases List.mem_singleton.1 hf
      rcases (by simpa [components, patternB] using mem) with here | here
      · exact .inl here
      · exact .inr (.inr here)

theorem oneForm_two : (overTwo (.integer 1) (.boolean true)).OneForm [patternA, patternB] := by
  intro v x y hx hy
  have same : x = y ∧ Meets (overTwo (.integer 1) (.boolean true)).env y y = true := by
    rcases offered_two hx with ⟨rfl, rfl⟩ | ⟨rfl, rfl⟩ | ⟨rfl, rfl⟩
    · rcases offered_two hy with ⟨-, rfl⟩ | ⟨no, -⟩ | ⟨no, -⟩
      · decide
      · exact absurd no (by decide)
      · exact absurd no (by decide)
    · rcases offered_two hy with ⟨no, -⟩ | ⟨-, rfl⟩ | ⟨no, -⟩
      · exact absurd no (by decide)
      · decide
      · exact absurd no (by decide)
    · rcases offered_two hy with ⟨no, -⟩ | ⟨no, -⟩ | ⟨-, rfl⟩
      · exact absurd no (by decide)
      · exact absurd no (by decide)
      · decide
  exact ⟨fun _ => same.1, fun _ => by rw [same.1]; exact same.2⟩

theorem namesApart_two :
    NamesApart (overTwo (.integer 1) (.boolean true)).env (overTwo (.integer 1) (.boolean true)).KeywordOf := by
  have only : ∀ k, (overTwo (.integer 1) (.boolean true)).KeywordOf k → k = ":a" ∨ k = ":b" := by
    rintro k ⟨f, hf, attr | value⟩
    · rcases List.mem_cons.1 hf with rfl | hf
      · exact .inl attr.symm
      · cases List.mem_singleton.1 hf
        exact .inr attr.symm
    · rcases List.mem_cons.1 hf with rfl | hf
      · cases value
      · cases List.mem_singleton.1 hf
        cases value
  intro k l hk hl same
  rcases only k hk with rfl | rfl
  · rcases only l hl with rfl | rfl
    · rfl
    · exact absurd same (by decide)
  · rcases only l hl with rfl | rfl
    · exact absurd same (by decide)
    · rfl

theorem outputsFirst_outputBefore (build : Build) : OutputsFirst build outputBefore := by
  refine ⟨fun e y mem p hp mentions => ?_, by decide⟩
  rw [sortedPatterns_two build outputBefore (p := patternA) (q := patternB) rfl rfl] at hp
  rcases List.mem_cons.1 mem with no | mem
  · cases no
  · rcases List.mem_cons.1 mem with same | mem
    · cases same
      have only : p ∈ [patternA] := hp
      cases List.mem_singleton.1 only
      exact absurd (mem_patternBoundVars.2 mentions) (by decide)
    · cases List.mem_singleton.1 mem

theorem wildcardsApart_outputBefore : WildcardsApart outputBefore := by
  refine ⟨fun n out => ?_, fun n e binding mem reads => ?_⟩
  · exact absurd out (by simp [outputs, outputBefore, integerX, WhereClause.outputs])
  · rcases List.mem_cons.1 mem with no | mem
    · cases no
    · rcases List.mem_cons.1 mem with same | mem
      · cases same
        exact absurd reads (by simp [exprVars])
      · cases List.mem_singleton.1 mem

theorem planRows_outputBefore :
    (overTwo (.integer 1) (.boolean true)).planRows .native outputBefore ≠ [] := by
  rw [planRows, plan_two .native outputBefore (p := patternA) (q := patternB) rfl rfl rfl]
  decide

/-- With the output before its pattern, an entity whose `:b` says whether its `:a` is an
integer has a row, and the row satisfies both. -/
theorem outputs_join_before :
    ∃ b ∈ (overTwo (.integer 1) (.boolean true)).planRows .native outputBefore,
      (overTwo (.integer 1) (.boolean true)).PlanSolution .native outputBefore b := by
  obtain ⟨b, mem⟩ := List.exists_mem_of_ne_nil _ planRows_outputBefore
  have joined := outputs_join (overTwo (.integer 1) (.boolean true)) .native accepted_outputBefore
    (outputsFirst_outputBefore .native) wildcardsApart_outputBefore namesApart_two oneForm_two
  exact ⟨b, mem, (joined.1 b).1 ⟨b, mem, fun _ => rfl⟩⟩

/-- A query of which nothing is put off answers with the rows of its plan. -/
theorem queryRows_planRows {build : Build} {clauses : List WhereClause}
    (known : clauses.findSome? (unknownPredicate m.env) = none)
    (planned : ∀ clause ∈ clauses, clause.isPlanned = true) (nothing : (plan build clauses).2 = []) :
    m.queryRows build clauses = .ok (m.planRows build clauses) := by
  have sorted : build.sortBy (fun c d => decide (clauseCost c ≤ clauseCost d)) [] = [] := by
    cases build with
    | native => exact List.mergeSort_nil
    | wasm => rfl
  unfold queryRows
  simp only [known, applyOrClauses_planned planned, nothing, sorted]
  rfl

theorem accepted_outputBehind : Accepted outputBehind := by
  refine ⟨fun e binding mem => ?_, by decide⟩
  rcases List.mem_cons.1 mem with no | mem
  · cases no
  · rcases List.mem_cons.1 mem with no | mem
    · cases no
    · cases List.mem_singleton.1 mem
      rfl

theorem outputBehind_perm : outputBehind.Perm outputBefore :=
  (List.Perm.swap _ _ _).trans ((List.Perm.swap _ _ _).cons _)

theorem isPlanned_outputBehind : ∀ clause ∈ outputBehind, clause.isPlanned = true := by
  simp [outputBehind, integerX, WhereClause.isPlanned, WhereClause.isExpr]

theorem planRows_outputBehind :
    (overTwo (.integer 1) (.boolean false)).planRows .native outputBehind ≠ [] ∧
      ∀ b ∈ (overTwo (.integer 1) (.boolean false)).planRows .native outputBehind,
        b.lookup (.var (.named "y")) = some (.boolean true) := by
  rw [planRows, plan_two .native outputBehind (p := patternB) (q := patternA) rfl rfl rfl]
  decide

/-- Behind its pattern the output is written over: the `:b` of the entity is false, yet the
row says it is true. Before its pattern there is no row. -/
theorem outputs_overwritten :
    Accepted outputBehind ∧ outputBehind.Perm outputBefore ∧
      (∃ rows, (overTwo (.integer 1) (.boolean false)).queryRows .native outputBehind = .ok rows ∧
        ∃ b ∈ rows, ¬ (overTwo (.integer 1) (.boolean false)).Satisfies outputBehind b) ∧
      (overTwo (.integer 1) (.boolean false)).queryRows .native outputBefore = .ok [] := by
  refine ⟨accepted_outputBehind, outputBehind_perm, ?_, ?_⟩
  · have nothing : (plan .native outputBehind).2 = [] := by
      rw [plan_two .native outputBehind (p := patternB) (q := patternA) rfl rfl rfl]
      rfl
    obtain ⟨some_, shown⟩ := planRows_outputBehind
    obtain ⟨b, mem⟩ := List.exists_mem_of_ne_nil _ some_
    refine ⟨_, queryRows_planRows rfl isPlanned_outputBehind nothing, b, mem, fun sat => ?_⟩
    obtain ⟨f, hf, cand, matched, values⟩ := sat.2 (.pattern patternB) List.mem_cons_self
    rcases List.mem_cons.1 hf with rfl | hf
    · cases matched
    · cases List.mem_singleton.1 hf
      cases matched
      obtain ⟨x, found, same⟩ := values (.named "y") (.boolean false) (by decide)
      cases (shown b mem).symm.trans found
      rcases same with same | meets
      · cases same
      · exact absurd meets.2 (by decide)
  · have planned : ∀ clause ∈ outputBefore, clause.isPlanned = true :=
      fun c mem => isPlanned_outputBehind c (outputBehind_perm.mem_iff.2 mem)
    have nothing : (plan .native outputBefore).2 = [] := by
      rw [plan_two .native outputBefore (p := patternA) (q := patternB) rfl rfl rfl]
      rfl
    rw [queryRows_planRows rfl planned nothing, planRows,
      plan_two .native outputBefore (p := patternA) (q := patternB) rfl rfl rfl]
    decide

end PatternMatcher
end Minigraf
