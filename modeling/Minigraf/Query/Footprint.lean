import Minigraf.Query.Demand
import Minigraf.Query.Placement
import Minigraf.Query.Stratified

/-!
The rows of a body depend on the facts whose attributes the body names, and on no others:
facts of other attributes can be added and no row comes or goes. This holds of bodies whose
patterns name their attribute.
-/

namespace Minigraf

variable {attrs : String → Prop} {calls : String → Prop}

/-! ## What a clause names -/

/-- The pattern names its attribute. -/
def Pattern.Names (attrs : String → Prop) (p : Pattern) : Prop := ∃ k, p.attr = .real (.keyword k) ∧ attrs k

/-- The patterns of a clause name their attributes, and its calls these predicates. -/
inductive WhereClause.ReadsOnly (attrs calls : String → Prop) : WhereClause → Prop where
  | pattern {p : Pattern} (names : p.Names attrs) : ReadsOnly attrs calls (.pattern p)
  | call {predicate : String} {args : List EdnValue} (called : calls predicate) :
      ReadsOnly attrs calls (.ruleInvocation predicate args)
  | not {body : List WhereClause} (inner : ∀ clause ∈ body, ReadsOnly attrs calls clause) :
      ReadsOnly attrs calls (.not body)
  | notJoin {joinVars : List Var} {body : List WhereClause} (inner : ∀ clause ∈ body, ReadsOnly attrs calls clause) :
      ReadsOnly attrs calls (.notJoin joinVars body)
  | expr {e : Expr} {binding : Option Var} : ReadsOnly attrs calls (.expr e binding)
  | or {branches : List (List WhereClause)}
      (inner : ∀ branch ∈ branches, ∀ clause ∈ branch, ReadsOnly attrs calls clause) :
      ReadsOnly attrs calls (.or branches)
  | orJoin {joinVars : List Var} {branches : List (List WhereClause)}
      (inner : ∀ branch ∈ branches, ∀ clause ∈ branch, ReadsOnly attrs calls clause) :
      ReadsOnly attrs calls (.orJoin joinVars branches)

/-- The attributes a body reads: those its patterns name and those of the facts it calls for. -/
def ReadAttr (attrs calls : String → Prop) (k : String) : Prop := attrs k ∨ ∃ q, calls q ∧ k = ":" ++ q

/-- No fact has an attribute that is read. -/
def Unread (reads : String → Prop) (added : List Fact) : Prop := ∀ f ∈ added, ¬ reads f.attr

theorem Pattern.Names.mono {attrs' : String → Prop} {p : Pattern} (names : p.Names attrs)
    (weaker : ∀ k, attrs k → attrs' k) : p.Names attrs' := by
  obtain ⟨k, attr, here⟩ := names
  exact ⟨k, attr, weaker k here⟩

/-- A clause that calls fewer predicates reads less. -/
theorem WhereClause.ReadsOnly.restrict {calls' : String → Prop} {clause : WhereClause}
    (reads : clause.ReadsOnly attrs calls) (called : ∀ q ∈ clause.ruleInvocations, calls' q) :
    clause.ReadsOnly attrs calls' := by
  induction reads with
  | pattern names => exact .pattern names
  | call _ => exact .call (called _ (by simp [ruleInvocations]))
  | not _ ih =>
      refine .not fun clause mem => ih clause mem fun q hq => called q ?_
      rw [ruleInvocations]
      exact mem_bodyInvocations.mpr ⟨clause, mem, hq⟩
  | notJoin _ ih =>
      refine .notJoin fun clause mem => ih clause mem fun q hq => called q ?_
      rw [ruleInvocations]
      exact mem_bodyInvocations.mpr ⟨clause, mem, hq⟩
  | expr => exact .expr
  | or _ ih =>
      refine .or fun branch hbranch clause mem => ih branch hbranch clause mem fun q hq => called q ?_
      rw [ruleInvocations]
      exact mem_branchInvocations.mpr ⟨branch, hbranch, clause, mem, hq⟩
  | orJoin _ ih =>
      refine .orJoin fun branch hbranch clause mem => ih branch hbranch clause mem fun q hq => called q ?_
      rw [ruleInvocations]
      exact mem_branchInvocations.mpr ⟨branch, hbranch, clause, mem, hq⟩

theorem substitutePatternWith_names {reads : String → Prop} {toEdn : Value → EdnValue} {p : Pattern} (names : p.Names reads)
    (b : Bindings) : (substitutePatternWith toEdn b p).Names reads := by
  obtain ⟨k, attr, here⟩ := names
  exact ⟨k, by simp only [substitutePatternWith, attr, substituteWith], here⟩

theorem ruleInvocationToPattern_names {predicate : String} {args : List EdnValue} {p : Pattern}
    (made : ruleInvocationToPattern predicate args = .ok p) (called : calls predicate) :
    p.Names (ReadAttr attrs calls) := by
  refine ⟨":" ++ predicate, ?_, .inr ⟨predicate, called, rfl⟩⟩
  unfold ruleInvocationToPattern at made
  split at made
  · cases made
    rfl
  · cases made
    rfl
  · cases made

/-! ## Facts that are added -/

namespace PatternMatcher

variable {m : PatternMatcher} {reads : String → Prop} {added : List Fact} {p : Pattern}

/-- A matcher with more facts. -/
def extend (m : PatternMatcher) (added : List Fact) : PatternMatcher := { m with facts := m.facts ++ added }

theorem matchFact_unread (names : p.Names reads) {f : Fact} (unread : ¬ reads f.attr) :
    m.matchFactAgainstPattern f p = none := by
  obtain ⟨k, attr, here⟩ := names
  have other : m.constantMatches (.keyword k) (.keyword f.attr) = false := by
    refine decide_eq_false ?_
    rintro rfl
    exact unread here
  unfold matchFactAgainstPattern
  cases m.matchComponent p.entity (.ref f.entity) [] with
  | none => rfl
  | some b => simp [attr, matchComponent, other]

theorem filterMap_extend {α : Type} {g : Fact → Option α} (none_ : ∀ f ∈ added, g f = none) :
    (m.extend added).facts.filterMap g = m.facts.filterMap g := by
  rw [extend, List.filterMap_append, List.filterMap_eq_nil_iff.mpr none_, List.append_nil]

theorem matchPattern_extend (names : p.Names reads) (unread : Unread reads added) :
    (m.extend added).matchPattern p = m.matchPattern p :=
  filterMap_extend fun f hf => matchFact_unread names (unread f hf)

theorem matchPatternWithBindings_extend (names : p.Names reads) (unread : Unread reads added) :
    (m.extend added).matchPatternWithBindings p = m.matchPatternWithBindings p := by
  funext b
  have substituted : (applyBindingsToPattern b p).Names reads := substitutePatternWith_names names b
  obtain ⟨k, attr, here⟩ := names
  have real : ∀ m : PatternMatcher, m.storedValue p b = none := fun m => by rw [storedValue, attr]
  rw [matchPatternWithBindings, matchPatternWithBindings, real, real]
  apply filterMap_extend
  intro f hf
  have none_ := matchFact_unread (m := m.extend added) substituted (unread f hf)
  rw [none_]
  rfl

theorem joinWithPattern_extend (names : p.Names reads) (unread : Unread reads added) (rows : List Bindings) :
    (m.extend added).joinWithPattern rows p = m.joinWithPattern rows p := by
  have one := matchPatternWithBindings_extend (m := m) names unread
  unfold joinWithPattern
  rw [matchPattern_extend names unread, one]
  cases joinVar rows p with
  | none => rfl
  | some jvar =>
      have probes : (m.extend added).probe p (m.matchPattern p) jvar = m.probe p (m.matchPattern p) jvar := by
        funext b
        unfold probe
        rw [one]
        rfl
      simp only [probes]

theorem matchPatternsSeeded_extend {ps : List Pattern} (names : ∀ p ∈ ps, p.Names reads) (unread : Unread reads added)
    (rows : List Bindings) : (m.extend added).matchPatternsSeeded ps rows = m.matchPatternsSeeded ps rows := by
  induction ps generalizing rows with
  | nil => rfl
  | cons p ps ih =>
      have here := joinWithPattern_extend (m := m) (names p List.mem_cons_self) unread rows
      have rest := ih (fun q hq => names q (List.mem_cons_of_mem p hq)) (m.joinWithPattern rows p)
      unfold matchPatternsSeeded at rest ⊢
      rw [List.foldl_cons, List.foldl_cons, here, rest]

theorem matchPatterns_extend {ps : List Pattern} (names : ∀ p ∈ ps, p.Names reads) (unread : Unread reads added) :
    (m.extend added).matchPatterns ps = m.matchPatterns ps := by
  cases ps with
  | nil => rfl
  | cons p ps =>
      have rest := matchPatternsSeeded_extend (m := m) (fun q hq => names q (List.mem_cons_of_mem p hq)) unread
        (m.matchPattern p)
      unfold matchPatternsSeeded at rest
      rw [matchPatterns, matchPatterns, matchPattern_extend (names p List.mem_cons_self) unread, rest]

theorem bodyRows_extend {ps : List Pattern} (names : ∀ p ∈ ps, p.Names reads) (unread : Unread reads added)
    (b : Bindings) : (m.extend added).bodyRows ps b = m.bodyRows ps b := by
  unfold bodyRows
  rw [matchPatterns_extend names unread]

/-! ## Negations -/

variable {body : List WhereClause}

theorem substituteBody_names (only : ∀ clause ∈ body, clause.ReadsOnly attrs calls) (b : Bindings) :
    ∀ p ∈ substituteBody body b, p.Names (ReadAttr attrs calls) := by
  intro p hp
  obtain ⟨clause, mem, made⟩ := List.mem_filterMap.mp hp
  cases only clause mem with
  | pattern names =>
      cases made
      exact substitutePatternWith_names (names.mono fun _ => .inl) b
  | call _ | not _ | notJoin _ | expr | or _ | orJoin _ => cases made

theorem substituteJoinBody_names (only : ∀ clause ∈ body, clause.ReadsOnly attrs calls) (b : Bindings) :
    ∀ p ∈ substituteJoinBody body b, p.Names (ReadAttr attrs calls) := by
  intro p hp
  obtain ⟨clause, mem, made⟩ := List.mem_filterMap.mp hp
  cases only clause mem with
  | pattern names =>
      cases made
      exact substitutePatternWith_names (names.mono fun _ => .inl) b
  | @call predicate args called =>
      simp only [Option.map_eq_some_iff] at made
      obtain ⟨q, pattern, rfl⟩ := made
      cases call : ruleInvocationToPattern predicate args with
      | error e =>
          rw [call] at pattern
          cases pattern
      | ok r =>
          rw [call] at pattern
          cases pattern
          exact substitutePatternWith_names (ruleInvocationToPattern_names call called) b
  | not _ | notJoin _ | expr | or _ | orJoin _ => cases made

theorem substituteRuleBody_names (only : ∀ clause ∈ body, clause.ReadsOnly attrs calls) (b : Bindings) :
    ∀ p ∈ substituteRuleBody body b, p.Names (ReadAttr attrs calls) := by
  intro p hp
  obtain ⟨clause, mem, made⟩ := List.mem_filterMap.mp hp
  cases only clause mem with
  | pattern names =>
      cases made
      exact substitutePatternWith_names (names.mono fun _ => .inl) b
  | @call predicate args called =>
      simp only at made
      cases call : ruleInvocationToPattern predicate (args.map (substituteValue · b)) with
      | error e =>
          rw [call] at made
          cases made
      | ok r =>
          rw [call] at made
          cases made
          exact ruleInvocationToPattern_names call called
  | not _ | notJoin _ | expr | or _ | orJoin _ => cases made

theorem notBodyMatches_extend (only : ∀ clause ∈ body, clause.ReadsOnly attrs calls)
    (unread : Unread (ReadAttr attrs calls) added) (b : Bindings) :
    (m.extend added).notBodyMatches body b = m.notBodyMatches body b := by
  unfold notBodyMatches
  rw [bodyRows_extend (substituteBody_names only b) unread]
  rfl

theorem evaluateNotJoin_extend (only : ∀ clause ∈ body, clause.ReadsOnly attrs calls)
    (unread : Unread (ReadAttr attrs calls) added) (joinVars : List Var) (b : Bindings) :
    (m.extend added).evaluateNotJoin joinVars body b = m.evaluateNotJoin joinVars body b := by
  have rows := bodyRows_extend (m := m) (substituteJoinBody_names only (partialBinding joinVars b)) unread
    (partialBinding joinVars b)
  simp only [evaluateNotJoin, rows]
  rfl

theorem ruleNotMatches_extend (only : ∀ clause ∈ body, clause.ReadsOnly attrs calls)
    (unread : Unread (ReadAttr attrs calls) added) (b : Bindings) :
    (m.extend added).ruleNotMatches body b = m.ruleNotMatches body b := by
  unfold ruleNotMatches
  rw [bodyRows_extend (substituteRuleBody_names only b) unread]
  rfl

/-! ## Disjunctions -/

variable {build : Build}

theorem branchPatterns_names (only : ∀ clause ∈ body, clause.ReadsOnly attrs calls) :
    ∀ p ∈ branchPatterns body, p.Names (ReadAttr attrs calls) := by
  intro p hp
  obtain ⟨clause, mem, made⟩ := List.mem_filterMap.mp hp
  cases only clause mem with
  | pattern names =>
      cases made
      exact names.mono fun _ => .inl
  | @call predicate args called =>
      simp only at made
      cases call : ruleInvocationToPattern predicate args with
      | error e =>
          rw [call] at made
          cases made
      | ok r =>
          rw [call] at made
          cases made
          exact ruleInvocationToPattern_names call called
  | not _ | notJoin _ | expr | or _ | orJoin _ => cases made

theorem branchKeeps_extend (only : ∀ clause ∈ body, clause.ReadsOnly attrs calls)
    (unread : Unread (ReadAttr attrs calls) added) : (m.extend added).branchKeeps body = m.branchKeeps body := by
  funext b
  rw [branchKeeps, branchKeeps, Bool.eq_iff_iff, List.all_eq_true, List.all_eq_true]
  refine forall₂_congr fun clause mem => ?_
  cases only clause mem with
  | not inner => simp only [notBodyMatches_extend inner unread]
  | notJoin inner => simp only [evaluateNotJoin_extend inner unread]
  | pattern _ | call _ | expr | or _ | orJoin _ => exact Iff.rfl

theorem evaluateBranchWith_extend (only : ∀ clause ∈ body, clause.ReadsOnly attrs calls)
    (unread : Unread (ReadAttr attrs calls) added) (nested : List Bindings → Except QueryError (List Bindings)) :
    (m.extend added).evaluateBranchWith nested body = m.evaluateBranchWith nested body := by
  funext rows
  unfold evaluateBranchWith
  simp only [matchPatternsSeeded_extend (branchPatterns_names only) unread, branchKeeps_extend only unread]
  rfl

theorem unionBranches_extend (rows : List Bindings) (branches : List Branch) (union : List Bindings) :
    (m.extend added).unionBranches build rows branches union = m.unionBranches build rows branches union := by
  induction branches generalizing union with
  | nil => rfl
  | cons branch branches ih =>
      simp only [unionBranches, ih]
      rfl

theorem unionOrJoin_extend (joinVars : List Var) (rows : List Bindings) (branches : List Branch)
    (union : List Bindings) :
    (m.extend added).unionOrJoin build joinVars rows branches union = m.unionOrJoin build joinVars rows branches union := by
  induction branches generalizing union with
  | nil => rfl
  | cons branch branches ih =>
      simp only [unionOrJoin, ih]
      rfl

theorem applyOr_extend (branches : List Branch) (rows : List Bindings) :
    (m.extend added).applyOr build branches rows = m.applyOr build branches rows := by
  simp only [applyOr, unionBranches_extend]
  rfl

theorem applyOrJoin_extend (joinVars : List Var) (branches : List Branch) (rows : List Bindings) :
    (m.extend added).applyOrJoin build joinVars branches rows = m.applyOrJoin build joinVars branches rows := by
  simp only [applyOrJoin, unionOrJoin_extend]
  rfl

theorem applyOrClauses_congr {m m' : PatternMatcher} (same : ∀ clause ∈ body, m.applyOrClause build clause = m'.applyOrClause build clause) :
    m.applyOrClauses build body = m'.applyOrClauses build body := by
  induction body with
  | nil =>
      funext rows
      rw [applyOrClauses, applyOrClauses]
  | cons clause body ih =>
      funext rows
      rw [applyOrClauses, applyOrClauses, same clause List.mem_cons_self,
        ih fun c mem => same c (List.mem_cons_of_mem clause mem)]

theorem branchesOf_extend {branches : List (List WhereClause)}
    (only : ∀ branch ∈ branches, ∀ clause ∈ branch, clause.ReadsOnly attrs calls)
    (unread : Unread (ReadAttr attrs calls) added)
    (same : ∀ branch ∈ branches, ∀ clause ∈ branch,
      (m.extend added).applyOrClause build clause = m.applyOrClause build clause) :
    (m.extend added).branchesOf build branches = m.branchesOf build branches := by
  induction branches with
  | nil => rw [branchesOf, branchesOf]
  | cons branch branches ih =>
      rw [branchesOf, branchesOf, evaluateBranchWith_extend (only branch List.mem_cons_self) unread,
        applyOrClauses_congr (same branch List.mem_cons_self),
        ih (fun b hb => only b (List.mem_cons_of_mem branch hb)) fun b hb => same b (List.mem_cons_of_mem branch hb)]

theorem applyOrClause_extend {clause : WhereClause} (only : clause.ReadsOnly attrs calls)
    (unread : Unread (ReadAttr attrs calls) added) :
    (m.extend added).applyOrClause build clause = m.applyOrClause build clause := by
  induction only with
  | or inner ih =>
      funext rows
      rw [applyOrClause, applyOrClause, branchesOf_extend inner unread ih, applyOr_extend]
  | orJoin inner ih =>
      funext rows
      rw [applyOrClause, applyOrClause, branchesOf_extend inner unread ih, applyOrJoin_extend]
  | pattern _ | call _ | not _ _ | notJoin _ _ | expr =>
      funext rows
      simp only [applyOrClause]

theorem applyOrClauses_extend (only : ∀ clause ∈ body, clause.ReadsOnly attrs calls)
    (unread : Unread (ReadAttr attrs calls) added) :
    (m.extend added).applyOrClauses build body = m.applyOrClauses build body :=
  applyOrClauses_congr fun clause mem => applyOrClause_extend (only clause mem) unread

/-! ## Bodies of rules -/

theorem matchWithHintSeeded_extend (names : p.Names reads) (unread : Unread reads added) (rows : List Bindings) :
    (m.extend added).matchWithHintSeeded rows p = m.matchWithHintSeeded rows p := by
  unfold matchWithHintSeeded
  rw [matchPattern_extend names unread, joinWithPattern_extend names unread]

/-- A clause the planner is given of a rule. -/
inductive PlanClause (reads : String → Prop) : WhereClause → Prop where
  | pattern {p : Pattern} (names : p.Names reads) : PlanClause reads (.pattern p)
  | expr {e : Expr} {binding : Option Var} : PlanClause reads (.expr e binding)

theorem runClauses_extend {clauses : List WhereClause} (planned : ∀ clause ∈ clauses, PlanClause reads clause)
    (unread : Unread reads added) (rows : List Bindings) :
    (m.extend added).runClauses rows clauses = m.runClauses rows clauses := by
  induction clauses generalizing rows with
  | nil => rfl
  | cons clause clauses ih =>
      have here : (m.extend added).runClause rows clause = m.runClause rows clause := by
        cases planned clause List.mem_cons_self with
        | pattern names => exact matchWithHintSeeded_extend names unread rows
        | expr => rfl
      have rest := ih (fun c mem => planned c (List.mem_cons_of_mem clause mem)) (m.runClause rows clause)
      unfold runClauses at rest ⊢
      rw [List.foldl_cons, List.foldl_cons, here, rest]

theorem planClause_planned (only : ∀ clause ∈ body, clause.ReadsOnly attrs calls) :
    ∀ clause ∈ body.filterMap WhereClause.planClause, PlanClause (ReadAttr attrs calls) clause := by
  intro planned hplanned
  obtain ⟨clause, mem, made⟩ := List.mem_filterMap.mp hplanned
  cases only clause mem with
  | pattern names =>
      cases made
      exact .pattern (names.mono fun _ => .inl)
  | @call predicate args called =>
      simp only [WhereClause.planClause] at made
      cases call : ruleInvocationToPattern predicate args with
      | error e =>
          rw [call] at made
          cases made
      | ok r =>
          rw [call] at made
          cases made
          exact .pattern (ruleInvocationToPattern_names call called)
  | expr =>
      cases made
      exact .expr
  | not _ | notJoin _ | or _ | orJoin _ => cases made

theorem ruleKeeps_extend (only : ∀ clause ∈ body, clause.ReadsOnly attrs calls)
    (unread : Unread (ReadAttr attrs calls) added) :
    (m.extend added).ruleKeeps build body = m.ruleKeeps build body := by
  funext b
  have nots : ∀ inner ∈ notBodies body, ∀ clause ∈ inner, clause.ReadsOnly attrs calls := by
    intro inner hinner
    obtain ⟨clause, mem, made⟩ := List.mem_filterMap.mp hinner
    cases only clause mem with
    | not within =>
        cases made
        exact within
    | pattern _ | call _ | notJoin _ | expr | or _ | orJoin _ => cases made
  have joins : ∀ join ∈ notJoinBodies body, ∀ clause ∈ join.2, clause.ReadsOnly attrs calls := by
    intro join hjoin
    obtain ⟨clause, mem, made⟩ := List.mem_filterMap.mp hjoin
    cases only clause mem with
    | notJoin within =>
        cases made
        exact within
    | pattern _ | call _ | not _ | expr | or _ | orJoin _ => cases made
  simp only [ruleKeeps]
  congr 1
  · rw [Bool.eq_iff_iff, List.all_eq_true, List.all_eq_true]
    refine forall₂_congr fun inner hinner => ?_
    rw [ruleNotMatches_extend (nots inner ((build.sortBy_perm _ _).subset hinner)) unread]
  · rw [Bool.eq_iff_iff, List.all_eq_true, List.all_eq_true]
    refine forall₂_congr fun join hjoin => ?_
    rw [evaluateNotJoin_extend (joins join ((build.sortBy_perm _ _).subset hjoin)) unread]

/-- The rows of a mixed body stay when facts come that it does not read. -/
theorem mixedRows_extend (only : ∀ clause ∈ body, clause.ReadsOnly attrs calls)
    (unread : Unread (ReadAttr attrs calls) added) :
    (m.extend added).mixedRows build body = m.mixedRows build body := by
  have planned : ∀ clause ∈ (plan build (body.filterMap WhereClause.planClause)).1.map Prod.fst,
      PlanClause (ReadAttr attrs calls) clause := fun clause mem =>
    planClause_planned only clause (mem_of_planned mem)
  have rows := runClauses_extend (m := m) planned unread [[]]
  have disjunctions : (({ m with env := m.env.withBuiltins } : PatternMatcher).extend added).applyOrClauses build body =
      ({ m with env := m.env.withBuiltins } : PatternMatcher).applyOrClauses build body :=
    applyOrClauses_extend only unread
  have keeps : (m.extend added).ruleKeeps build body = m.ruleKeeps build body := ruleKeeps_extend only unread
  unfold mixedRows
  simp only [rows, keeps]
  rw [← disjunctions]
  rfl

theorem splitBody_names {split : List Pattern × List WhereClause} (run : splitBody body = .ok split)
    (only : ∀ clause ∈ body, clause.ReadsOnly attrs calls) : ∀ p ∈ split.1, p.Names (ReadAttr attrs calls) := by
  induction body generalizing split with
  | nil =>
      cases run
      simp
  | cons clause body ih =>
      have rest := fun c mem => only c (List.mem_cons_of_mem clause mem)
      cases later : splitBody body with
      | error e =>
          cases clause with
          | ruleInvocation predicate args =>
              cases call : ruleInvocationToPattern predicate args with
              | error e' =>
                  simp only [splitBody, call, bind, Except.bind, Except.mapError] at run
                  cases run
              | ok r =>
                  simp only [splitBody, call, later, bind, Except.bind, Except.mapError] at run
                  cases run
          | pattern _ | expr _ _ | not _ | notJoin _ _ | or _ | orJoin _ _ =>
              simp only [splitBody, later, bind, Except.bind] at run
              cases run
      | ok parts =>
          have names := ih later rest
          cases only clause List.mem_cons_self with
          | pattern here =>
              simp only [splitBody, later, bind, Except.bind] at run
              cases run
              intro p hp
              rcases List.mem_cons.mp hp with rfl | hp
              · exact here.mono fun _ => .inl
              · exact names p hp
          | @call predicate args called =>
              cases call : ruleInvocationToPattern predicate args with
              | error e' =>
                  simp only [splitBody, call, bind, Except.bind, Except.mapError] at run
                  cases run
              | ok r =>
                  simp only [splitBody, call, later, bind, Except.bind, Except.mapError] at run
                  cases run
                  intro p hp
                  rcases List.mem_cons.mp hp with rfl | hp
                  · exact ruleInvocationToPattern_names call called
                  · exact names p hp
          | expr =>
              simp only [splitBody, later, bind, Except.bind] at run
              cases run
              exact names
          | not _ | notJoin _ | or _ | orJoin _ =>
              simp only [splitBody] at run
              cases run

/-- The rows of a positive body stay when facts come that it does not read. -/
theorem splitRows_extend {split : List Pattern × List WhereClause} (names : ∀ p ∈ split.1, p.Names reads)
    (unread : Unread reads added) : (m.extend added).splitRows split = m.splitRows split := by
  unfold splitRows
  rw [matchPatterns_extend names unread]
  rfl

end PatternMatcher
end Minigraf
