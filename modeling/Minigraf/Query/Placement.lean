import Minigraf.Query.Safety
import Minigraf.Query.Solutions

/-!
Where the planner puts its clauses. Nothing is lost or doubled; an expression comes right
behind the patterns it waits for and a negation behind the patterns that bind what it
requires, so the plan is well placed if no expression waits for a pattern that binds its
output.
-/

namespace Minigraf

/-- The patterns up to the one that binds the last of some variables, or all. -/
def patternsBefore (vars : List Var) : List Var → List Pattern → List Pattern
  | _, [] => []
  | bound, p :: ps =>
      let bound := bound ++ patternBoundVars p
      p :: if vars.all bound.contains then [] else patternsBefore vars bound ps

/-- The patterns planned before an expression over some variables: without any it comes
last. -/
def waitsFor (vars : List Var) (patterns : List Pattern) : List Pattern :=
  if vars.isEmpty then patterns else patternsBefore vars [] patterns

/-- No expression comes to stand behind a pattern or an expression that binds its output. -/
structure OutputsFirst (build : Build) (clauses : List WhereClause) : Prop where
  first : ∀ e y, .expr e (some y) ∈ clauses →
    ∀ p ∈ waitsFor (exprVars e) (sortedPatterns build clauses), ¬ p.Mentions y
  once : (outputs clauses).Nodup

/-- No wildcard of a pattern or a negation is bound or read by an expression. -/
structure WildcardsApart (clauses : List WhereClause) : Prop where
  bound : ∀ n, .anon n ∈ outputs clauses → (∀ p, .pattern p ∈ clauses → ¬ p.Mentions (.anon n)) ∧
    ∀ clause ∈ clauses, .anon n ∉ clause.negates
  read : ∀ n e binding, .expr e binding ∈ clauses → .anon n ∈ exprVars e →
    ∀ p, .pattern p ∈ clauses → ¬ p.Mentions (.anon n)

def clausesOf (result : List Planned) : List WhereClause := result.map Prod.fst

theorem all_contains {vars bound : List Var} : vars.all bound.contains = true ↔ vars ⊆ bound := by
  rw [List.all_eq_true]
  exact ⟨fun h v mem => List.contains_iff_mem.1 (h v mem), fun h v mem => List.contains_iff_mem.2 (h mem)⟩

/-! ## Places -/

theorem bodyPatterns_cons_pattern (p : Pattern) (clauses : List WhereClause) :
    bodyPatterns (.pattern p :: clauses) = p :: bodyPatterns clauses := rfl

theorem bodyPatterns_cons {clause : WhereClause} (notPattern : ∀ p, clause ≠ .pattern p)
    (clauses : List WhereClause) : bodyPatterns (clause :: clauses) = bodyPatterns clauses := by
  cases clause with
  | pattern p => exact absurd rfl (notPattern p)
  | expr _ _ | not _ | notJoin _ _ | ruleInvocation _ _ | or _ | orJoin _ _ => rfl

theorem bindingPlace_cons {vars bound : List Var} {clause : WhereClause} {hint : Option IndexHint}
    (notPattern : ∀ p, clause ≠ .pattern p) (rest : List Planned) :
    bindingPlace vars bound ((clause, hint) :: rest) = (bindingPlace vars bound rest).map (· + 1) := by
  cases clause with
  | pattern p => exact absurd rfl (notPattern p)
  | expr _ _ | not _ | notJoin _ _ | ruleInvocation _ _ | or _ | orJoin _ _ => rfl

/-- A place is behind the patterns that bind the variables and no other. -/
theorem bindingPlace_some {vars bound : List Var} {result : List Planned} {k : Nat}
    (h : bindingPlace vars bound result = some k) :
    k ≤ result.length ∧
      vars ⊆ bound ++ (bodyPatterns (clausesOf (result.take k))).flatMap patternBoundVars ∧
      bodyPatterns (clausesOf (result.take k)) = patternsBefore vars bound (bodyPatterns (clausesOf result)) := by
  induction result generalizing bound k with
  | nil => cases h
  | cons entry rest ih =>
      obtain ⟨clause, hint⟩ := entry
      by_cases notPattern : ∀ p, clause ≠ .pattern p
      · rw [bindingPlace_cons notPattern] at h
        obtain ⟨j, found, rfl⟩ := Option.map_eq_some_iff.1 h
        obtain ⟨le, sub, same⟩ := ih found
        simp only [List.length_cons, List.take_succ_cons, clausesOf, List.map_cons,
          bodyPatterns_cons notPattern]
        exact ⟨Nat.succ_le_succ le, sub, same⟩
      · obtain ⟨p, rfl⟩ := not_forall_not.1 notPattern
        rw [bindingPlace] at h
        simp only [clausesOf, List.map_cons, bodyPatterns_cons_pattern, patternsBefore]
        split at h
        case isTrue all =>
            cases h
            simp only [List.take_succ_cons, List.take_zero, List.map_cons, List.map_nil,
              bodyPatterns_cons_pattern, all, if_true]
            refine ⟨Nat.succ_le_succ (Nat.zero_le _), ?_, rfl⟩
            simpa [bodyPatterns] using all_contains.1 all
        case isFalse notAll =>
            obtain ⟨j, found, rfl⟩ := Option.map_eq_some_iff.1 h
            obtain ⟨le, sub, same⟩ := ih found
            simp only [List.length_cons, List.take_succ_cons, List.map_cons, bodyPatterns_cons_pattern, notAll,
              Bool.false_eq_true, if_false, List.flatMap_cons, ← List.append_assoc]
            exact ⟨Nat.succ_le_succ le, sub, congrArg _ same⟩

theorem bindingPlace_none {vars bound : List Var} {result : List Planned}
    (h : bindingPlace vars bound result = none) :
    patternsBefore vars bound (bodyPatterns (clausesOf result)) = bodyPatterns (clausesOf result) := by
  induction result generalizing bound with
  | nil => rfl
  | cons entry rest ih =>
      obtain ⟨clause, hint⟩ := entry
      by_cases notPattern : ∀ p, clause ≠ .pattern p
      · rw [bindingPlace_cons notPattern, Option.map_eq_none_iff] at h
        simp only [clausesOf, List.map_cons, bodyPatterns_cons notPattern]
        exact ih h
      · obtain ⟨p, rfl⟩ := not_forall_not.1 notPattern
        rw [bindingPlace] at h
        simp only [clausesOf, List.map_cons, bodyPatterns_cons_pattern, patternsBefore]
        split at h
        case isTrue => cases h
        case isFalse notAll =>
            simp only [notAll, Bool.false_eq_true, if_false]
            exact congrArg _ (ih (Option.map_eq_none_iff.1 h))

/-! ## Inserting a clause -/

theorem WellPlaced.mono {bound bound' : List Var} {clauses : List WhereClause} (h : WellPlaced bound clauses)
    (sub : bound ⊆ bound') (new : ∀ y ∈ bound', y ∈ outputs clauses → y ∈ bound) :
    WellPlaced bound' clauses := by
  induction clauses generalizing bound bound' with
  | nil => trivial
  | cons clause clauses ih =>
      refine ⟨List.Subset.trans h.1 sub, fun y out old => ?_, ih h.2.2 ?_ ?_⟩
      · refine h.2.1 y out (new y old ?_)
        rw [outputs_cons]
        exact List.mem_append_left _ out
      · exact List.append_subset.2 ⟨List.Subset.trans sub (List.subset_append_left _ _), List.subset_append_right _ _⟩
      · intro y mem out
        rcases List.mem_append.1 mem with old | here
        · refine List.mem_append_left _ (new y old ?_)
          rw [outputs_cons]
          exact List.mem_append_right _ out
        · exact List.mem_append_right _ here

/-- A clause goes in where what it needs is bound and its outputs are not, here or later. -/
theorem WellPlaced.insert {bound : List Var} {before after : List WhereClause} {clause : WhereClause}
    (h : WellPlaced bound (before ++ after))
    (needs : clause.needs ⊆ bound ++ before.flatMap WhereClause.binds)
    (fresh : ∀ y ∈ clause.outputs, y ∉ bound ++ before.flatMap WhereClause.binds)
    (later : ∀ y ∈ clause.binds, y ∉ outputs after) : WellPlaced bound (before ++ clause :: after) := by
  induction before generalizing bound with
  | nil =>
      simp only [List.flatMap_nil, List.append_nil] at needs fresh
      refine ⟨needs, fresh, WellPlaced.mono h (List.subset_append_left _ _) fun y mem out => ?_⟩
      exact (List.mem_append.1 mem).resolve_right fun here => later y here out
  | cons first before ih =>
      simp only [List.flatMap_cons, ← List.append_assoc] at needs fresh
      exact ⟨h.1, h.2.1, ih h.2.2 needs fresh⟩

theorem insertIdx_eq {result : List Planned} {k : Nat} (le : k ≤ result.length) (entry : Planned) :
    result.insertIdx k entry = result.take k ++ entry :: result.drop k := by
  induction result generalizing k with
  | nil =>
      cases Nat.le_zero.1 le
      rfl
  | cons first rest ih =>
      cases k with
      | zero => rfl
      | succ k =>
          rw [List.insertIdx_succ_cons, ih (Nat.le_of_succ_le_succ le)]
          rfl

theorem clausesOf_insertIdx {result : List Planned} {k : Nat} (le : k ≤ result.length)
    (clause : WhereClause) :
    clausesOf (result.insertIdx k (clause, none)) =
      clausesOf (result.take k) ++ clause :: clausesOf (result.drop k) := by
  simp only [insertIdx_eq le, clausesOf, List.map_append, List.map_cons]

theorem clausesOf_take_drop (result : List Planned) (k : Nat) :
    clausesOf (result.take k) ++ clausesOf (result.drop k) = clausesOf result := by
  rw [clausesOf, clausesOf, ← List.map_append, List.take_append_drop, clausesOf]

/-- What a list of clauses binds, by patterns and by expressions. -/
theorem mem_flatMap_binds {clauses : List WhereClause} {v : Var} :
    v ∈ clauses.flatMap WhereClause.binds ↔
      (∃ n, v = .named n ∧ ∃ p ∈ bodyPatterns clauses, p.Mentions v) ∨ v ∈ outputs clauses := by
  induction clauses with
  | nil => simp [bodyPatterns, outputs]
  | cons clause clauses ih =>
      rw [List.flatMap_cons, List.mem_append, ih, outputs_cons, List.mem_append]
      by_cases notPattern : ∀ p, clause ≠ .pattern p
      · rw [bodyPatterns_cons notPattern, binds_eq_outputs notPattern]
        exact or_left_comm
      · obtain ⟨p, rfl⟩ := not_forall_not.1 notPattern
        rw [mem_binds_pattern, bodyPatterns_cons_pattern]
        simp only [List.mem_cons, exists_eq_or_imp, WhereClause.outputs, List.not_mem_nil, false_or]
        constructor
        · rintro (⟨n, rfl, here⟩ | ⟨n, rfl, later⟩ | out)
          · exact .inl ⟨n, rfl, .inl here⟩
          · exact .inl ⟨n, rfl, .inr later⟩
          · exact .inr out
        · rintro (⟨n, rfl, here | later⟩ | out)
          · exact .inl ⟨n, rfl, here⟩
          · exact .inr (.inl ⟨n, rfl, later⟩)
          · exact .inr (.inr out)

theorem outputs_append (as bs : List WhereClause) : outputs (as ++ bs) = outputs as ++ outputs bs :=
  List.flatMap_append

theorem bodyPatterns_append (as bs : List WhereClause) :
    bodyPatterns (as ++ bs) = bodyPatterns as ++ bodyPatterns bs :=
  List.filterMap_append

/-! ## The plan as it grows -/

/-- A well placed plan over some patterns. -/
structure Placed (ps : List Pattern) (plan : Plan) : Prop where
  well : WellPlaced [] (clausesOf plan.result)
  patterns : bodyPatterns (clausesOf plan.result) = ps
  placeable : ∀ v ∈ plan.placeable,
    v ∈ ps.flatMap patternBoundVars ∨ v ∈ outputs (clausesOf plan.result)

/-- A clause that is no pattern goes in at a place where it may stand. -/
theorem Placed.insertAt {ps : List Pattern} {plan : Plan} (h : Placed ps plan) {k : Nat}
    (le : k ≤ plan.result.length) {clause : WhereClause} (notPattern : ∀ p, clause ≠ .pattern p)
    (needs : clause.needs ⊆ (clausesOf (plan.result.take k)).flatMap WhereClause.binds)
    (fresh : ∀ y ∈ clause.outputs, y ∉ outputs (clausesOf plan.result) ∧
      ∀ p ∈ bodyPatterns (clausesOf (plan.result.take k)), ¬ p.Mentions y) :
    Placed ps (plan.insertAt k clause) := by
  have whole := clausesOf_take_drop plan.result k
  have made : clausesOf (plan.insertAt k clause).result = _ := clausesOf_insertIdx le clause
  refine ⟨?_, ?_, fun v mem => ?_⟩
  · rw [made]
    refine WellPlaced.insert (by rw [whole]; exact h.well) (by simpa using needs) ?_ ?_
    · intro y out old
      obtain ⟨new, apart⟩ := fresh y out
      rcases mem_flatMap_binds.1 (by simpa using old) with ⟨n, -, p, hp, mentions⟩ | early
      · exact apart p hp mentions
      · refine new ?_
        rw [← whole, outputs_append]
        exact List.mem_append_left _ early
    · intro y bound late
      rw [binds_eq_outputs notPattern] at bound
      refine (fresh y bound).1 ?_
      rw [← whole, outputs_append]
      exact List.mem_append_right _ late
  · rw [made, bodyPatterns_append, bodyPatterns_cons notPattern, ← bodyPatterns_append, whole, h.patterns]
  · rcases h.placeable v mem with pattern | out
    · exact .inl pattern
    · refine .inr ?_
      rw [← whole, outputs_append, List.mem_append] at out
      rw [made, outputs_append, List.mem_append, outputs_cons, List.mem_append]
      exact out.imp_right .inr

theorem outputs_insertAt {plan : Plan} {k : Nat} (le : k ≤ plan.result.length) (clause : WhereClause) :
    ∀ y ∈ outputs (clausesOf (plan.insertAt k clause).result),
      y ∈ outputs (clausesOf plan.result) ∨ y ∈ clause.outputs := by
  intro y mem
  have made : clausesOf (plan.insertAt k clause).result = _ := clausesOf_insertIdx le clause
  rw [made, outputs_append, outputs_cons, List.mem_append, List.mem_append] at mem
  rw [← clausesOf_take_drop plan.result k, outputs_append, List.mem_append]
  tauto

/-- The place of an expression that can be placed: behind the patterns it waits for. -/
theorem exprPlace {ps : List Pattern} {plan : Plan} (h : Placed ps plan) {vars : List Var}
    (wild : ∀ n, .anon n ∈ vars → ∀ p ∈ ps, ¬ p.Mentions (.anon n)) (placeable : vars ⊆ plan.placeable) :
    let k := (if vars.isEmpty then none else bindingPlace vars [] plan.result).getD plan.result.length
    k ≤ plan.result.length ∧ vars ⊆ (clausesOf (plan.result.take k)).flatMap WhereClause.binds ∧
      bodyPatterns (clausesOf (plan.result.take k)) = waitsFor vars ps := by
  have named : ∀ v ∈ vars, ∀ p ∈ ps, p.Mentions v → ∃ n, v = .named n := by
    intro v mem p hp mentions
    cases v with
    | named n => exact ⟨n, rfl⟩
    | anon n => exact absurd mentions (wild n mem p hp)
  have atEnd : vars ⊆ (clausesOf (plan.result.take plan.result.length)).flatMap WhereClause.binds := by
    intro v mem
    rw [List.take_length, mem_flatMap_binds, h.patterns]
    rcases h.placeable v (placeable mem) with pattern | out
    · obtain ⟨p, hp, mentions⟩ := List.mem_flatMap.1 pattern
      have mentions := mem_patternBoundVars.1 mentions
      obtain ⟨n, rfl⟩ := named v mem p hp mentions
      exact .inl ⟨n, rfl, p, hp, mentions⟩
    · exact .inr out
  intro k
  by_cases empty : vars.isEmpty = true
  · have atLength : k = plan.result.length := by simp only [k, empty, if_true, Option.getD_none]
    rw [atLength]
    refine ⟨Nat.le_refl _, atEnd, ?_⟩
    rw [List.take_length, h.patterns, waitsFor, if_pos empty]
  · cases found : bindingPlace vars [] plan.result with
    | none =>
        have atLength : k = plan.result.length := by
          simp only [k, empty, Bool.false_eq_true, if_false, found, Option.getD_none]
        rw [atLength]
        refine ⟨Nat.le_refl _, atEnd, ?_⟩
        rw [List.take_length, waitsFor, if_neg empty, ← h.patterns, bindingPlace_none found]
    | some place =>
        have atPlace : k = place := by
          simp only [k, empty, Bool.false_eq_true, if_false, found, Option.getD_some]
        obtain ⟨le, sub, same⟩ := bindingPlace_some found
        rw [atPlace, waitsFor, if_neg empty, ← h.patterns]
        refine ⟨le, fun v mem => ?_, same⟩
        obtain ⟨p, hp, mentions⟩ := List.mem_flatMap.1 (by simpa using sub mem)
        have mentions := mem_patternBoundVars.1 mentions
        have inPatterns : p ∈ ps := by
          rw [← h.patterns, ← clausesOf_take_drop plan.result place, bodyPatterns_append]
          exact List.mem_append_left _ hp
        obtain ⟨n, rfl⟩ := named v mem p inPatterns mentions
        exact mem_flatMap_binds.2 (.inl ⟨n, rfl, p, hp, mentions⟩)

theorem Placed.placeExpr {ps : List Pattern} {plan : Plan} (h : Placed ps plan) {e : Expr}
    {binding : Option Var} (wild : ∀ n, .anon n ∈ exprVars e → ∀ p ∈ ps, ¬ p.Mentions (.anon n))
    (first : ∀ y ∈ binding.toList, ∀ p ∈ waitsFor (exprVars e) ps, ¬ p.Mentions y)
    (new : ∀ y ∈ binding.toList, y ∉ outputs (clausesOf plan.result)) :
    Placed ps (plan.placeExpr (.expr e binding)) ∧
      ∀ y ∈ outputs (clausesOf (plan.placeExpr (.expr e binding)).result),
        y ∈ outputs (clausesOf plan.result) ∨ y ∈ binding.toList := by
  unfold Plan.placeExpr
  by_cases ready : (exprVars e).all plan.placeable.contains = true
  · simp only [ready, if_true]
    obtain ⟨le, needs, before⟩ := exprPlace h wild (all_contains.1 ready)
    have inserted := @Placed.insertAt ps plan h _ le (.expr e binding) (fun _ no => nomatch no) needs
      fun y out => ⟨new y out, by rw [before]; exact first y out⟩
    refine ⟨⟨inserted.well, inserted.patterns, fun v mem => ?_⟩, outputs_insertAt le (.expr e binding)⟩
    rcases List.mem_append.1 mem with old | out
    · exact inserted.placeable v old
    · refine .inr ?_
      have made : clausesOf (plan.insertAt _ (.expr e binding)).result = _ := clausesOf_insertIdx le _
      rw [made, outputs_append, List.mem_append]
      exact .inr (List.mem_flatMap.2 ⟨_, List.mem_cons_self, out⟩)
  · simp only [ready, Bool.false_eq_true, if_false]
    exact ⟨⟨h.well, h.patterns, h.placeable⟩, fun y mem => .inl mem⟩

theorem Placed.placeNot {ps : List Pattern} {plan : Plan} (h : Placed ps plan) {clause : WhereClause}
    (negation : clause.isNegation = true) :
    Placed ps (plan.placeNot clause) ∧
      outputs (clausesOf (plan.placeNot clause).result) ⊆ outputs (clausesOf plan.result) := by
  have notPattern : ∀ p, clause ≠ .pattern p := by
    rintro p rfl
    cases negation
  have needs : clause.needs = Plan.requiredVars clause := by
    cases clause with
    | expr _ _ => cases negation
    | not _ | notJoin _ _ | pattern _ | ruleInvocation _ _ | or _ | orJoin _ _ => rfl
  have none_ : clause.outputs = [] := by
    cases clause with
    | expr _ _ => cases negation
    | not _ | notJoin _ _ | pattern _ | ruleInvocation _ _ | or _ | orJoin _ _ => rfl
  have named : ∀ v ∈ Plan.requiredVars clause, ∃ n, v = .named n := by
    intro v mem
    have notAnon : v.isAnon = false := by
      cases clause with
      | not body => simpa using (List.mem_filter.1 mem).2
      | notJoin joinVars body => simpa using (List.mem_filter.1 mem).2
      | expr _ _ | pattern _ | ruleInvocation _ _ | or _ | orJoin _ _ => cases negation
    cases v with
    | named n => exact ⟨n, rfl⟩
    | anon n => cases notAnon
  have atPlace : ∀ {k : Nat}, k ≤ plan.result.length →
      Plan.requiredVars clause ⊆ (clausesOf (plan.result.take k)).flatMap WhereClause.binds →
      Placed ps (plan.insertAt k clause) ∧
        outputs (clausesOf (plan.insertAt k clause).result) ⊆ outputs (clausesOf plan.result) := by
    intro k le sub
    refine ⟨h.insertAt le notPattern (needs ▸ sub) (by rw [none_]; exact fun _ no => nomatch no), fun y mem => ?_⟩
    have made := outputs_insertAt le clause y mem
    rw [none_] at made
    exact made.resolve_right List.not_mem_nil
  unfold Plan.placeNot
  by_cases empty : (Plan.requiredVars clause).isEmpty = true
  · simp only [empty, if_true]
    refine atPlace (Nat.zero_le _) ?_
    rw [List.isEmpty_iff.1 empty]
    exact List.nil_subset _
  · simp only [empty, Bool.false_eq_true, if_false]
    cases found : bindingPlace (Plan.requiredVars clause) [] plan.result with
    | none => exact ⟨⟨h.well, h.patterns, h.placeable⟩, List.Subset.refl _⟩
    | some place =>
        obtain ⟨le, sub, -⟩ := bindingPlace_some found
        refine atPlace le fun v mem => ?_
        obtain ⟨n, rfl⟩ := named v mem
        obtain ⟨p, hp, mentions⟩ := List.mem_flatMap.1 (by simpa using sub mem)
        exact mem_flatMap_binds.2 (.inl ⟨n, rfl, p, hp, mem_patternBoundVars.1 mentions⟩)

theorem Placed.ofPatterns (ps : List Pattern) : Placed ps (Plan.ofPatterns ps) := by
  have clauses : clausesOf (Plan.ofPatterns ps).result = ps.map .pattern := by
    simp only [clausesOf, Plan.ofPatterns, List.map_map]
    rfl
  refine ⟨?_, ?_, fun v mem => .inl mem⟩
  · rw [clauses]
    generalize ([] : List Var) = bound
    induction ps generalizing bound with
    | nil => trivial
    | cons p ps ih => exact ⟨List.nil_subset _, (fun _ no => nomatch no), ih (by
        simp only [clausesOf, Plan.ofPatterns, List.map_map]
        rfl) _⟩
  · rw [clauses, bodyPatterns, List.filterMap_map]
    exact List.filterMap_some

theorem outputs_ofPatterns (ps : List Pattern) : outputs (clausesOf (Plan.ofPatterns ps).result) = [] := by
  induction ps with
  | nil => rfl
  | cons p ps ih => exact ih

/-- Placing the expressions one after the other. -/
theorem Placed.placeExprs {ps : List Pattern} {plan : Plan} (h : Placed ps plan) {exprs : List WhereClause}
    (isExpr : ∀ clause ∈ exprs, clause.isExpr = true)
    (wild : ∀ n e binding, .expr e binding ∈ exprs → .anon n ∈ exprVars e → ∀ p ∈ ps, ¬ p.Mentions (.anon n))
    (first : ∀ e y, .expr e (some y) ∈ exprs → ∀ p ∈ waitsFor (exprVars e) ps, ¬ p.Mentions y)
    (once : (outputs exprs).Nodup) (new : ∀ y ∈ outputs exprs, y ∉ outputs (clausesOf plan.result)) :
    Placed ps (exprs.foldl Plan.placeExpr plan) ∧
      ∀ y ∈ outputs (clausesOf (exprs.foldl Plan.placeExpr plan).result),
        y ∈ outputs (clausesOf plan.result) ∨ y ∈ outputs exprs := by
  induction exprs generalizing plan with
  | nil => exact ⟨h, fun y mem => .inl mem⟩
  | cons clause exprs ih =>
      cases clause with
      | expr e binding =>
          rw [outputs_cons] at once new
          obtain ⟨placed, grown⟩ := h.placeExpr (fun n => wild n e binding List.mem_cons_self)
            (fun y mem => first e y (by
              rw [Option.mem_toList] at mem
              cases mem
              exact List.mem_cons_self))
            (fun y mem => new y (List.mem_append_left _ mem))
          have apart := (List.nodup_append.1 once).2.2
          obtain ⟨whole, all⟩ := ih placed (fun c mem => isExpr c (List.mem_cons_of_mem _ mem))
            (fun n e binding mem => wild n e binding (List.mem_cons_of_mem _ mem))
            (fun e y mem => first e y (List.mem_cons_of_mem _ mem)) (List.nodup_append.1 once).2.1
            (fun y mem old => by
              rcases grown y old with early | here
              · exact new y (List.mem_append_right _ mem) early
              · exact apart y here y mem rfl)
          refine ⟨whole, fun y mem => ?_⟩
          rw [outputs_cons, List.mem_append]
          rcases all y mem with old | later
          · exact (grown y old).imp_right .inl
          · exact .inr (.inr later)
      | pattern _ | ruleInvocation _ _ | not _ | notJoin _ _ | or _ | orJoin _ _ =>
          cases isExpr _ List.mem_cons_self

theorem Placed.placeNots {ps : List Pattern} {plan : Plan} (h : Placed ps plan) {nots : List WhereClause}
    (negation : ∀ clause ∈ nots, clause.isNegation = true) :
    Placed ps (nots.foldl Plan.placeNot plan) ∧
      outputs (clausesOf (nots.foldl Plan.placeNot plan).result) ⊆ outputs (clausesOf plan.result) := by
  induction nots generalizing plan with
  | nil => exact ⟨h, List.Subset.refl _⟩
  | cons clause nots ih =>
      obtain ⟨placed, kept⟩ := h.placeNot (negation clause List.mem_cons_self)
      obtain ⟨whole, all⟩ := ih placed fun c mem => negation c (List.mem_cons_of_mem _ mem)
      exact ⟨whole, List.Subset.trans all kept⟩

/-! ## Nothing lost, nothing doubled -/

theorem Build.sortBy_perm {α : Type} (build : Build) (le : α → α → Bool) (xs : List α) :
    (build.sortBy le xs).Perm xs := by
  cases build with
  | native => exact List.mergeSort_perm xs le
  | wasm => exact .refl _

/-- The clauses of a plan, placed or put off. -/
def Plan.all (plan : Plan) : List WhereClause := clausesOf plan.result ++ plan.deferred

theorem Plan.all_insertAt {plan : Plan} {k : Nat} (le : k ≤ plan.result.length) (clause : WhereClause) :
    (plan.insertAt k clause).all.Perm (clause :: plan.all) := by
  have made : clausesOf (plan.insertAt k clause).result = _ := clausesOf_insertIdx le clause
  rw [Plan.all, made, Plan.all, ← clausesOf_take_drop plan.result k]
  exact (List.perm_middle.append_right _).trans (.refl _)

theorem Plan.all_defer (plan : Plan) (clause : WhereClause) :
    (plan.defer clause).all.Perm (clause :: plan.all) := by
  rw [Plan.all, Plan.all, Plan.defer, ← List.append_assoc]
  exact List.perm_append_singleton _ _

theorem Plan.all_placeExpr (plan : Plan) (e : Expr) (binding : Option Var) :
    (plan.placeExpr (.expr e binding)).all.Perm (.expr e binding :: plan.all) := by
  have le : ∀ place : Option Nat, (∀ k, place = some k → k ≤ plan.result.length) →
      place.getD plan.result.length ≤ plan.result.length := by
    intro place inside
    cases place with
    | none => exact Nat.le_refl _
    | some k => exact inside k rfl
  unfold Plan.placeExpr
  simp only
  split
  · refine Plan.all_insertAt (le _ fun k found => ?_) _
    split at found
    · cases found
    · exact (bindingPlace_some found).1
  · exact plan.all_defer _

theorem Plan.all_placeNot (plan : Plan) (clause : WhereClause) :
    (plan.placeNot clause).all.Perm (clause :: plan.all) := by
  unfold Plan.placeNot
  simp only
  split
  · exact Plan.all_insertAt (Nat.zero_le _) _
  · split
    · rename_i place found
      exact Plan.all_insertAt (bindingPlace_some found).1 _
    · exact plan.all_defer _

theorem perm_foldl {place : Plan → WhereClause → Plan} {clauses : List WhereClause}
    (step : ∀ plan : Plan, ∀ clause ∈ clauses, (place plan clause).all.Perm (clause :: plan.all)) (plan : Plan) :
    (clauses.foldl place plan).all.Perm (clauses ++ plan.all) := by
  induction clauses generalizing plan with
  | nil => exact .refl _
  | cons clause clauses ih =>
      refine (ih (fun plan c mem => step plan c (List.mem_cons_of_mem _ mem)) _).trans ?_
      exact ((step plan clause List.mem_cons_self).append_left clauses).trans List.perm_middle

def WhereClause.isPlanned : WhereClause → Bool
  | .pattern _ => true
  | clause => clause.isExpr || clause.isNegation

theorem split_planned (clauses : List WhereClause) :
    (clauses.filter WhereClause.isNegation ++ (clauses.filter WhereClause.isExpr ++
      (bodyPatterns clauses).map WhereClause.pattern)).Perm (clauses.filter WhereClause.isPlanned) := by
  induction clauses with
  | nil => exact .refl _
  | cons clause clauses ih =>
      cases clause with
      | pattern p =>
          rw [← List.append_assoc] at ih ⊢
          exact List.perm_middle.trans (ih.cons _)
      | expr e binding => exact List.perm_middle.trans (ih.cons _)
      | not body => exact ih.cons _
      | notJoin joinVars body => exact ih.cons _
      | ruleInvocation _ _ | or _ | orJoin _ _ => exact ih

/-- The plan holds each clause it is given once, placed or put off. -/
theorem plan_perm (build : Build) (clauses : List WhereClause) :
    (clausesOf (plan build clauses).1 ++ (plan build clauses).2).Perm (clauses.filter WhereClause.isPlanned) := by
  have exprs : ∀ plan : Plan, ∀ clause ∈ clauses.filter WhereClause.isExpr,
      (plan.placeExpr clause).all.Perm (clause :: plan.all) := by
    intro plan clause mem
    cases clause with
    | expr e binding => exact plan.all_placeExpr e binding
    | pattern _ | ruleInvocation _ _ | not _ | notJoin _ _ | or _ | orJoin _ _ =>
        cases (List.mem_filter.1 mem).2
  have start : (Plan.ofPatterns (sortedPatterns build clauses)).all.Perm
      ((bodyPatterns clauses).map .pattern) := by
    have made : (Plan.ofPatterns (sortedPatterns build clauses)).all =
        (sortedPatterns build clauses).map .pattern := by
      simp only [Plan.all, clausesOf, Plan.ofPatterns, List.map_map, List.append_nil]
      rfl
    rw [made]
    exact (build.sortBy_perm _ _).map _
  have whole := @perm_foldl Plan.placeNot (sortedNots build clauses)
    (fun plan clause _ => plan.all_placeNot clause)
    ((clauses.filter WhereClause.isExpr).foldl Plan.placeExpr (Plan.ofPatterns (sortedPatterns build clauses)))
  refine whole.trans (.trans ?_ (split_planned clauses))
  exact (build.sortBy_perm _ _).append ((perm_foldl exprs _).trans (start.append_left _))

theorem mem_of_planned {build : Build} {clauses : List WhereClause} {clause : WhereClause}
    (mem : clause ∈ clausesOf (plan build clauses).1) : clause ∈ clauses :=
  (List.mem_filter.1 ((plan_perm build clauses).mem_iff.1 (List.mem_append_left _ mem))).1

theorem mem_sortedPatterns {build : Build} {clauses : List WhereClause} {p : Pattern} :
    p ∈ sortedPatterns build clauses ↔ .pattern p ∈ clauses := by
  rw [sortedPatterns, (build.sortBy_perm _ _).mem_iff, bodyPatterns, List.mem_filterMap]
  constructor
  · rintro ⟨clause, mem, found⟩
    cases clause with
    | pattern q =>
        cases found
        exact mem
    | expr _ _ | ruleInvocation _ _ | not _ | notJoin _ _ | or _ | orJoin _ _ => cases found
  · exact fun mem => ⟨_, mem, rfl⟩

theorem outputs_filter (clauses : List WhereClause) :
    outputs (clauses.filter WhereClause.isExpr) = outputs clauses := by
  induction clauses with
  | nil => rfl
  | cons clause clauses ih =>
      cases clause with
      | expr e binding => exact congrArg (binding.toList ++ ·) ih
      | pattern _ | ruleInvocation _ _ | not _ | notJoin _ _ | or _ | orJoin _ _ => exact ih

/-- The plan is well placed over the sorted patterns. -/
theorem plan_placed {build : Build} {clauses : List WhereClause} (first : OutputsFirst build clauses)
    (wild : WildcardsApart clauses) :
    WellPlaced [] (clausesOf (plan build clauses).1) ∧
      bodyPatterns (clausesOf (plan build clauses).1) = sortedPatterns build clauses := by
  have isExpr : ∀ {e : Expr} {binding : Option Var},
      .expr e binding ∈ clauses.filter WhereClause.isExpr → .expr e binding ∈ clauses :=
    fun mem => (List.mem_filter.1 mem).1
  have exprs := (Placed.ofPatterns (sortedPatterns build clauses)).placeExprs
    (fun clause mem => (List.mem_filter.1 mem).2)
    (fun n e binding mem read p hp => wild.read n e binding (isExpr mem) read p (mem_sortedPatterns.1 hp))
    (fun e y mem => first.first e y (isExpr mem)) (by rw [outputs_filter]; exact first.once)
    (fun y _ => by rw [outputs_ofPatterns]; exact List.not_mem_nil)
  have negation : ∀ clause ∈ sortedNots build clauses, clause.isNegation = true := fun clause mem =>
    (List.mem_filter.1 ((build.sortBy_perm _ _).mem_iff.1 mem)).2
  have nots := exprs.1.placeNots negation
  exact ⟨nots.1.well, nots.1.patterns⟩

theorem outputs_mono {as bs : List WhereClause} (sub : as ⊆ bs) : outputs as ⊆ outputs bs := by
  intro y mem
  obtain ⟨clause, hc, out⟩ := List.mem_flatMap.1 mem
  exact List.mem_flatMap.2 ⟨clause, sub hc, out⟩

theorem plan_tame {build : Build} {clauses : List WhereClause}
    (call : ∀ e binding, .expr e binding ∈ clauses → e.isCall = true) (wild : WildcardsApart clauses) :
    Tame [] (clausesOf (plan build clauses).1) where
  call e binding mem := call e binding (mem_of_planned mem)
  pattern n out p hp :=
    (wild.bound n (outputs_mono (fun _ => mem_of_planned) out)).1 p (mem_of_planned hp)
  negation n out clause hc :=
    (wild.bound n (outputs_mono (fun _ => mem_of_planned) out)).2 clause (mem_of_planned hc)

/-- What the parser hands on: expressions are calls, and the safety checks pass. -/
structure Accepted (clauses : List WhereClause) : Prop where
  call : ∀ e binding, .expr e binding ∈ clauses → e.isCall = true
  safe : checkSafety clauses = .ok ()

theorem WildcardsApart.perm {clauses clauses' : List WhereClause} (h : WildcardsApart clauses)
    (perm : clauses'.Perm clauses) : WildcardsApart clauses' where
  bound n out :=
    have here := h.bound n (outputs_mono perm.subset out)
    ⟨fun p mem => here.1 p (perm.mem_iff.1 mem), fun c mem => here.2 c (perm.mem_iff.1 mem)⟩
  read n e binding mem reads p hp := h.read n e binding (perm.mem_iff.1 mem) reads p (perm.mem_iff.1 hp)

end Minigraf
