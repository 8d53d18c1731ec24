import Minigraf.Query.MagicSets

/-!
The demand rewrite keeps programs evaluable. The adornments it settles on are closed: a call
that reads a guarded predicate supplies the demand the guard waits for, through a seed or
through a propagation rule, unless it passes a variable there that no body binds. Where the
registry leaves the names of the magic predicates alone, the rewritten registry is stratifiable
if the registry is: negation only ever reads predicates that are left unguarded, and these read
no guarded one.
-/

namespace Minigraf

/-! ## Invocations -/

theorem mem_bodyInvocations {body : List WhereClause} {p : String} :
    p ∈ bodyInvocations body ↔ ∃ clause ∈ body, p ∈ clause.ruleInvocations := by
  induction body with
  | nil => simp [bodyInvocations]
  | cons clause rest ih => rw [bodyInvocations, List.mem_append, ih, List.exists_mem_cons_iff]

theorem mem_branchInvocations {branches : List (List WhereClause)} {p : String} :
    p ∈ branchInvocations branches ↔
      ∃ branch ∈ branches, ∃ clause ∈ branch, p ∈ clause.ruleInvocations := by
  induction branches with
  | nil => simp [branchInvocations]
  | cons branch rest ih =>
      rw [branchInvocations, List.mem_append, ih, mem_bodyInvocations, List.exists_mem_cons_iff]

theorem invocation_of_negatedCalls {body : List WhereClause} {p : String} {negative : Bool}
    (h : (p, negative) ∈ negatedCalls body) : p ∈ bodyInvocations body := by
  obtain ⟨-, args, hclause⟩ := mem_negatedCalls.mp h
  refine mem_bodyInvocations.mpr ⟨_, hclause, ?_⟩
  rw [WhereClause.ruleInvocations]
  exact List.mem_singleton_self p

mutual

/-- A dependency of a clause is a call somewhere in it. -/
theorem invocation_of_dep (clause : WhereClause) {dep : String × Bool}
    (h : dep ∈ collectClauseDeps clause) : dep.1 ∈ clause.ruleInvocations := by
  cases clause with
  | pattern _ | expr _ _ =>
      rw [collectClauseDeps] at h
      cases h
  | ruleInvocation predicate args =>
      rw [collectClauseDeps, List.mem_singleton] at h
      rw [h, WhereClause.ruleInvocations]
      exact List.mem_singleton_self predicate
  | not inner | notJoin _ inner =>
      rw [collectClauseDeps] at h
      rw [WhereClause.ruleInvocations]
      exact invocation_of_negatedCalls h
  | or branches | orJoin _ branches =>
      rw [collectClauseDeps] at h
      rw [WhereClause.ruleInvocations]
      exact invocation_of_branchDep branches h

theorem invocation_of_bodyDep (body : List WhereClause) {dep : String × Bool}
    (h : dep ∈ collectBodyDeps body) : dep.1 ∈ bodyInvocations body := by
  cases body with
  | nil => cases h
  | cons clause rest =>
      rw [collectBodyDeps] at h
      rw [bodyInvocations]
      exact List.mem_append.mpr ((List.mem_append.mp h).imp (invocation_of_dep clause)
        (invocation_of_bodyDep rest))

theorem invocation_of_branchDep (branches : List (List WhereClause)) {dep : String × Bool}
    (h : dep ∈ collectBranchDeps branches) : dep.1 ∈ branchInvocations branches := by
  cases branches with
  | nil => cases h
  | cons branch rest =>
      rw [collectBranchDeps] at h
      rw [branchInvocations]
      exact List.mem_append.mpr ((List.mem_append.mp h).imp (invocation_of_bodyDep branch)
        (invocation_of_branchDep rest))

end

/-- A call, as against a clause that may hold calls. -/
def WhereClause.IsCall : WhereClause → Prop
  | .ruleInvocation _ _ => True
  | _ => False

/-- What is used negatively is used in a clause that is no call. -/
theorem not_isCall_of_negative {clause : WhereClause} {p : String}
    (h : (p, true) ∈ collectClauseDeps clause) : ¬ clause.IsCall := by
  cases clause with
  | ruleInvocation predicate args =>
      rw [collectClauseDeps, List.mem_singleton] at h
      cases h
  | pattern _ | expr _ _ | not _ | notJoin _ _ | or _ | orJoin _ _ => exact id

namespace RuleRegistry

variable {registry : RuleRegistry}

theorem mem_getRules {head : String} {rule : Rule} :
    rule ∈ registry.getRules head ↔ registry.HasRule head rule := by
  obtain ⟨entries, nodup⟩ := registry
  simp only [getRules, HasRule]
  induction entries with
  | nil => simp
  | cons entry rest ih =>
      obtain ⟨fresh, nodup'⟩ := List.nodup_cons.mp nodup
      rw [List.lookup_cons, List.exists_mem_cons_iff]
      by_cases same : head = entry.1
      · have absent : ¬ ∃ e ∈ rest, head = e.1 ∧ rule ∈ e.2 := by
          rintro ⟨e, he, same', -⟩
          exact fresh (List.mem_map.mpr ⟨e, he, same'.symm.trans same⟩)
        rw [or_iff_left absent, same]
        simp
      · rw [beq_false_of_ne same]
        simp only [same, false_and, false_or]
        exact ih nodup'

end RuleRegistry

/-! ## Reached predicates -/

section

variable (env : Env) (query : List WhereClause) (registry : RuleRegistry)

/-- The query calls the predicate, or a predicate it reaches does. -/
def Called (p : String) : Prop :=
  ∃ q ∈ bodyInvocations query, Relation.ReflTransGen (Digraph.Step registry.calls) q p

variable {env query registry}

theorem mem_reachablePredicates {p : String} :
    p ∈ reachablePredicates query registry ↔ Called query registry p := by
  rw [reachablePredicates, Digraph.mem_visit_iff]
  simp only [List.mem_reverse, Called]

theorem Called.call {head : String} {rule : Rule} (reached : Called query registry head)
    (has : registry.HasRule head rule) {p : String} (hp : p ∈ bodyInvocations rule.body) :
    Called query registry p := by
  obtain ⟨q, hq, path⟩ := reached
  exact ⟨q, hq, path.tail (List.mem_flatMap.mpr ⟨rule, RuleRegistry.mem_getRules.mpr has, hp⟩)⟩

/-! ## The demand noted -/

/-- A position bound in the demand on a predicate is bound at every site that calls it. -/
theorem foldl_noteSite_bound {sites : List (String × Adornment)} {start : String → Option Adornment}
    {p : String} {result : Adornment} {i : Nat} (h : sites.foldl noteSite start p = some result)
    (bound : result[i]? = some true) :
    (∀ d, start p = some d → d.length = result.length ∧ d[i]? = some true) ∧
    ∀ site ∈ sites, site.1 = p → site.2.length = result.length ∧ site.2[i]? = some true := by
  induction sites generalizing start with
  | nil =>
      refine ⟨fun d hd => ?_, fun _ no => nomatch no⟩
      cases hd.symm.trans h
      exact ⟨rfl, bound⟩
  | cons site sites ih =>
      obtain ⟨first, rest⟩ := ih h
      by_cases here : site.1 = p
      · rw [noteSite, here, Function.update_self] at first
        have noted := first _ rfl
        cases before : start p with
        | none =>
            rw [before] at noted
            refine ⟨(fun _ no => nomatch no), fun s hs same => ?_⟩
            rcases List.mem_cons.mp hs with rfl | hs
            · exact noted
            · exact rest s hs same
        | some d =>
            rw [before] at noted
            obtain ⟨same, left, right⟩ := meet_bound noted.2
            have size : d.length = result.length := by
              rw [← noted.1]
              simp [length_meet, same]
            refine ⟨fun d' hd' => ?_, fun s hs same' => ?_⟩
            · cases hd'
              exact ⟨size, left⟩
            · rcases List.mem_cons.mp hs with rfl | hs
              · exact ⟨same ▸ size, right⟩
              · exact rest s hs same'
      · rw [noteSite, Function.update_of_ne (Ne.symm here)] at first
        refine ⟨first, fun s hs same => ?_⟩
        rcases List.mem_cons.mp hs with rfl | hs
        · exact absurd same here
        · exact rest s hs same

/-- The variables known after some clauses of a body. -/
def groundedAfter : List Var → List WhereClause → List Var
  | grounded, [] => grounded
  | grounded, .pattern p :: rest =>
      groundedAfter ([p.entity, p.value].filterMap EdnValue.asVariable ++ grounded) rest
  | grounded, .ruleInvocation _ args :: rest =>
      groundedAfter (args.filterMap EdnValue.asVariable ++ grounded) rest
  | grounded, _ :: rest => groundedAfter grounded rest

theorem site_of_call {guarded : Bool} {grounded : List Var} {body : List WhereClause} {k : Nat}
    {p : String} {args : List EdnValue} (h : body[k]? = some (.ruleInvocation p args)) :
    (p, if guarded then args.mapIdx (argGrounded env (groundedAfter grounded (body.take k)))
      else List.replicate args.length false) ∈ bodySites env guarded grounded body := by
  induction body generalizing k grounded with
  | nil => cases h
  | cons clause rest ih =>
      cases k with
      | zero =>
          cases h
          rw [bodySites]
          exact List.mem_cons_self
      | succ k =>
          rw [List.getElem?_cons_succ] at h
          rw [List.take_succ_cons]
          cases clause with
          | pattern q =>
              rw [bodySites, groundedAfter]
              exact ih h
          | ruleInvocation q args' =>
              rw [bodySites, groundedAfter]
              exact List.mem_cons_of_mem _ (ih h)
          | not _ | notJoin _ _ | expr _ _ | or _ | orJoin _ _ =>
              rw [groundedAfter]
              · exact List.mem_append_right _ (ih h)
              all_goals simp

theorem site_of_nested {guarded : Bool} {grounded : List Var} {body : List WhereClause}
    {clause : WhereClause} (h : clause ∈ body) (nested : ¬ clause.IsCall) {p : String}
    (hp : p ∈ clause.ruleInvocations) : (p, []) ∈ bodySites env guarded grounded body := by
  induction body generalizing grounded with
  | nil => cases h
  | cons first rest ih =>
      rcases List.mem_cons.mp h with rfl | later
      · cases clause with
        | pattern _ | expr _ _ =>
            rw [WhereClause.ruleInvocations] at hp
            cases hp
        | ruleInvocation _ _ => exact absurd trivial nested
        | not _ | notJoin _ _ | or _ | orJoin _ _ =>
            exact List.mem_append_left _ (List.mem_map.mpr ⟨p, hp, rfl⟩)
      · cases first with
        | pattern q =>
            rw [bodySites]
            exact ih later
        | ruleInvocation q args' =>
            rw [bodySites]
            exact List.mem_cons_of_mem _ (ih later)
        | not _ | notJoin _ _ | expr _ _ | or _ | orJoin _ _ =>
            exact List.mem_append_right _ (ih later)

/-! ## Settled adornments -/

theorem solveLoop_fixed (adorned : Adorned) :
    solveRound env query registry (solveLoop env query registry adorned) =
      solveLoop env query registry adorned := by
  induction adorned using solveLoop.induct env query registry with
  | case1 adorned next same =>
      rw [solveLoop, if_pos same]
      exact same
  | case2 adorned next differ ih =>
      rw [solveLoop, if_neg differ]
      exact ih

theorem key_of_mem_solveLoop {adorned : Adorned} {p : String} {ad : Adornment}
    (h : (p, ad) ∈ solveLoop env query registry adorned) : p ∈ adorned.map Prod.fst := by
  induction adorned using solveLoop.induct env query registry with
  | case1 adorned next same =>
      rw [solveLoop, if_pos same] at h
      exact List.mem_map_of_mem h
  | case2 adorned next differ ih =>
      rw [solveLoop, if_neg differ] at h
      obtain ⟨entry', hentry', rfl⟩ := List.mem_map.mp (ih h)
      obtain ⟨entry, hentry, weakened⟩ := List.mem_filterMap.mp hentry'
      obtain ⟨site, n, -, -, rfl⟩ := weaken_eq_some weakened
      exact List.mem_map.mpr ⟨entry, hentry, rfl⟩

theorem eq_some_of_filterMap_eq {α : Type} {f : α → Option α} {l : List α}
    (h : l.filterMap f = l) : ∀ a ∈ l, f a = some a := by
  induction l with
  | nil => exact fun _ no => nomatch no
  | cons b l ih =>
      cases found : f b with
      | none =>
          rw [List.filterMap_cons_none found] at h
          have := List.length_filterMap_le f l
          rw [h, List.length_cons] at this
          omega
      | some c =>
          rw [List.filterMap_cons_some found] at h
          obtain ⟨rfl, rest⟩ := List.cons.inj h
          intro a ha
          rcases List.mem_cons.mp ha with rfl | ha
          · exact found
          · exact ih rest a ha

/-- One position of a settled adornment is bound, and every site binds it. -/
structure Settled (env : Env) (query : List WhereClause) (registry : RuleRegistry)
    (adorned : Adorned) (p : String) (ad : Adornment) (i : Nat) : Prop where
  small : i < 2
  only : ∀ j, ad[j]? = some true ↔ j = i
  sites : ∀ site ∈ callSites env query registry adorned, site.1 = p →
    site.2.length = ad.length ∧ site.2[i]? = some true

theorem mem_of_lookup_adorned {adorned : Adorned} {p : String} {ad : Adornment}
    (h : adorned.lookup p = some ad) : (p, ad) ∈ adorned := by
  obtain ⟨l₁, l₂, split, -⟩ := List.lookup_eq_some_iff.mp h
  rw [split]
  exact List.mem_append_right _ List.mem_cons_self

theorem settled {p : String} {ad : Adornment}
    (h : (solveAdornments env query registry).lookup p = some ad) :
    ∃ i, Settled env query registry (solveAdornments env query registry) p ad i := by
  have fixed : solveRound env query registry (solveAdornments env query registry) =
      solveAdornments env query registry := solveLoop_fixed _
  obtain ⟨site, n, demanded, normal, same⟩ :=
    weaken_eq_some (eq_some_of_filterMap_eq fixed _ (mem_of_lookup_adorned h))
  cases same
  obtain ⟨size, i, small, bound, only⟩ := normalize_eq_some normal
  obtain ⟨sameLength, -, atSite⟩ := meet_bound bound
  refine ⟨i, small, only, fun s hs same => ?_⟩
  obtain ⟨length, there⟩ := (foldl_noteSite_bound demanded atSite).2 s hs same
  exact ⟨length.trans sameLength.symm, there⟩

/-- Only predicates that are reached and have rules are guarded. -/
theorem reached_of_adorned {p : String} {ad : Adornment}
    (h : (solveAdornments env query registry).lookup p = some ad) :
    Called query registry p ∧ ∃ rule, registry.HasRule p rule := by
  obtain ⟨⟨p', all⟩, hentry, rfl⟩ := List.mem_map.mp (key_of_mem_solveLoop (mem_of_lookup_adorned h))
  obtain ⟨q, hq, found⟩ := List.mem_filterMap.mp hentry
  simp only [Option.bind_eq_bind, Option.bind_eq_some_iff] at found
  obtain ⟨rule, first, found⟩ := found
  split at found
  · cases found
  · cases found
    exact ⟨mem_reachablePredicates.mp hq, rule,
      RuleRegistry.mem_getRules.mp (List.mem_of_mem_head? first)⟩

/-! ## Call sites -/

theorem mem_callSites_of_rule {adorned : Adorned} {head : String} {rule : Rule}
    (reached : Called query registry head) (has : registry.HasRule head rule)
    {site : String × Adornment} (h : site ∈ ruleSites env (adorned.lookup head) rule) :
    site ∈ callSites env query registry adorned := by
  refine List.mem_append_right _ (List.mem_flatMap.mpr ⟨head, mem_reachablePredicates.mpr reached, ?_⟩)
  exact List.mem_flatMap.mpr ⟨rule, RuleRegistry.mem_getRules.mpr has, h⟩

/-- A call that reads a guarded predicate stands in a guarded rule, which knows the
argument in the bound position. -/
theorem Settled.call {adorned : Adorned} {p : String} {ad : Adornment} {i : Nat}
    (h : Settled env query registry adorned p ad i) {head : String} {rule : Rule}
    (reached : Called query registry head) (has : registry.HasRule head rule) {k : Nat}
    {args : List EdnValue} (call : rule.body[k]? = some (.ruleInvocation p args)) :
    hasNegation rule = false ∧ ∃ headAd arg, adorned.lookup head = some headAd ∧
      args.length = ad.length ∧ args[i]? = some arg ∧
      argGrounded env (groundedAfter (headVars headAd rule) (rule.body.take k)) i arg = true := by
  have there : ∀ site ∈ ruleSites env (adorned.lookup head) rule, site.1 = p →
      site.2.length = ad.length ∧ site.2[i]? = some true :=
    fun site hsite => h.sites site (mem_callSites_of_rule reached has hsite)
  rw [ruleSites] at there
  split at there
  · next headAd guarded =>
      split at guarded
      · cases guarded
      · next plain =>
          obtain ⟨size, bound⟩ := there _ (site_of_call call) rfl
          rw [if_pos rfl, List.length_mapIdx] at size
          rw [if_pos rfl, List.getElem?_mapIdx] at bound
          obtain ⟨arg, harg, known⟩ := Option.map_eq_some_iff.mp bound
          exact ⟨by simpa using plain, headAd, arg, guarded, size, harg, known⟩
  · obtain ⟨-, bound⟩ := there _ (site_of_call call) rfl
    simp only [Bool.false_eq_true, if_false, List.getElem?_replicate] at bound
    split at bound <;> simp at bound

/-- What is called in a clause that is no call is left unguarded. -/
theorem unguarded_of_nested {p : String} {clause : WhereClause} (nested : ¬ clause.IsCall)
    (hp : p ∈ clause.ruleInvocations)
    (place : clause ∈ query ∨ ∃ head rule, Called query registry head ∧
      registry.HasRule head rule ∧ clause ∈ rule.body) :
    (solveAdornments env query registry).lookup p = none := by
  cases found : (solveAdornments env query registry).lookup p with
  | none => rfl
  | some ad =>
      obtain ⟨i, set⟩ := settled found
      have site : (p, []) ∈ callSites env query registry (solveAdornments env query registry) := by
        rcases place with inQuery | ⟨head, rule, reached, has, inBody⟩
        · refine List.mem_append_left _ (List.mem_flatMap.mpr ⟨clause, inQuery, ?_⟩)
          cases clause with
          | ruleInvocation _ _ => exact absurd trivial nested
          | pattern _ | expr _ _ | not _ | notJoin _ _ | or _ | orJoin _ _ =>
              exact List.mem_map.mpr ⟨p, hp, rfl⟩
        · refine mem_callSites_of_rule reached has ?_
          rw [ruleSites]
          split
          · exact site_of_nested inBody nested hp
          · exact site_of_nested inBody nested hp
      cases (set.sites _ site rfl).2

/-- A predicate that is reached and unguarded calls no guarded one. -/
theorem unguarded_of_unguarded {head : String} {rule : Rule}
    (reached : Called query registry head) (has : registry.HasRule head rule)
    (free : (solveAdornments env query registry).lookup head = none) {p : String}
    (hp : p ∈ bodyInvocations rule.body) :
    (solveAdornments env query registry).lookup p = none := by
  obtain ⟨clause, hclause, hp⟩ := mem_bodyInvocations.mp hp
  by_cases isCall : clause.IsCall
  · cases clause with
    | ruleInvocation q args =>
        rw [WhereClause.ruleInvocations, List.mem_singleton] at hp
        cases found : (solveAdornments env query registry).lookup p with
        | none => rfl
        | some ad =>
            obtain ⟨i, set⟩ := settled found
            obtain ⟨k, hk, call⟩ := List.getElem_of_mem hclause
            have call' : rule.body[k]? = some (.ruleInvocation p args) := by
              rw [List.getElem?_eq_getElem hk, call, hp]
            obtain ⟨-, headAd, -, guarded, -⟩ := set.call reached has call'
            rw [free] at guarded
            cases guarded
    | pattern _ | expr _ _ | not _ | notJoin _ _ | or _ | orJoin _ _ => exact isCall.elim
  · exact unguarded_of_nested isCall hp (.inr ⟨head, rule, reached, has, hclause⟩)

/-! ## The rules of the rewritten registry -/

theorem hasRule_registerAll {rules : List (String × Rule)} {start : RuleRegistry} {head : String}
    {rule : Rule} :
    (registerAll rules start).HasRule head rule ↔ start.HasRule head rule ∨ (head, rule) ∈ rules := by
  refine (DependencyGraph.foldl_iff (P := fun r : RuleRegistry => r.HasRule head rule)
    (Q := fun r => head = r.1 ∧ rule = r.2)
    (fun _ _ => RuleRegistry.HasRule_registerRuleUnchecked) rules start).trans ?_
  refine or_congr_right ⟨?_, fun h => ⟨_, h, rfl, rfl⟩⟩
  rintro ⟨r, hr, rfl, rfl⟩
  exact hr

theorem mem_buildPropagationRules {rule : Rule} {predicate : String} {adorned : Adorned}
    {r : String × Rule} :
    r ∈ buildPropagationRules env rule predicate adorned ↔
      hasNegation rule = false ∧ ∃ ad, adorned.lookup predicate = some ad ∧
        ∃ k called args calledAd, rule.body[k]? = some (.ruleInvocation called args) ∧
          adorned.lookup called = some calledAd ∧ hasBoundArg calledAd = true ∧
          r = propagationRule env rule predicate ad k called calledAd args := by
  rw [buildPropagationRules]
  cases negation : hasNegation rule with
  | true => simp
  | false =>
      cases guarded : adorned.lookup predicate with
      | none => simp
      | some ad =>
          simp only [Bool.false_eq_true, if_false, List.mem_filterMap, true_and, Option.some.injEq,
            exists_eq_left']
          constructor
          · rintro ⟨⟨clause, k⟩, hclause, built⟩
            cases clause with
            | ruleInvocation called args =>
                obtain ⟨calledAd, found, built⟩ := Option.bind_eq_some_iff.mp built
                cases bound : hasBoundArg calledAd with
                | false => simp [bound] at built
                | true =>
                    simp only [bound, Bool.not_true, Bool.false_eq_true, if_false,
                      Option.some.injEq] at built
                    exact ⟨k, called, args, calledAd, List.mem_zipIdx_iff_getElem?.mp hclause, found,
                      bound, built.symm⟩
            | pattern _ | expr _ _ | not _ | notJoin _ _ | or _ | orJoin _ _ => cases built
          · rintro ⟨k, called, args, calledAd, call, found, bound, rfl⟩
            refine ⟨(.ruleInvocation called args, k), List.mem_zipIdx_iff_getElem?.mpr call, ?_⟩
            simp [found, bound]

/-- A rule of the rewritten registry is a rule of the registry, guarded if its predicate
is, or hands a demand on. -/
theorem hasRule_rewritten {adorned : Adorned} {head : String} {r : Rule} :
    (buildRewrittenRegistry env registry adorned).HasRule head r ↔
      (∃ rule, registry.HasRule head rule ∧
        r = (adorned.lookup head).elim rule (injectMagicGuard env rule head)) ∨
      ∃ predicate rule, registry.HasRule predicate rule ∧
        (head, r) ∈ buildPropagationRules env rule predicate adorned := by
  rw [buildRewrittenRegistry, hasRule_registerAll, hasRule_registerAll]
  have start : ¬ RuleRegistry.new.HasRule head r := fun ⟨_, no, _⟩ => nomatch no
  simp only [start, false_or]
  refine or_congr ?_ ?_
  · simp only [guardedRules, List.mem_flatMap, List.mem_map, Prod.mk.injEq]
    constructor
    · rintro ⟨entry, hentry, rule, hrule, rfl, rfl⟩
      exact ⟨rule, ⟨entry, hentry, rfl, hrule⟩, rfl⟩
    · rintro ⟨rule, ⟨entry, hentry, rfl, hrule⟩, rfl⟩
      exact ⟨entry, hentry, rule, hrule, rfl, rfl⟩
  · simp only [propagationRules, List.mem_flatMap]
    constructor
    · rintro ⟨entry, hentry, built⟩
      split at built
      · obtain ⟨rule, hrule, built⟩ := List.mem_flatMap.mp built
        exact ⟨entry.1, rule, ⟨entry, hentry, rfl, hrule⟩, built⟩
      · cases built
    · rintro ⟨predicate, rule, ⟨entry, hentry, rfl, hrule⟩, built⟩
      refine ⟨entry, hentry, ?_⟩
      obtain ⟨-, ad, guarded, -⟩ := mem_buildPropagationRules.mp built
      rw [if_pos (by rw [guarded]; rfl)]
      exact List.mem_flatMap.mpr ⟨rule, hrule, built⟩

/-! ## Closed adornments -/

/-- The seed that carries an argument of a call in the query. -/
def seedOf (env : Env) (magicName : String) (i : Nat) (arg : EdnValue) :
    Option (EntityId × String × Value) :=
  if i = 0 then (ednToEntityId env arg).map fun entity => (entity, ":" ++ magicName, .boolean true)
  else (ednToValue arg).map fun value => (magicSentinel env magicName, ":" ++ magicName, value)

/-- The head under which a propagation rule hands an argument on. -/
def demandHead (env : Env) (magicName : String) (i : Nat) (arg : EdnValue) : List EdnValue :=
  if i = 0 then [.symbol magicName, arg]
  else [.symbol magicName, .uuid (magicSentinel env magicName), arg]

/-- The variables a clause binds, of those a pattern can bind. -/
def WhereClause.Binds : WhereClause → String → Prop
  | .pattern p, name => p.entity = .var (.named name) ∨ p.value = .var (.named name)
  | .ruleInvocation _ args, name => .var (.named name) ∈ args
  | _, _ => False

/-- The argument is known to whoever evaluates the body first. -/
def Known (env : Env) (body : List WhereClause) (i : Nat) (arg : EdnValue) : Prop :=
  isCarriedLiteral env i arg = true ∨
    ∃ name, arg = .var (.named name) ∧ ∃ clause ∈ body, clause.Binds name

/-- Every call reached from the query supplies the guarded position of the predicate it
calls, through a seed or a propagation rule, or the predicate is unguarded. -/
structure Closed (env : Env) (query : List WhereClause) (registry : RuleRegistry)
    (adorned : Adorned) : Prop where
  seeded : ∀ p args ad, .ruleInvocation p args ∈ query → adorned.lookup p = some ad →
    ∃ i arg seed, (∀ j, ad[j]? = some true ↔ j = i) ∧ args[i]? = some arg ∧
      seedOf env (magicPredName p ad) i arg = some seed ∧ seed ∈ buildSeedFacts env query adorned
  propagated : ∀ head rule k p args ad, Called query registry head → registry.HasRule head rule →
    rule.body[k]? = some (.ruleInvocation p args) → adorned.lookup p = some ad →
    ∃ i arg headAd, (∀ j, ad[j]? = some true ↔ j = i) ∧ args[i]? = some arg ∧
      adorned.lookup head = some headAd ∧
      (buildRewrittenRegistry env registry adorned).HasRule (magicPredName p ad)
        ⟨demandHead env (magicPredName p ad) i arg,
          magicGuard env rule head headAd :: rule.body.take k⟩ ∧
      Known env (magicGuard env rule head headAd :: rule.body.take k) i arg
  unguarded : ∀ clause p, ¬ clause.IsCall → p ∈ clause.ruleInvocations →
    (clause ∈ query ∨ ∃ head rule, Called query registry head ∧
      registry.HasRule head rule ∧ clause ∈ rule.body) → adorned.lookup p = none

/-- No call reached from the query passes a `?_` variable, which no pattern binds, in the
guarded position of the predicate it calls. -/
def NamedDemand (env : Env) (query : List WhereClause) (registry : RuleRegistry) : Prop :=
  ∀ (head : String) (rule : Rule) (k : Nat) (p : String) (args : List EdnValue) (ad : Adornment)
    (i : Nat), Called query registry head → registry.HasRule head rule →
    rule.body[k]? = some (.ruleInvocation p args) →
    (solveAdornments env query registry).lookup p = some ad → ad[i]? = some true →
    ∀ name, args[i]? ≠ some (EdnValue.var (Var.anon name))

theorem boundArgs_eq_nil {ad : Adornment} {args : List EdnValue}
    (off : ∀ j < args.length, ad[j]? ≠ some true) : boundArgs ad args = [] := by
  refine List.filterMap_eq_nil_iff.mpr fun pair hpair => ?_
  obtain ⟨j, hj, rfl⟩ := List.getElem_of_mem hpair
  rw [List.length_zip] at hj
  have here := off j (by omega)
  rw [List.getElem?_eq_getElem (by omega)] at here
  rw [List.getElem_zip]
  simpa using here

theorem boundArgs_of_only {ad : Adornment} {args : List EdnValue} {i : Nat} {arg : EdnValue}
    (only : ∀ j, ad[j]? = some true ↔ j = i) (harg : args[i]? = some arg) :
    boundArgs ad args = [arg] := by
  induction ad generalizing args i with
  | nil => cases (only i).mpr rfl
  | cons flag ad ih =>
      cases args with
      | nil => cases harg
      | cons first args =>
          rw [boundArgs, List.zip_cons_cons]
          cases i with
          | zero =>
              have here : flag = true := by simpa using (only 0).mpr rfl
              have rest : boundArgs ad args = [] :=
                boundArgs_eq_nil fun j _ on => by simpa using (only (j + 1)).mp on
              cases harg
              rw [here, List.filterMap_cons_some (by rfl)]
              exact congrArg _ rest
          | succ i =>
              have there : flag = false := by
                by_contra on
                have := (only 0).mp (by simpa using on)
                omega
              rw [there, List.filterMap_cons_none (by rfl)]
              refine ih (fun j => ?_) harg
              rw [← List.getElem?_cons_succ, only]
              omega

theorem var_of_asVariable {edn : EdnValue} {v : Var} (h : edn.asVariable = some v) : edn = .var v := by
  cases edn with
  | var w =>
      cases h
      rfl
  | keyword _ | underscore | symbol _ | string _ | integer _ | float _ | boolean _ | uuid _
  | vector _ | list _ | map _ | nil | bindSlot _ => cases h

theorem mem_filterMap_asVariable {args : List EdnValue} {v : Var}
    (h : v ∈ args.filterMap EdnValue.asVariable) : .var v ∈ args := by
  obtain ⟨edn, hedn, var⟩ := List.mem_filterMap.mp h
  exact var_of_asVariable var ▸ hedn

/-- A variable that is known was bound by the head or by a clause before. -/
theorem mem_groundedAfter {grounded : List Var} {body : List WhereClause} {name : String}
    (h : Var.named name ∈ groundedAfter grounded body) :
    Var.named name ∈ grounded ∨ ∃ clause ∈ body, clause.Binds name := by
  induction body generalizing grounded with
  | nil => exact .inl h
  | cons clause rest ih =>
      rw [List.exists_mem_cons_iff, or_left_comm]
      cases clause with
      | pattern p =>
          rw [groundedAfter] at h
          rcases ih h with h | h
          · rcases List.mem_append.mp h with h | h
            · have := mem_filterMap_asVariable h
              simp only [List.mem_cons, List.not_mem_nil, or_false] at this
              exact .inl (this.imp Eq.symm Eq.symm)
            · exact .inr (.inl h)
          · exact .inr (.inr h)
      | ruleInvocation q args =>
          rw [groundedAfter] at h
          rcases ih h with h | h
          · exact (List.mem_append.mp h).imp mem_filterMap_asVariable .inl
          · exact .inr (.inr h)
      | not _ | notJoin _ _ | expr _ _ | or _ | orJoin _ _ => exact .inr (ih h)

/-- The guard binds the variable of the head it asks for. -/
theorem magicGuard_binds {rule : Rule} {predicate : String} {ad : Adornment} {i : Nat}
    (only : ∀ j, ad[j]? = some true ↔ j = i) {name : String}
    (h : Var.named name ∈ headVars ad rule) : (magicGuard env rule predicate ad).Binds name := by
  have bound := mem_filterMap_asVariable h
  cases there : (rule.head.drop 1)[i]? with
  | none =>
      have none_ : boundArgs ad (rule.head.drop 1) = [] := by
        refine boundArgs_eq_nil fun j hj on => ?_
        rw [← (only j).mp on, List.getElem?_eq_getElem hj] at there
        cases there
      rw [none_] at bound
      cases bound
  | some arg =>
      rw [boundArgs_of_only only there, List.mem_singleton] at bound
      simp only [magicGuard, boundArgs_of_only only there, List.head?_cons, WhereClause.Binds]
      split
      · exact List.mem_cons_of_mem _ (List.mem_singleton.mpr bound)
      · exact List.mem_singleton.mpr bound

theorem magicArgs_of_only {magicName : String} {ad : Adornment} {args : List EdnValue} {i : Nat}
    {arg : EdnValue} (only : ∀ j, ad[j]? = some true ↔ j = i) (harg : args[i]? = some arg) :
    .symbol magicName :: magicArgs env magicName ad args = demandHead env magicName i arg := by
  rw [magicArgs, boundArgs_of_only only harg, demandHead, valueBound]
  cases ad with
  | nil => cases (only i).mpr rfl
  | cons flag ad =>
      have any : hasBoundArg (flag :: ad) = true :=
        List.contains_iff_mem.mpr (List.mem_of_getElem? ((only i).mpr rfl))
      rw [any]
      cases i with
      | zero =>
          have here : flag = true := by simpa using (only 0).mpr rfl
          simp [here]
      | succ i =>
          have there : flag = false := by
            by_contra on
            exact absurd ((only 0).mp (by simpa using on)) (by omega)
          simp [there]

theorem Settled.hasBoundArg {adorned : Adorned} {p : String} {ad : Adornment} {i : Nat}
    (h : Settled env query registry adorned p ad i) : hasBoundArg ad = true :=
  List.contains_iff_mem.mpr (List.mem_of_getElem? ((h.only i).mpr rfl))

/-- A call of the query to a guarded predicate is seeded. -/
theorem Settled.seeded {adorned : Adorned} {p : String} {ad : Adornment} {i : Nat}
    (h : Settled env query registry adorned p ad i) (found : adorned.lookup p = some ad)
    {args : List EdnValue} (call : .ruleInvocation p args ∈ query) :
    ∃ arg seed, args[i]? = some arg ∧ seedOf env (magicPredName p ad) i arg = some seed ∧
      seed ∈ buildSeedFacts env query adorned := by
  have site : (p, queryCallAdornment env args) ∈ callSites env query registry adorned :=
    List.mem_append_left _ (List.mem_flatMap.mpr ⟨_, call, List.mem_singleton_self _⟩)
  have bound := (h.sites _ site rfl).2
  rw [queryCallAdornment, List.getElem?_mapIdx] at bound
  obtain ⟨arg, harg, carried⟩ := Option.map_eq_some_iff.mp bound
  have at0 : ad[0]? = some true ↔ i = 0 := by rw [h.only]; exact eq_comm
  have at1 : ad[1]? = some true ↔ i = 1 := by rw [h.only]; exact eq_comm
  have small := h.small
  rcases (by omega : i = 0 ∨ i = 1) with rfl | rfl
  · rw [isCarriedLiteral, Bool.and_eq_true] at carried
    obtain ⟨entity, named⟩ := Option.isSome_iff_exists.mp carried.2
    refine ⟨arg, (entity, ":" ++ magicPredName p ad, .boolean true), harg, by simp [seedOf, named], ?_⟩
    refine List.mem_filterMap.mpr ⟨_, call, ?_⟩
    simp [found, h.hasBoundArg, at0, harg, named]
  · rw [isCarriedLiteral, Bool.and_eq_true] at carried
    obtain ⟨value, named⟩ := Option.isSome_iff_exists.mp carried.2
    refine ⟨arg, (magicSentinel env (magicPredName p ad), ":" ++ magicPredName p ad, value), harg,
      by simp [seedOf, named], ?_⟩
    refine List.mem_filterMap.mpr ⟨_, call, ?_⟩
    simp [found, h.hasBoundArg, at0, at1, harg, named, magicSentinel]

/-- A call in a rule to a guarded predicate has its propagation rule. -/
theorem Settled.propagated {p : String} {ad : Adornment} {i : Nat}
    (h : Settled env query registry (solveAdornments env query registry) p ad i)
    (found : (solveAdornments env query registry).lookup p = some ad)
    (named : NamedDemand env query registry) {head : String} {rule : Rule}
    (reached : Called query registry head) (has : registry.HasRule head rule) {k : Nat}
    {args : List EdnValue} (call : rule.body[k]? = some (.ruleInvocation p args)) :
    ∃ arg headAd, args[i]? = some arg ∧
      (solveAdornments env query registry).lookup head = some headAd ∧
      (buildRewrittenRegistry env registry (solveAdornments env query registry)).HasRule
        (magicPredName p ad) ⟨demandHead env (magicPredName p ad) i arg,
          magicGuard env rule head headAd :: rule.body.take k⟩ ∧
      Known env (magicGuard env rule head headAd :: rule.body.take k) i arg := by
  obtain ⟨positive, headAd, arg, guarded, -, harg, known⟩ := h.call reached has call
  refine ⟨arg, headAd, harg, guarded, ?_, ?_⟩
  · refine hasRule_rewritten.mpr (.inr ⟨head, rule, has, mem_buildPropagationRules.mpr ?_⟩)
    refine ⟨positive, headAd, guarded, k, p, args, ad, call, found, h.hasBoundArg, ?_⟩
    rw [propagationRule, magicArgs_of_only h.only harg]
  · rw [argGrounded] at known
    split at known
    · next v var =>
        rw [var_of_asVariable var] at harg ⊢
        cases v with
        | anon name =>
            exact absurd harg (named head rule k p args ad i reached has call found ((h.only i).mpr rfl) name)
        | named name =>
            refine .inr ⟨name, rfl, ?_⟩
            rcases mem_groundedAfter (of_decide_eq_true known) with byHead | ⟨clause, hclause, binds⟩
            · obtain ⟨j, settledHead⟩ := settled guarded
              exact ⟨_, List.mem_cons_self, magicGuard_binds settledHead.only byHead⟩
            · exact ⟨clause, List.mem_cons_of_mem _ hclause, binds⟩
    · exact .inl known

theorem closed_solveAdornments (named : NamedDemand env query registry) :
    Closed env query registry (solveAdornments env query registry) where
  seeded := by
    intro p args ad call found
    obtain ⟨i, set⟩ := settled found
    obtain ⟨arg, seed, harg, carries, mem⟩ := set.seeded found call
    exact ⟨i, arg, seed, set.only, harg, carries, mem⟩
  propagated := by
    intro head rule k p args ad reached has call found
    obtain ⟨i, set⟩ := settled found
    obtain ⟨arg, headAd, harg, guarded, hands, known⟩ := set.propagated found named reached has call
    exact ⟨i, arg, headAd, set.only, harg, guarded, hands, known⟩
  unguarded := fun _ _ nested hp place => unguarded_of_nested nested hp place

theorem not_known_anon {body : List WhereClause} {i : Nat} {name : String} :
    ¬ Known env body i (.var (.anon name)) := by
  rintro (carried | ⟨other, same, -⟩)
  · have free : isCarriedLiteral env i (.var (.anon name)) = false := rfl
    rw [free] at carried
    cases carried
  · cases same

/-- The settled adornments are closed exactly if no call reached passes a `?_` variable in a
guarded position. -/
theorem closed_solveAdornments_iff :
    Closed env query registry (solveAdornments env query registry) ↔ NamedDemand env query registry := by
  refine ⟨fun closed => ?_, closed_solveAdornments⟩
  intro head rule k p args ad i reached has call found bound name there
  obtain ⟨j, arg, headAd, only, harg, -, -, known⟩ := closed.propagated head rule k p args ad reached has call found
  rw [← (only i).mp bound, there] at harg
  cases harg
  exact not_known_anon known

/-! ## Strata of the rewritten registry -/

/-- The names of the magic predicates are left alone: no rule of the registry is for the magic
predicate of a guarded one, and no rule the query reaches calls it. -/
def FreshMarks (env : Env) (query : List WhereClause) (registry : RuleRegistry) : Prop :=
  ∀ p ad, (solveAdornments env query registry).lookup p = some ad →
    (∀ r, ¬ registry.HasRule (magicPredName p ad) r) ∧
      ∀ head rule, Called query registry head → registry.HasRule head rule →
        magicPredName p ad ∉ bodyInvocations rule.body

section Levels

variable (env query registry)

/-- The predicate is the magic predicate of a guarded one. -/
def IsMagic (x : String) : Prop :=
  ∃ p ad, (solveAdornments env query registry).lookup p = some ad ∧ x = magicPredName p ad

def Guarded (x : String) : Prop := ((solveAdornments env query registry).lookup x).isSome = true

open Classical in
/-- Predicates that are reached and unguarded keep their rank, guarded and magic ones share
the next level, and those the query does not reach come above. -/
noncomputable def level (r : String → Nat) (top : Nat) (x : String) : Nat :=
  if IsMagic env query registry x ∨ Guarded env query registry x then top
  else if Called query registry x then r x
  else top + 1 + r x

variable {env query registry} {r : String → Nat} {top : Nat}

theorem Guarded.reached {x : String} (h : Guarded env query registry x) : Called query registry x := by
  obtain ⟨ad, found⟩ := Option.isSome_iff_exists.mp h
  exact (reached_of_adorned found).1

theorem not_isMagic_of_call (fresh : FreshMarks env query registry) {head : String} {rule : Rule}
    (reached : Called query registry head) (has : registry.HasRule head rule) {x : String}
    (hx : x ∈ bodyInvocations rule.body) : ¬ IsMagic env query registry x := by
  rintro ⟨p, ad, found, rfl⟩
  exact (fresh p ad found).2 head rule reached has hx

theorem not_isMagic_of_head (fresh : FreshMarks env query registry) {x : String} {rule : Rule}
    (has : registry.HasRule x rule) : ¬ IsMagic env query registry x := by
  rintro ⟨p, ad, found, rfl⟩
  exact (fresh p ad found).1 rule has

theorem level_magic {x : String} (h : IsMagic env query registry x) :
    level env query registry r top x = top := if_pos (.inl h)

theorem level_guarded {x : String} (h : Guarded env query registry x) :
    level env query registry r top x = top := if_pos (.inr h)

theorem level_reached {x : String} (plain : ¬ IsMagic env query registry x)
    (free : ¬ Guarded env query registry x) (reached : Called query registry x) :
    level env query registry r top x = r x := by
  rw [level, if_neg (not_or.mpr ⟨plain, free⟩), if_pos reached]

theorem level_unreached {x : String} (plain : ¬ IsMagic env query registry x)
    (apart : ¬ Called query registry x) : level env query registry r top x = top + 1 + r x := by
  rw [level, if_neg (not_or.mpr ⟨plain, fun h => apart h.reached⟩), if_neg apart]

/-- What a guarded predicate uses is no higher than the guarded predicates, and lower where
it is negated. -/
theorem level_dep_of_guarded (fresh : FreshMarks env query registry) (low : ∀ x, r x < top) {head : String}
    {rule : Rule} (has : registry.HasRule head rule) (reached : Called query registry head)
    {dep : String} {negative : Bool} (h : (dep, negative) ∈ collectBodyDeps rule.body) :
    level env query registry r top dep + negative.toNat ≤ top := by
  have called : dep ∈ bodyInvocations rule.body := invocation_of_bodyDep rule.body h
  by_cases guarded : Guarded env query registry dep
  · rw [level_guarded guarded]
    cases negative with
    | false => exact Nat.le_refl _
    | true =>
        obtain ⟨clause, hclause, used⟩ := mem_collectBodyDeps.mp h
        have free : (solveAdornments env query registry).lookup dep = none :=
          unguarded_of_nested (not_isCall_of_negative used) (invocation_of_dep clause used)
            (.inr ⟨head, rule, reached, has, hclause⟩)
        rw [Guarded, free] at guarded
        cases guarded
  · rw [level_reached (not_isMagic_of_call fresh reached has called) guarded (reached.call has called)]
    have := low dep
    have := negative.toNat_le
    omega

/-- The rules of the registry respect the levels. -/
theorem level_dep (ranks : Digraph.Ranks registry.Collected r) (fresh : FreshMarks env query registry)
    (low : ∀ x, r x < top) {head : String} {rule : Rule} (has : registry.HasRule head rule)
    {dep : String} {negative : Bool} (h : (dep, negative) ∈ collectBodyDeps rule.body) :
    level env query registry r top dep + negative.toNat ≤ level env query registry r top head := by
  have called : dep ∈ bodyInvocations rule.body := invocation_of_bodyDep rule.body h
  have plainHead : ¬ IsMagic env query registry head := not_isMagic_of_head fresh has
  have ranked := ranks head dep negative ⟨rule, has, h⟩
  by_cases guarded : Guarded env query registry head
  · rw [level_guarded guarded]
    exact level_dep_of_guarded fresh low has guarded.reached h
  · by_cases reached : Called query registry head
    · have free : ¬ Guarded env query registry dep := by
        have none_ := unguarded_of_unguarded reached has (Option.not_isSome_iff_eq_none.mp guarded) called
        rw [Guarded, none_]
        exact Bool.false_ne_true
      have plainDep := not_isMagic_of_call fresh reached has called
      rw [level_reached plainHead guarded reached, level_reached plainDep free (reached.call has called)]
      exact ranked
    · rw [level_unreached plainHead reached]
      have := negative.toNat_le
      have := low dep
      by_cases marked : IsMagic env query registry dep
      · rw [level_magic marked]
        omega
      by_cases guardedDep : Guarded env query registry dep
      · rw [level_guarded guardedDep]
        omega
      · by_cases reachedDep : Called query registry dep
        · rw [level_reached marked guardedDep reachedDep]
          omega
        · rw [level_unreached marked reachedDep]
          omega

theorem rewritten_ranks (ranks : Digraph.Ranks registry.Collected r) (fresh : FreshMarks env query registry)
    (low : ∀ x, r x < top) :
    Digraph.Ranks (buildRewrittenRegistry env registry (solveAdornments env query registry)).Collected
      (level env query registry r top) := by
  rintro head dep negative ⟨rule', has', used⟩
  rcases hasRule_rewritten.mp has' with ⟨rule, has, rfl⟩ | ⟨predicate, rule, has, handed⟩
  · cases found : (solveAdornments env query registry).lookup head with
    | none =>
        rw [found] at used
        exact level_dep ranks fresh low has used
    | some ad =>
        rw [found, Option.elim_some, injectMagicGuard] at used
        split at used
        · exact level_dep ranks fresh low has used
        · rw [collectBodyDeps] at used
          rcases List.mem_append.mp used with guard | used
          · -- the guard itself: a guarded predicate and its magic predicate share a level
            rw [magicGuard, collectClauseDeps, List.mem_singleton] at guard
            cases guard
            have guarded : Guarded env query registry head := by rw [Guarded, found]; rfl
            rw [level_guarded guarded, level_magic ⟨head, ad, found, rfl⟩]
            exact Nat.le_refl _
          · exact level_dep ranks fresh low has used
  · obtain ⟨-, ad, found, k, called, args, calledAd, -, foundCalled, -, same⟩ :=
      mem_buildPropagationRules.mp handed
    rw [propagationRule, Prod.mk.injEq] at same
    obtain ⟨rfl, rfl⟩ := same
    have reached : Called query registry predicate := (reached_of_adorned found).1
    rw [level_magic ⟨called, calledAd, foundCalled, rfl⟩]
    rw [collectBodyDeps] at used
    rcases List.mem_append.mp used with guard | used
    · rw [magicGuard, collectClauseDeps, List.mem_singleton] at guard
      cases guard
      rw [level_magic ⟨predicate, ad, found, rfl⟩]
      exact Nat.le_refl _
    · obtain ⟨clause, hclause, used⟩ := mem_collectBodyDeps.mp used
      exact level_dep_of_guarded fresh low has reached
        (mem_collectBodyDeps.mpr ⟨clause, List.mem_of_mem_take hclause, used⟩)

end Levels

theorem rewrite_eq_some {env : Env} {query : List WhereClause} {registry rewritten : RuleRegistry}
    {seeds : List (EntityId × String × Value)} (h : rewrite env query registry = some (rewritten, seeds)) :
    rewritten = buildRewrittenRegistry env registry (solveAdornments env query registry) := by
  rw [rewrite] at h
  split at h
  · cases h
  · dsimp only at h
    split at h
    · cases h
    · cases h
      rfl

/-! ## Names that are taken -/

/-- What a predicate depends on it still depends on after the rewrite. -/
theorem collected_rewritten {head dep : String} {negative : Bool} (h : registry.Collected head dep negative)
    (adorned : Adorned) : (buildRewrittenRegistry env registry adorned).Collected head dep negative := by
  obtain ⟨rule, has, used⟩ := h
  refine ⟨_, hasRule_rewritten.mpr (.inl ⟨rule, has, rfl⟩), ?_⟩
  cases adorned.lookup head with
  | none => exact used
  | some ad =>
      rw [Option.elim_some, injectMagicGuard]
      split
      · exact used
      · rw [collectBodyDeps]
        exact List.mem_append_right _ used

/-- A predicate is read negatively on the way from one to another. -/
def DependsNegatively (registry : RuleRegistry) (p q : String) : Prop :=
  ∃ h d, Relation.ReflTransGen (Digraph.Linked registry.Collected) p h ∧ registry.Collected h d true ∧
    Relation.ReflTransGen (Digraph.Linked registry.Collected) d q

/-- If the magic predicate of a guarded predicate is one of the registry that depends negatively
on the guarded one, the guard closes a cycle. -/
theorem strictCycle_of_taken {p : String} {ad : Adornment}
    (found : (solveAdornments env query registry).lookup p = some ad) {rule : Rule}
    (has : registry.HasRule p rule) (plain : hasNegation rule = false)
    (taken : DependsNegatively registry (magicPredName p ad) p) :
    Digraph.StrictCycle
      (buildRewrittenRegistry env registry (solveAdornments env query registry)).Collected := by
  obtain ⟨h, d, front, negated, back⟩ := taken
  have lift : ∀ {x y}, Relation.ReflTransGen (Digraph.Linked registry.Collected) x y →
      Relation.ReflTransGen (Digraph.Linked
        (buildRewrittenRegistry env registry (solveAdornments env query registry)).Collected) x y :=
    fun path => path.lift id fun _ _ linked => linked.imp fun _ used => collected_rewritten used _
  have guard : Digraph.Linked
      (buildRewrittenRegistry env registry (solveAdornments env query registry)).Collected p (magicPredName p ad) := by
    refine ⟨false, _, hasRule_rewritten.mpr (.inl ⟨rule, has, rfl⟩), ?_⟩
    rw [found, Option.elim_some, injectMagicGuard, plain, if_neg Bool.false_ne_true, collectBodyDeps, magicGuard,
      collectClauseDeps]
    exact List.mem_append_left _ List.mem_cons_self
  exact ⟨h, d, collected_rewritten negated _, ((lift back).tail guard).trans (lift front)⟩

/-- The loop ends with adornments under which every call reached from the query supplies
the demand its guard waits for, exactly if none passes a `?_` variable there; and the rewritten
registry is again stratifiable if the names of the magic predicates are left alone, but not if
that of a guarded predicate with a rule without negation is taken by a predicate that depends
on it through a negation. -/
theorem rewrite_evaluable (env : Env) (query : List WhereClause) (registry : RuleRegistry)
    (stratifiable : registry.Stratifiable) :
    (Closed env query registry (solveAdornments env query registry) ↔ NamedDemand env query registry) ∧
    ∀ rewritten seeds, rewrite env query registry = some (rewritten, seeds) →
      (FreshMarks env query registry → rewritten.Stratifiable) ∧
        ∀ p ad rule, (solveAdornments env query registry).lookup p = some ad → registry.HasRule p rule →
          hasNegation rule = false → DependsNegatively registry (magicPredName p ad) p → ¬ rewritten.Stratifiable := by
  refine ⟨closed_solveAdornments_iff, fun rewritten seeds h => ?_⟩
  have built := rewrite_eq_some h
  refine ⟨fun fresh => ?_, fun p ad rule found has plain taken => ?_⟩
  · have inside : ∀ h d negative, registry.Collected h d negative →
        d ∈ (DependencyGraph.fromRules registry).allPredicates := fun h d negative used =>
      List.mem_toFinset.mpr (List.mem_append_right _
        (List.mem_map.mpr ⟨_, RuleRegistry.mem_fromRules.mpr used, rfl⟩))
    obtain ⟨r, ranks, low, -⟩ := Digraph.exists_ranks _ inside stratifiable
    rw [built]
    exact (rewritten_ranks ranks fresh fun x => Nat.lt_succ_of_le (low x)).acyclic
  · rw [built]
    exact not_not.mpr (strictCycle_of_taken found has plain taken)

end

/-! ## Names that clash -/

section Clash

/-- `(r ?x ?y)` off one attribute, and for a predicate of a given name
`(name ?x)` where `r` does not hold. -/
def negatingRegistry (name : String) : RuleRegistry :=
  (RuleRegistry.new.registerRuleUnchecked "r"
    ⟨[.symbol "r", .var (.named "x"), .var (.named "y")],
      [.pattern ⟨.var (.named "x"), .real (.keyword ":a"), .var (.named "y")⟩]⟩).registerRuleUnchecked
    name
    ⟨[.symbol name, .var (.named "x")],
      [.pattern ⟨.var (.named "x"), .real (.keyword ":a"), .var (.named "y")⟩,
        .not [.ruleInvocation "r" [.var (.named "x"), .var (.named "y")]]]⟩

def plainEnv : Env := ⟨fun _ => none, fun _ => 0, fun _ _ => false, fun _ => none⟩

/-- `(r :k ?y)`. -/
def callOfR : List WhereClause := [.ruleInvocation "r" [.keyword ":k", .var (.named "y")]]

theorem hasRule_negatingRegistry {name head : String} {rule : Rule} :
    (negatingRegistry name).HasRule head rule ↔
      (head = "r" ∧ rule = ⟨[.symbol "r", .var (.named "x"), .var (.named "y")],
        [.pattern ⟨.var (.named "x"), .real (.keyword ":a"), .var (.named "y")⟩]⟩) ∨
      (head = name ∧ rule = ⟨[.symbol name, .var (.named "x")],
        [.pattern ⟨.var (.named "x"), .real (.keyword ":a"), .var (.named "y")⟩,
          .not [.ruleInvocation "r" [.var (.named "x"), .var (.named "y")]]]⟩) := by
  have start : ¬ RuleRegistry.new.HasRule head rule := fun ⟨_, no, _⟩ => nomatch no
  rw [negatingRegistry, RuleRegistry.HasRule_registerRuleUnchecked,
    RuleRegistry.HasRule_registerRuleUnchecked, or_iff_right start]

theorem collected_negatingRegistry {name head dep : String} {negative : Bool} :
    (negatingRegistry name).Collected head dep negative ↔
      head = name ∧ dep = "r" ∧ negative = true := by
  constructor
  · rintro ⟨rule, has, used⟩
    rcases hasRule_negatingRegistry.mp has with ⟨rfl, rfl⟩ | ⟨rfl, rfl⟩
    · simp [collectBodyDeps, collectClauseDeps] at used
    · simpa [collectBodyDeps, collectClauseDeps, negatedCalls] using used
  · rintro ⟨rfl, rfl, rfl⟩
    refine ⟨_, hasRule_negatingRegistry.mpr (.inr ⟨rfl, rfl⟩), ?_⟩
    simp [collectBodyDeps, collectClauseDeps, negatedCalls]

theorem stratifiable_negatingRegistry {name : String} (other : name ≠ "r") :
    (negatingRegistry name).Stratifiable := by
  have ranks : Digraph.Ranks (negatingRegistry name).Collected
      fun x => if x = name then 1 else 0 := by
    intro head dep negative used
    obtain ⟨rfl, rfl, rfl⟩ := collected_negatingRegistry.mp used
    simp [Ne.symm other]
  exact ranks.acyclic

theorem reachablePredicates_callOfR {name : String} (other : name ≠ "r") :
    reachablePredicates callOfR (negatingRegistry name) = ["r"] := by
  have leaf : (negatingRegistry name).calls "r" = [] := by
    simp [RuleRegistry.calls, RuleRegistry.getRules, negatingRegistry,
      RuleRegistry.registerRuleUnchecked, RuleRegistry.new, RuleRegistry.push, Ne.symm other,
      bodyInvocations, WhereClause.ruleInvocations]
  have start : (bodyInvocations callOfR).reverse = ["r"] := by
    simp [callOfR, bodyInvocations, WhereClause.ruleInvocations]
  rw [reachablePredicates, start, Digraph.visit, if_neg List.not_mem_nil, leaf, List.reverse_nil,
    List.nil_append, Digraph.visit]

theorem solveAdornments_callOfR {name : String} (other : name ≠ "r") :
    solveAdornments plainEnv callOfR (negatingRegistry name) = [("r", [true, false])] := by
  have rules : (negatingRegistry name).getRules "r" =
      [⟨[.symbol "r", .var (.named "x"), .var (.named "y")],
        [.pattern ⟨.var (.named "x"), .real (.keyword ":a"), .var (.named "y")⟩]⟩] := by
    simp [RuleRegistry.getRules, negatingRegistry, RuleRegistry.registerRuleUnchecked,
      RuleRegistry.new, RuleRegistry.push, Ne.symm other]
  have start : allBound callOfR (negatingRegistry name) = [("r", [true, true])] := by
    rw [allBound, reachablePredicates_callOfR other]
    simp [rules]
  have sites : ∀ adorned, callSites plainEnv callOfR (negatingRegistry name) adorned =
      [("r", [true, false])] := by
    intro adorned
    rw [callSites, reachablePredicates_callOfR other, List.flatMap_singleton, rules,
      List.flatMap_singleton]
    have none_ : ruleSites plainEnv (adorned.lookup "r")
        ⟨[.symbol "r", .var (.named "x"), .var (.named "y")],
          [.pattern ⟨.var (.named "x"), .real (.keyword ":a"), .var (.named "y")⟩]⟩ = [] := by
      rw [ruleSites]
      split <;> simp [bodySites]
    rw [none_]
    rfl
  have first : solveRound plainEnv callOfR (negatingRegistry name) [("r", [true, true])] =
      [("r", [true, false])] := by
    rw [solveRound, demand, sites]
    rfl
  have second : solveRound plainEnv callOfR (negatingRegistry name) [("r", [true, false])] =
      [("r", [true, false])] := by
    rw [solveRound, demand, sites]
    rfl
  rw [solveAdornments, start, solveLoop, first, if_neg (by decide), solveLoop, second, if_pos rfl]

/-- A registry with a predicate that bears the name of the magic predicate of `r`: it is
stratifiable, and what the rewrite makes of it is not. -/
theorem rewrite_clash :
    (negatingRegistry (magicPredName "r" [true, false])).Stratifiable ∧
    ∃ rewritten seeds, rewrite plainEnv callOfR (negatingRegistry (magicPredName "r" [true, false])) =
      some (rewritten, seeds) ∧ ¬ rewritten.Stratifiable := by
  have other : magicPredName "r" [true, false] ≠ "r" := by decide
  refine ⟨stratifiable_negatingRegistry other,
    buildRewrittenRegistry plainEnv (negatingRegistry (magicPredName "r" [true, false]))
      [("r", [true, false])],
    buildSeedFacts plainEnv callOfR [("r", [true, false])], ?_, ?_⟩
  · rw [rewrite, solveAdornments_callOfR other]
    rfl
  · rw [RuleRegistry.Stratifiable, not_not]
    refine ⟨magicPredName "r" [true, false], "r", ?_, .single ⟨false, ?_⟩⟩
    · refine ⟨_, hasRule_rewritten.mpr (.inl ⟨_, hasRule_negatingRegistry.mpr (.inr ⟨rfl, rfl⟩), rfl⟩), ?_⟩
      have free : List.lookup (magicPredName "r" [true, false])
          [("r", ([true, false] : Adornment))] = none := by decide
      rw [free]
      simp [collectBodyDeps, collectClauseDeps, negatedCalls]
    · refine ⟨_, hasRule_rewritten.mpr (.inl ⟨_, hasRule_negatingRegistry.mpr (.inl ⟨rfl, rfl⟩), rfl⟩), ?_⟩
      simp [injectMagicGuard, hasNegation, collectBodyDeps, collectClauseDeps, magicGuard]

/-- A registry that takes the name of a magic predicate which this rewrite does not use is
rewritten into a stratifiable one. -/
theorem rewrite_evaluable_apart :
    (negatingRegistry "__magic_r_fb").Stratifiable ∧
    Closed plainEnv callOfR (negatingRegistry "__magic_r_fb")
      (solveAdornments plainEnv callOfR (negatingRegistry "__magic_r_fb")) ∧
    ∃ rewritten seeds, rewrite plainEnv callOfR (negatingRegistry "__magic_r_fb") = some (rewritten, seeds) ∧
      rewritten.Stratifiable := by
  have other : "__magic_r_fb" ≠ "r" := by decide
  have stratifiable := stratifiable_negatingRegistry other
  have adorned := solveAdornments_callOfR other
  have settled : ∀ p ad, (solveAdornments plainEnv callOfR (negatingRegistry "__magic_r_fb")).lookup p = some ad →
      magicPredName p ad = "__magic_r_bf" := by
    intro p ad found
    rw [adorned] at found
    have entry := mem_of_lookup_adorned found
    cases List.mem_singleton.mp entry
    decide
  have named : NamedDemand plainEnv callOfR (negatingRegistry "__magic_r_fb") := by
    intro head rule k p args ad i _ has call _ _ name
    have mem := List.mem_of_getElem? call
    rcases hasRule_negatingRegistry.mp has with ⟨rfl, rfl⟩ | ⟨rfl, rfl⟩
    · simp at mem
    · simp at mem
  have fresh : FreshMarks plainEnv callOfR (negatingRegistry "__magic_r_fb") := by
    intro p ad found
    rw [settled p ad found]
    refine ⟨fun r has => ?_, fun head rule _ has called => ?_⟩
    · rcases hasRule_negatingRegistry.mp has with ⟨same, -⟩ | ⟨same, -⟩
      · exact absurd same (by decide)
      · exact absurd same (by decide)
    · rcases hasRule_negatingRegistry.mp has with ⟨-, rfl⟩ | ⟨-, rfl⟩
      · simp [bodyInvocations, WhereClause.ruleInvocations] at called
      · simp [bodyInvocations, WhereClause.ruleInvocations] at called
  have rewritten : rewrite plainEnv callOfR (negatingRegistry "__magic_r_fb") =
      some (buildRewrittenRegistry plainEnv (negatingRegistry "__magic_r_fb") [("r", [true, false])],
        buildSeedFacts plainEnv callOfR [("r", [true, false])]) := by
    rw [rewrite, adorned]
    rfl
  have evaluable := rewrite_evaluable plainEnv callOfR _ stratifiable
  exact ⟨stratifiable, evaluable.1.mpr named, _, _, rewritten, (evaluable.2 _ _ rewritten).1 fresh⟩

end Clash

end Minigraf
