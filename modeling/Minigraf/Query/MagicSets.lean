import Minigraf.Query.Matcher
import Minigraf.Query.Stratification

/-!
The demand rewrite of `src/query/datalog/magic_sets.rs`, in a build without debug
assertions.

An adornment is a list of flags, `'b'` of the source being `true`. The calls of `note`
are the list of call sites, and the demand on a predicate is what they leave in the map.
Of a query only the `:where` clauses matter here.
-/

namespace Minigraf

mutual

/-- The predicates a clause calls, at any depth. -/
def WhereClause.ruleInvocations : WhereClause → List String
  | .pattern _ => []
  | .ruleInvocation predicate _ => [predicate]
  | .not clauses => bodyInvocations clauses
  | .notJoin _ clauses => bodyInvocations clauses
  | .expr _ _ => []
  | .or branches => branchInvocations branches
  | .orJoin _ branches => branchInvocations branches

def bodyInvocations : List WhereClause → List String
  | [] => []
  | clause :: rest => clause.ruleInvocations ++ bodyInvocations rest

def branchInvocations : List (List WhereClause) → List String
  | [] => []
  | branch :: rest => bodyInvocations branch ++ branchInvocations rest

end

abbrev Adornment := List Bool

/-- `HashMap<String, Vec<char>>`. -/
abbrev Adorned := List (String × Adornment)

section

variable (env : Env)

/-! ## Names, guards and seeds -/

def isCarriedLiteral (i : Nat) (arg : EdnValue) : Bool :=
  arg.asVariable.isNone &&
    match i with
    | 0 => (ednToEntityId env arg).isSome
    | 1 => (ednToValue arg).isSome
    | _ => false

def queryCallAdornment (args : List EdnValue) : Adornment := args.mapIdx (isCarriedLiteral env)

def hasBoundArg (adornment : Adornment) : Bool := adornment.contains true

def adornmentString (adornment : Adornment) : String :=
  String.ofList (adornment.map fun bound => if bound then 'b' else 'f')

def magicPredName (pred : String) (adornment : Adornment) : String :=
  "__magic_" ++ pred ++ "_" ++ adornmentString adornment

def sentinelEntity (magicAttr : String) : EntityId := env.newV5 magicAttr

/-- The sentinel of a magic predicate, whose attribute is its name after a colon. -/
def magicSentinel (magicName : String) : EntityId := sentinelEntity env (":" ++ magicName)

/-- The arguments in the bound positions. -/
def boundArgs (adornment : Adornment) (args : List EdnValue) : List EdnValue :=
  (adornment.zip args).filterMap fun (bound, arg) => if bound then some arg else none

/-- The value position is bound and the entity position is not. -/
def valueBound (adornment : Adornment) : Bool :=
  decide (adornment.head? = some false) && hasBoundArg adornment

/-- The arguments under which a magic predicate holds the demand for a call: the bound
argument, behind the sentinel where it stands in value position. -/
def magicArgs (magicName : String) (adornment : Adornment) (args : List EdnValue) : List EdnValue :=
  if valueBound adornment then .uuid (magicSentinel env magicName) :: boundArgs adornment args
  else boundArgs adornment args

/-- The guard takes the first of the bound arguments behind the sentinel. -/
def magicGuard (rule : Rule) (predicate : String) (adornment : Adornment) : WhereClause :=
  let magicName := magicPredName predicate adornment
  let bound := boundArgs adornment (rule.head.drop 1)
  .ruleInvocation magicName
    (if valueBound adornment then
      match bound.head? with
      | some v => [.uuid (magicSentinel env magicName), v]
      | none => []
    else bound)

/-- The seeds are facts: entity, attribute and value. -/
def buildSeedFacts (whereClauses : List WhereClause) (adornments : Adorned) :
    List (EntityId × String × Value) :=
  whereClauses.filterMap fun
    | .ruleInvocation predicate args => do
        let adornment ← adornments.lookup predicate
        if !hasBoundArg adornment then none else
        let magicAttr := ":" ++ magicPredName predicate adornment
        if adornment[0]? = some true then do
          let entity ← (args[0]?).bind (ednToEntityId env)
          pure (entity, magicAttr, .boolean true)
        else if adornment[1]? = some true then do
          let value ← (args[1]?).bind ednToValue
          pure (sentinelEntity env magicAttr, magicAttr, value)
        else none
    | _ => none

/-! ## Rewritten rules -/

def hasNegation (rule : Rule) : Bool :=
  rule.body.any fun
    | .not _ | .notJoin _ _ => true
    | _ => false

def injectMagicGuard (rule : Rule) (predicate : String) (adornment : Adornment) : Rule :=
  if hasNegation rule then rule
  else { rule with body := magicGuard env rule predicate adornment :: rule.body }

/-- The rule that hands the demand on to the call at a place of the body: what comes before
the call, behind the guard. -/
def propagationRule (rule : Rule) (predicate : String) (adornment : Adornment) (i : Nat)
    (called : String) (calledAdornment : Adornment) (calledArgs : List EdnValue) : String × Rule :=
  let magicName := magicPredName called calledAdornment
  (magicName,
    { head := .symbol magicName :: magicArgs env magicName calledAdornment calledArgs
      body := magicGuard env rule predicate adornment :: rule.body.take i })

def buildPropagationRules (rule : Rule) (predicate : String) (adorned : Adorned) :
    List (String × Rule) :=
  if hasNegation rule then []
  else match adorned.lookup predicate with
    | none => []
    | some adornment =>
        rule.body.zipIdx.filterMap fun
          | (.ruleInvocation called args, i) => do
              let calledAdornment ← adorned.lookup called
              if !hasBoundArg calledAdornment then none
              else some (propagationRule env rule predicate adornment i called calledAdornment args)
          | _ => none

/-! ## Adornments -/

def meet (a b : Adornment) : Adornment :=
  if a.length ≠ b.length then List.replicate (max a.length b.length) false
  else List.zipWith (· && ·) a b

/-- The first bound position only, and only arg0 or arg1. -/
def normalize (adornment : Adornment) : Option Adornment := do
  let first ← adornment.findIdx? id
  if first < 2 then some ((List.range adornment.length).map (decide <| · = first)) else none

/-- The predicates the rules of a predicate call. -/
def RuleRegistry.calls (registry : RuleRegistry) (pred : String) : List String :=
  (registry.getRules pred).flatMap fun rule => bodyInvocations rule.body

def RuleRegistry.allCalls (registry : RuleRegistry) : List String :=
  registry.rules.flatMap fun entry => entry.2.flatMap fun rule => bodyInvocations rule.body

theorem RuleRegistry.calls_subset (registry : RuleRegistry) (pred : String) :
    registry.calls pred ⊆ registry.allCalls := by
  intro q hq
  obtain ⟨rule, hrule, hq⟩ := List.mem_flatMap.mp hq
  rw [getRules] at hrule
  cases found : registry.rules.lookup pred with
  | none =>
      rw [found] at hrule
      cases hrule
  | some rules =>
      rw [found] at hrule
      obtain ⟨l₁, l₂, split, -⟩ := List.lookup_eq_some_iff.mp found
      refine List.mem_flatMap.mpr ⟨(pred, rules), ?_, List.mem_flatMap.mpr ⟨rule, hrule, hq⟩⟩
      rw [split]
      exact List.mem_append_right _ List.mem_cons_self

/-- Predicates the query can reach through rule calls, at any nesting depth. -/
def reachablePredicates (query : List WhereClause) (registry : RuleRegistry) : List String :=
  Digraph.visit registry.calls registry.allCalls registry.calls_subset []
    (bodyInvocations query).reverse

/-- What `note` leaves in the map. -/
def noteSite (demand : String → Option Adornment) (site : String × Adornment) :
    String → Option Adornment :=
  Function.update demand site.1 (some ((demand site.1).elim site.2 (meet · site.2)))

/-- A clause that is no call needs every fact of what it calls. -/
def nestedSites (clause : WhereClause) : List (String × Adornment) :=
  clause.ruleInvocations.map fun p => (p, [])

def querySites (query : List WhereClause) : List (String × Adornment) :=
  query.flatMap fun
    | .ruleInvocation predicate args => [(predicate, queryCallAdornment env args)]
    | nested => nestedSites nested

/-- Whether the argument of a call is known where the call is made. -/
def argGrounded (grounded : List Var) (i : Nat) (arg : EdnValue) : Bool :=
  match arg.asVariable with
  | some v => decide (v ∈ grounded)
  | none => isCarriedLiteral env i arg

/-- The call sites of a body, with the variables grounded so far. -/
def bodySites (guarded : Bool) : List Var → List WhereClause → List (String × Adornment)
  | _, [] => []
  | grounded, .pattern p :: rest =>
      bodySites guarded ([p.entity, p.value].filterMap EdnValue.asVariable ++ grounded) rest
  | grounded, .ruleInvocation predicate args :: rest =>
      (predicate, if guarded then args.mapIdx (argGrounded env grounded)
        else List.replicate args.length false) ::
        bodySites guarded (args.filterMap EdnValue.asVariable ++ grounded) rest
  | grounded, nested :: rest => nestedSites nested ++ bodySites guarded grounded rest

/-- The variables of the head in bound positions. -/
def headVars (adornment : Adornment) (rule : Rule) : List Var :=
  (boundArgs adornment (rule.head.drop 1)).filterMap EdnValue.asVariable

def ruleSites (headAdornment : Option Adornment) (rule : Rule) : List (String × Adornment) :=
  match if hasNegation rule then none else headAdornment with
  | some adornment => bodySites env true (headVars adornment rule) rule.body
  | none => bodySites env false [] rule.body

def callSites (query : List WhereClause) (registry : RuleRegistry) (adorned : Adorned) :
    List (String × Adornment) :=
  querySites env query ++ (reachablePredicates query registry).flatMap fun pred =>
    (registry.getRules pred).flatMap (ruleSites env (adorned.lookup pred))

def demand (query : List WhereClause) (registry : RuleRegistry) (adorned : Adorned) :
    String → Option Adornment :=
  (callSites env query registry adorned).foldl noteSite fun _ => none

/-- A predicate's adornment after one round of the loop. -/
def weaken (demand : String → Option Adornment) (entry : String × Adornment) :
    Option (String × Adornment) := do
  let site ← demand entry.1
  let adornment ← normalize (meet entry.2 site)
  pure (entry.1, adornment)

def solveRound (query : List WhereClause) (registry : RuleRegistry) (adorned : Adorned) : Adorned :=
  adorned.filterMap (weaken (demand env query registry adorned))

/-! ## The loop ends -/

/-- Weaker flags in the same positions. -/
def Weaker (a b : Adornment) : Prop := List.Forall₂ (fun x y => x = true → y = true) a b

theorem Weaker.eq_or_lt {a b : Adornment} (h : Weaker a b) : a = b ∨ a.count true < b.count true := by
  have le : ∀ {a b : Adornment}, Weaker a b → a.count true ≤ b.count true := by
    intro a b h
    induction h with
    | nil => exact Nat.le_refl _
    | @cons x y a b hxy _ ih =>
        cases x with
        | true =>
            cases hxy rfl
            simpa using ih
        | false =>
            rw [List.count_cons_of_ne (by decide)]
            exact ih.trans List.count_le_count_cons
  induction h with
  | nil => exact .inl rfl
  | @cons x y a b hxy rest ih =>
      cases x with
      | true =>
          cases hxy rfl
          simpa using ih
      | false =>
          cases y with
          | false => simpa using ih
          | true =>
              right
              rw [List.count_cons_of_ne (by decide), List.count_cons_self]
              exact Nat.lt_succ_of_le (le rest)

theorem meet_bound {a b : Adornment} {i : Nat} (h : (meet a b)[i]? = some true) :
    a.length = b.length ∧ a[i]? = some true ∧ b[i]? = some true := by
  rw [meet] at h
  split at h
  · rw [List.getElem?_replicate] at h
    split at h <;> simp at h
  · next same =>
      rw [List.getElem?_zipWith] at h
      refine ⟨Decidable.not_not.mp same, ?_⟩
      cases ha : a[i]? <;> cases hb : b[i]? <;> simp_all

theorem length_meet (a b : Adornment) : (meet a b).length = max a.length b.length := by
  rw [meet]
  split
  · exact List.length_replicate
  · next same => rw [List.length_zipWith, Decidable.not_not.mp same, max_self, min_self]

/-- One position is left bound: the entity's or the value's. -/
theorem normalize_eq_some {a n : Adornment} (h : normalize a = some n) :
    n.length = a.length ∧ ∃ first < 2, a[first]? = some true ∧
      ∀ i, n[i]? = some true ↔ i = first := by
  rw [normalize] at h
  cases found : a.findIdx? id with
  | none => simp [found] at h
  | some first =>
      simp only [found, Option.bind_eq_bind, Option.bind_some] at h
      split at h
      · next small =>
          cases h
          obtain ⟨lt, bound, -⟩ := List.findIdx?_eq_some_iff_getElem.mp found
          refine ⟨by simp, first, small, ?_, fun i => ?_⟩
          · rw [List.getElem?_eq_getElem lt]
            exact congrArg some bound
          · rw [List.getElem?_map]
            by_cases inside : i < a.length
            · simp [List.getElem?_range inside]
            · rw [List.getElem?_eq_none (by simpa using inside)]
              exact ⟨(fun no => nomatch no), fun same => absurd (same ▸ lt) inside⟩
      · cases h

theorem weaker_of_normalize {ad site n : Adornment} (h : normalize (meet ad site) = some n) :
    Weaker n ad := by
  obtain ⟨size, first, -, bound, only⟩ := normalize_eq_some h
  obtain ⟨same, atFirst, -⟩ := meet_bound bound
  rw [length_meet, same, max_self, ← same] at size
  refine List.forall₂_iff_get.mpr ⟨size, fun i hi hi' flag => ?_⟩
  have here : i = first := (only i).mp (by rw [List.getElem?_eq_getElem hi]; exact congrArg some flag)
  rw [← here, List.getElem?_eq_getElem hi'] at atFirst
  exact Option.some.inj atFirst

/-- A round that drops or weakens an entry leaves less. -/
theorem filterMap_eq_or_lt {α : Type} {f : α → Option α} {w : α → Nat} (pos : ∀ a, 0 < w a)
    (step : ∀ a b, f a = some b → b = a ∨ w b < w a) (l : List α) :
    l.filterMap f = l ∨ ((l.filterMap f).map w).sum < (l.map w).sum := by
  have le : ∀ l : List α, ((l.filterMap f).map w).sum ≤ (l.map w).sum := by
    intro l
    induction l with
    | nil => exact Nat.le_refl _
    | cons a l ih =>
        cases found : f a with
        | none =>
            rw [List.filterMap_cons_none found, List.map_cons, List.sum_cons]
            omega
        | some b =>
            rw [List.filterMap_cons_some found, List.map_cons, List.map_cons, List.sum_cons,
              List.sum_cons]
            rcases step a b found with rfl | lt <;> omega
  induction l with
  | nil => exact .inl rfl
  | cons a l ih =>
      have rest := le l
      have := pos a
      cases found : f a with
      | none =>
          rw [List.filterMap_cons_none found, List.map_cons, List.sum_cons]
          exact .inr (by omega)
      | some b =>
          rw [List.filterMap_cons_some found]
          simp only [List.map_cons, List.sum_cons]
          rcases step a b found with rfl | lt
          · exact ih.imp (fun same => by rw [same]) fun lt => by omega
          · exact .inr (by omega)

theorem weaken_eq_some {demand : String → Option Adornment} {entry entry' : String × Adornment}
    (h : weaken demand entry = some entry') :
    ∃ site n, demand entry.1 = some site ∧ normalize (meet entry.2 site) = some n ∧
      entry' = (entry.1, n) := by
  rw [weaken] at h
  obtain ⟨site, demanded, h⟩ := Option.bind_eq_some_iff.mp h
  obtain ⟨n, normal, h⟩ := Option.bind_eq_some_iff.mp h
  cases h
  exact ⟨site, n, demanded, normal, rfl⟩

/-- The entries of the map and their bound positions. -/
def weight (adorned : Adorned) : Nat := (adorned.map fun entry => entry.2.count true + 1).sum

theorem solveRound_lt {query : List WhereClause} {registry : RuleRegistry} {adorned : Adorned}
    (changed : solveRound env query registry adorned ≠ adorned) :
    weight (solveRound env query registry adorned) < weight adorned := by
  refine (filterMap_eq_or_lt (fun _ => Nat.succ_pos _) ?_ adorned).resolve_left changed
  intro entry entry' found
  obtain ⟨site, n, -, normal, rfl⟩ := weaken_eq_some found
  rcases (weaker_of_normalize normal).eq_or_lt with rfl | lt
  · exact .inl rfl
  · exact .inr (Nat.succ_lt_succ lt)

def solveLoop (query : List WhereClause) (registry : RuleRegistry) (adorned : Adorned) : Adorned :=
  let next := solveRound env query registry adorned
  if next = adorned then adorned else solveLoop query registry next
termination_by weight adorned
decreasing_by exact solveRound_lt env (by assumption)

/-- Every reachable predicate with rules, bound in every position. -/
def allBound (query : List WhereClause) (registry : RuleRegistry) : Adorned :=
  (reachablePredicates query registry).filterMap fun pred => do
    let rule ← (registry.getRules pred).head?
    if rule.head.length = 0 then none
    else some (pred, List.replicate (rule.head.length - 1) true)

def solveAdornments (query : List WhereClause) (registry : RuleRegistry) : Adorned :=
  solveLoop env query registry (allBound query registry)

/-! ## The rewrite -/

def registerAll (rules : List (String × Rule)) (registry : RuleRegistry) : RuleRegistry :=
  rules.foldl (fun registry rule => registry.registerRuleUnchecked rule.1 rule.2) registry

/-- The rules of the registry, guarded where the predicate is adorned. -/
def guardedRules (registry : RuleRegistry) (adorned : Adorned) : List (String × Rule) :=
  registry.rules.flatMap fun entry => entry.2.map fun rule =>
    (entry.1, (adorned.lookup entry.1).elim rule (injectMagicGuard env rule entry.1))

def propagationRules (registry : RuleRegistry) (adorned : Adorned) : List (String × Rule) :=
  registry.rules.flatMap fun entry =>
    if (adorned.lookup entry.1).isSome then
      entry.2.flatMap fun rule => buildPropagationRules env rule entry.1 adorned
    else []

def buildRewrittenRegistry (registry : RuleRegistry) (adorned : Adorned) : RuleRegistry :=
  registerAll (propagationRules env registry adorned)
    (registerAll (guardedRules env registry adorned) .new)

def rewrite (query : List WhereClause) (registry : RuleRegistry) :
    Option (RuleRegistry × List (EntityId × String × Value)) :=
  let anySeedable := query.any fun
    | .ruleInvocation _ args => hasBoundArg (queryCallAdornment env args)
    | _ => false
  if !anySeedable then none
  else
    let adorned := solveAdornments env query registry
    let seeds := buildSeedFacts env query adorned
    if seeds.isEmpty then none else some (buildRewrittenRegistry env registry adorned, seeds)

end

end Minigraf
