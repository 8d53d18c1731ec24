import Minigraf.Query.Demand
import Minigraf.Query.Footprint
import Minigraf.Query.Growth

/-!
One stratum of an evaluation: the facts its rules add grow from those it finds, each made by
a rule from facts before it, and the rules of the stratum make nothing more of what it
leaves.
-/

namespace Minigraf
namespace StratifiedEvaluator

variable {ev : StratifiedEvaluator} {predicates : List String}

/-! ## What a rule makes -/

/-- A row of the body of a rule over facts. -/
inductive BodyRow (ev : StratifiedEvaluator) (rule : Rule) (facts : List Fact) (b : Bindings) : Prop where
  | positive {split : List Pattern × List WhereClause} (plain : hasMixedClause rule.body = false)
      (parts : splitBody rule.body = .ok split) (mem : b ∈ (ev.matcher facts).splitRows split)
  | mixed {rows : List Bindings} (mixed : hasMixedClause rule.body = true)
      (ran : (ev.matcher facts).mixedRows ev.build rule.body = .ok rows) (mem : b ∈ rows)

/-- A rule makes the fact of a row of its body. -/
def RuleMakes (ev : StratifiedEvaluator) (rule : Rule) (facts : List Fact) (f : Fact) : Prop :=
  ∃ b, BodyRow ev rule facts b ∧ ∃ h, instantiateHead ev.env rule.head b = .ok h ∧ f.triple = h.triple

/-- What rules make. -/
def RulesMake (ev : StratifiedEvaluator) (rules : List (String × Rule)) (facts : List Fact) (f : Fact) : Prop :=
  ∃ entry ∈ rules, RuleMakes ev entry.2 facts f

/-- A rule makes of facts what it makes of those it reads. -/
theorem ruleMakes_extend {attrs calls : String → Prop} {rule : Rule}
    (only : ∀ clause ∈ rule.body, clause.ReadsOnly attrs calls) {facts added : List Fact}
    (unread : Unread (ReadAttr attrs calls) added) (f : Fact) :
    RuleMakes ev rule (facts ++ added) f ↔ RuleMakes ev rule facts f := by
  have more : ev.matcher (facts ++ added) = (ev.matcher facts).extend added := rfl
  have rows : ∀ b, BodyRow ev rule (facts ++ added) b ↔ BodyRow ev rule facts b := by
    intro b
    constructor
    · intro row
      cases row with
      | positive plain parts mem =>
          rw [more, PatternMatcher.splitRows_extend (PatternMatcher.splitBody_names parts only) unread] at mem
          exact .positive plain parts mem
      | mixed mixed ran mem =>
          rw [more, PatternMatcher.mixedRows_extend only unread] at ran
          exact .mixed mixed ran mem
    · intro row
      cases row with
      | positive plain parts mem =>
          rw [← PatternMatcher.splitRows_extend (PatternMatcher.splitBody_names parts only) unread, ← more] at mem
          exact .positive plain parts mem
      | mixed mixed ran mem =>
          rw [← PatternMatcher.mixedRows_extend only unread, ← more] at ran
          exact .mixed mixed ran mem
  simp only [RuleMakes, rows]

/-- For rules without negation and disjunction this is what the recursive evaluator makes. -/
theorem derives_iff {rules : List (String × Rule)} (plain : ∀ entry ∈ rules, hasMixedClause entry.2.body = false)
    (facts : List Fact) (f : Fact) :
    Derives ev.env ev.validAt (rules.map Prod.snd) facts f ↔ RulesMake ev rules facts f := by
  constructor
  · rintro ⟨rule, hrule, split, parts, b, hb, h, made, same⟩
    obtain ⟨entry, hentry, rfl⟩ := List.mem_map.mp hrule
    exact ⟨entry, hentry, b, .positive (plain entry hentry) parts hb, h, made, same⟩
  · rintro ⟨entry, hentry, b, row, h, made, same⟩
    cases row with
    | positive _ parts mem => exact ⟨entry.2, List.mem_map_of_mem hentry, _, parts, b, mem, h, made, same⟩
    | mixed mixed _ _ =>
        rw [plain entry hentry] at mixed
        cases mixed

/-! ## Positive rules -/

theorem loadDerived_full {existing : List EavKey} {facts : List Fact} {state state' : Progress}
    (run : ev.loadDerived existing facts state = .ok state') (full : state.accumulated.Full) :
    state'.accumulated.Full := by
  induction facts generalizing state with
  | nil =>
      cases run
      exact full
  | cons f facts ih =>
      rw [loadDerived] at run
      by_cases known : f.eavKey ∈ existing
      · rw [if_pos known] at run
        exact ih run full
      · rw [if_neg known] at run
        by_cases many : state.derivedTotal + 1 > ev.maxResults
        · rw [if_pos many] at run
          cases run
        · rw [if_neg many] at run
          exact ih run (attempted_loadFact_full full f)

/-- The derived facts that are not there yet are taken, and counted. -/
theorem loadDerived_ok {existing : List EavKey} {facts : List Fact} {state state' : Progress}
    (run : ev.loadDerived existing facts state = .ok state') (ok : state.accumulated.Ok)
    (asserted : ∀ f ∈ facts, f.asserted = true)
    (fresh : ∀ f ∈ facts.filter (·.eavKey ∉ existing), f.eavKey ∉ state.accumulated.assertedFacts.map Fact.eavKey)
    (apart : ((facts.filter (·.eavKey ∉ existing)).map Fact.eavKey).Nodup)
    (few : state.derivedTotal ≤ ev.maxResults) :
    state'.accumulated.Full ∨
      Grew state.accumulated (facts.filter (·.eavKey ∉ existing)) state'.accumulated ∧
        state'.derivedTotal = state.derivedTotal + (facts.filter (·.eavKey ∉ existing)).length ∧
        state'.derivedTotal ≤ ev.maxResults := by
  induction facts generalizing state with
  | nil =>
      cases run
      exact .inr ⟨.refl _, rfl, few⟩
  | cons f facts ih =>
      rw [loadDerived] at run
      by_cases known : f.eavKey ∈ existing
      · rw [if_pos known] at run
        rw [List.filter_cons_of_neg (by simpa using known)] at fresh apart ⊢
        exact ih run ok (fun g hg => asserted g (List.mem_cons_of_mem f hg)) fresh apart few
      · rw [if_neg known] at run
        rw [List.filter_cons_of_pos (by simpa using known)] at fresh apart ⊢
        rw [List.map_cons, List.nodup_cons] at apart
        by_cases many : state.derivedTotal + 1 > ev.maxResults
        · rw [if_pos many] at run
          cases run
        · rw [if_neg many] at run
          have taken := attempted_loadFact ok (asserted f List.mem_cons_self) (fresh f List.mem_cons_self)
          rcases taken with full | grew
          · exact .inl (loadDerived_full run full)
          · have later := ih run (grew.ok ok) (fun g hg => asserted g (List.mem_cons_of_mem f hg)) ?_ apart.2
              (Nat.le_of_not_lt many)
            · refine later.imp_right fun done => ⟨grew.trans done.1, ?_, done.2.2⟩
              have total : state'.derivedTotal = state.derivedTotal + 1 + _ := done.2.1
              rw [total, List.length_cons]
              omega
            · intro g hg old
              rw [grew.assertedFacts, List.map_append, List.mem_append] at old
              rcases old with old | old
              · exact fresh g (List.mem_cons_of_mem f hg) old
              · rw [List.map_singleton, List.mem_singleton] at old
                exact apart.1 (old ▸ List.mem_map_of_mem hg)

theorem mem_subRegistry {rules : List (String × Rule)} {p : String} {rule : Rule} :
    (subRegistry rules).HasRule p rule ↔ (p, rule) ∈ rules := by
  have each : ∀ (registry : RuleRegistry), (rules.foldl (fun registry entry =>
      registry.registerRuleUnchecked entry.1 entry.2) registry).HasRule p rule ↔
        registry.HasRule p rule ∨ (p, rule) ∈ rules := by
    induction rules with
    | nil => simp
    | cons entry rules ih =>
        intro registry
        rw [List.foldl_cons, ih, RuleRegistry.HasRule_registerRuleUnchecked, or_assoc, List.mem_cons, Prod.ext_iff]
  rw [subRegistry, each]
  simp [RuleRegistry.HasRule, RuleRegistry.new]

theorem mem_inForce {rules : List (String × Rule)} (among : ∀ entry ∈ rules, entry.1 ∈ predicates)
    {accumulated : FactStorage} {rule : Rule} :
    rule ∈ (ev.subEvaluator rules accumulated).inForce predicates ↔ rule ∈ rules.map Prod.snd := by
  have held : ∀ p, rule ∈ (subRegistry rules).getRules p ↔ (p, rule) ∈ rules := fun p =>
    RuleRegistry.mem_getRules.trans mem_subRegistry
  have same : (ev.subEvaluator rules accumulated).rules = subRegistry rules := rfl
  simp only [RecursiveEvaluator.inForce, List.mem_flatMap, same, held]
  constructor
  · rintro ⟨p, -, mem⟩
    exact List.mem_map_of_mem mem
  · intro mem
    obtain ⟨entry, hentry, rfl⟩ := List.mem_map.mp mem
    exact ⟨entry.1, among entry hentry, hentry⟩

theorem freshFacts_of_nodup {facts : List Fact} (apart : (facts.map pendingKey).Nodup) :
    freshFacts [] facts = facts := by
  have each : ∀ known : List PendingKey, (∀ f ∈ facts, pendingKey f ∉ known) → freshFacts known facts = facts := by
    induction facts with
    | nil => exact fun _ _ => rfl
    | cons f facts ih =>
        intro known new
        rw [List.map_cons, List.nodup_cons] at apart
        rw [freshFacts, if_neg (new f List.mem_cons_self), ih apart.2]
        intro g hg old
        rcases List.mem_cons.mp old with same | old
        · exact apart.1 (same ▸ List.mem_map_of_mem hg)
        · exact new g (List.mem_cons_of_mem f hg) old
  exact each [] fun _ _ => List.not_mem_nil

theorem evaluatePositive_full {positive : List (String × Rule)} {state state' : Progress}
    (run : ev.evaluatePositive predicates positive state = .ok state') (full : state.accumulated.Full) :
    state'.accumulated.Full := by
  rw [evaluatePositive] at run
  by_cases none_ : positive.isEmpty = true
  · rw [if_pos none_] at run
    cases run
    exact full
  · rw [if_neg none_] at run
    cases ran : (ev.subEvaluator positive state.accumulated).evaluateRecursiveRules predicates with
    | error e =>
        rw [ran] at run
        cases run
    | ok derived =>
        cases loaded : ev.loadDerived (state.accumulated.assertedFacts.map Fact.eavKey) derived.assertedFacts state with
        | error e =>
            simp only [ran, loaded, bind, Except.bind] at run
            cases run
        | ok middle =>
            simp only [ran, loaded, bind, Except.bind] at run
            cases run
            have held : middle.accumulated.Full := loadDerived_full loaded full
            exact held

/-- A pass over the positive rules adds what they make, until they make nothing more. -/
theorem evaluatePositive_ok {positive : List (String × Rule)} {state state' : Progress}
    (run : ev.evaluatePositive predicates positive state = .ok state')
    (plain : ∀ entry ∈ positive, hasMixedClause entry.2.body = false)
    (among : ∀ entry ∈ positive, entry.1 ∈ predicates)
    (ok : state.accumulated.Ok) (distinct : state.accumulated.Distinct) (few : state.derivedTotal ≤ ev.maxResults) :
    state'.accumulated.Full ∨ ∃ new, Grew state.accumulated new state'.accumulated ∧
      Saturation.Grown Fact.eavKey (RulesMake ev positive) state.accumulated.assertedFacts
        state'.accumulated.assertedFacts ∧
      Saturation.Closed Fact.eavKey (RulesMake ev positive) state'.accumulated.assertedFacts ∧
      state'.derivedTotal = state.derivedTotal + new.length ∧ state'.derivedTotal ≤ ev.maxResults := by
  rw [evaluatePositive] at run
  by_cases none_ : positive.isEmpty = true
  · rw [if_pos none_] at run
    cases run
    refine .inr ⟨[], .refl _, .base, ?_, rfl, few⟩
    rintro f ⟨entry, hentry, -⟩
    rw [List.isEmpty_iff.mp none_] at hentry
    cases hentry
  rw [if_neg none_] at run
  cases ran : (ev.subEvaluator positive state.accumulated).evaluateRecursiveRules predicates with
  | error e =>
      rw [ran] at run
      cases run
  | ok derived =>
      have base : (ev.subEvaluator positive state.accumulated).baseFacts = state.accumulated.assertedFacts :=
        freshFacts_of_nodup distinct
      obtain ⟨asserted, grown, closed, -⟩ := RecursiveEvaluator.evaluateRecursiveRules_ok ran
      have makes : ∀ facts f, (ev.subEvaluator positive state.accumulated).Makes predicates facts f ↔
          RulesMake ev positive facts f := by
        intro facts f
        rw [← derives_iff plain]
        simp only [RecursiveEvaluator.Makes, Derives, mem_inForce among]
        exact Iff.rfl
      rw [base] at grown
      have held : derived.assertedFacts = derived.facts := List.filter_eq_self.mpr asserted
      obtain ⟨new, split⟩ := grown.prefix_
      obtain ⟨apart, fresh⟩ := grown.added_nodup split.symm
      have kept : derived.assertedFacts.filter
          (fun f => f.eavKey ∉ state.accumulated.assertedFacts.map Fact.eavKey) = new := by
        rw [held, ← split, List.filter_append, List.filter_eq_nil_iff.mpr, List.nil_append,
          List.filter_eq_self.mpr]
        · intro f hf
          exact decide_eq_true (fresh f hf)
        · intro f hf
          simpa using ⟨f, hf, rfl⟩
      cases loaded : ev.loadDerived (state.accumulated.assertedFacts.map Fact.eavKey) derived.assertedFacts state with
      | error e =>
          simp only [ran, loaded, bind, Except.bind] at run
          cases run
      | ok middle =>
          simp only [ran, loaded, bind, Except.bind] at run
          cases run
          have taken := loadDerived_ok loaded ok (fun f hf => asserted f (held ▸ hf)) (by rw [kept]; exact fresh)
            (by rw [kept]; exact apart) few
          rw [kept] at taken
          refine taken.imp_right fun done => ⟨new, ⟨done.1.facts, done.1.asserted, done.1.fresh, done.1.apart,
            fun before => ⟨(done.1.ok before).keys, (done.1.ok before).indexes⟩⟩, ?_, ?_, done.2.1, done.2.2⟩
          · have after := done.1.assertedFacts
            rw [split] at after
            exact (after ▸ grown).mono fun earlier f _ => (makes earlier f).mp
          · have after := done.1.assertedFacts
            rw [split] at after
            exact after ▸ fun f made => closed f ((makes _ f).mpr made)

/-! ## Mixed rules -/

theorem deriveHead_full {head : List EdnValue} {state state' : MixedPass} {b : Bindings}
    (run : ev.deriveHead head state b = .ok state') (full : state.accumulated.Full) : state'.accumulated.Full := by
  rw [deriveHead] at run
  cases made : instantiateHead ev.env head b with
  | error e =>
      rw [made] at run
      cases run
      exact full
  | ok f =>
      rw [made] at run
      by_cases known : f.eavKey ∈ state.known
      · simp only [known, if_true] at run
        cases run
        exact full
      · by_cases many : state.newInPass + 1 > ev.maxDerivedFacts
        · simp only [known, many, if_false, if_true] at run
          cases run
        · by_cases much : state.derivedTotal + 1 > ev.maxResults
          · simp only [known, many, much, if_false, if_true] at run
            cases run
          · simp only [known, many, much, if_false] at run
            cases run
            exact attempted_transact_full full f _

theorem foldlM_full {α : Type} {step : MixedPass → α → Except EvaluationError MixedPass} {l : List α}
    (each : ∀ state a state', step state a = .ok state' → state.accumulated.Full → state'.accumulated.Full)
    {state state' : MixedPass} (run : l.foldlM step state = .ok state') (full : state.accumulated.Full) :
    state'.accumulated.Full := by
  induction l generalizing state with
  | nil =>
      cases run
      exact full
  | cons a l ih =>
      rw [List.foldlM_cons] at run
      cases here : step state a with
      | error e =>
          rw [here] at run
          cases run
      | ok middle =>
          rw [here] at run
          exact ih run (each state a middle here full)

theorem evaluateMixedRule_full (state : MixedPass) (entry : String × Rule) (state' : MixedPass)
    (run : ev.evaluateMixedRule state entry = .ok state') (full : state.accumulated.Full) :
    state'.accumulated.Full := by
  rw [evaluateMixedRule] at run
  cases rows : (ev.matcher state.accumulated.assertedFacts).mixedRows ev.build entry.2.body with
  | error e =>
      rw [rows] at run
      cases run
  | ok candidates =>
      rw [rows] at run
      exact foldlM_full (fun _ _ _ here => deriveHead_full here) run full

/-- Where a pass over mixed rules stands: its store grew by what they make, it knows the keys
of its store, and it counted what is new. -/
structure MixedOk (ev : StratifiedEvaluator) (rules : List (String × Rule)) (s : FactStorage) (start : Nat)
    (state : MixedPass) (new : List Fact) : Prop where
  grew : Grew s new state.accumulated
  grown : Saturation.Grown Fact.eavKey (RulesMake ev rules) s.assertedFacts state.accumulated.assertedFacts
  known : ∀ k, k ∈ state.known ↔ k ∈ state.accumulated.assertedFacts.map Fact.eavKey
  count : state.newInPass = new.length
  total : state.derivedTotal = start + new.length
  few : state.derivedTotal ≤ ev.maxResults

variable {rules : List (String × Rule)} {s : FactStorage} {start : Nat} {state state' : MixedPass} {new : List Fact}

/-- The store has the fact of a row, if the head makes one. -/
def HeadHeld (ev : StratifiedEvaluator) (head : List EdnValue) (facts : List Fact) (b : Bindings) : Prop :=
  ∀ h, instantiateHead ev.env head b = .ok h → h.eavKey ∈ facts.map Fact.eavKey

theorem HeadHeld.mono {head : List EdnValue} {facts more : List Fact} {b : Bindings} (held : HeadHeld ev head facts b)
    (front : facts <+: more) : HeadHeld ev head more b :=
  fun h made => List.map_subset _ front.subset (held h made)

theorem deriveHead_ok {entry : String × Rule} (hentry : entry ∈ rules) {earlier : List Fact} {b : Bindings}
    (row : BodyRow ev entry.2 earlier b) (h : MixedOk ev rules s start state new) (begin_ : s.assertedFacts <+: earlier)
    (front : earlier <+: state.accumulated.assertedFacts) (run : ev.deriveHead entry.2.head state b = .ok state') :
    state'.accumulated.Full ∨ (∃ new', MixedOk ev rules s start state' new') ∧
      state.accumulated.assertedFacts <+: state'.accumulated.assertedFacts ∧
      HeadHeld ev entry.2.head state'.accumulated.assertedFacts b := by
  rw [deriveHead] at run
  cases made : instantiateHead ev.env entry.2.head b with
  | error e =>
      rw [made] at run
      cases run
      refine .inr ⟨⟨new, h⟩, List.prefix_refl _, fun f other => ?_⟩
      rw [made] at other
      cases other
  | ok f =>
      have only : ∀ g, instantiateHead ev.env entry.2.head b = .ok g → g = f := by
        intro g other
        rw [made] at other
        cases other
        rfl
      rw [made] at run
      by_cases known : f.eavKey ∈ state.known
      · simp only [known, if_true] at run
        cases run
        refine .inr ⟨⟨new, h⟩, List.prefix_refl _, fun g other => ?_⟩
        rw [only g other]
        exact (h.known _).mp known
      · have fresh : f.eavKey ∉ state.accumulated.assertedFacts.map Fact.eavKey := fun old => known ((h.known _).mpr old)
        by_cases many : state.newInPass + 1 > ev.maxDerivedFacts
        · simp only [known, many, if_false, if_true] at run
          cases run
        · by_cases much : state.derivedTotal + 1 > ev.maxResults
          · simp only [known, many, much, if_false, if_true] at run
            cases run
          · simp only [known, many, much, if_false] at run
            cases run
            rcases attempted_transact fresh (ev.clock state.accumulated.facts.length) with full | ⟨g, same, grew⟩
            · exact .inl full
            · have key := Fact.eavKey_of_triple same
              refine .inr ⟨⟨new ++ [g], h.grew.trans grew, ?_, fun k => ?_, ?_, ?_, Nat.le_of_not_lt much⟩, ?_, ?_⟩
              · rw [grew.assertedFacts]
                exact h.grown.make begin_ front ⟨entry, hentry, b, row, f, made, same⟩ (by rw [key]; exact fresh)
              · rw [grew.assertedFacts, List.map_append, List.mem_append, List.mem_cons, h.known, List.map_singleton,
                  List.mem_singleton, key, or_comm]
              · rw [List.length_append, List.length_singleton, h.count]
              · rw [List.length_append, List.length_singleton, h.total, Nat.add_assoc]
              · rw [grew.assertedFacts]
                exact List.prefix_append _ _
              · intro g' other
                rw [only g' other, grew.assertedFacts, List.map_append, List.map_singleton, key]
                exact List.mem_append_right _ (List.mem_singleton_self _)

theorem deriveHeads_ok {entry : String × Rule} (hentry : entry ∈ rules) {earlier : List Fact} {rows : List Bindings}
    (each : ∀ b ∈ rows, BodyRow ev entry.2 earlier b) (h : MixedOk ev rules s start state new)
    (begin_ : s.assertedFacts <+: earlier) (front : earlier <+: state.accumulated.assertedFacts)
    (run : rows.foldlM (ev.deriveHead entry.2.head) state = .ok state') :
    state'.accumulated.Full ∨ (∃ new', MixedOk ev rules s start state' new') ∧
      state.accumulated.assertedFacts <+: state'.accumulated.assertedFacts ∧
      ∀ b ∈ rows, HeadHeld ev entry.2.head state'.accumulated.assertedFacts b := by
  induction rows generalizing state new with
  | nil =>
      cases run
      exact .inr ⟨⟨new, h⟩, List.prefix_refl _, fun _ no => absurd no List.not_mem_nil⟩
  | cons b rows ih =>
      rw [List.foldlM_cons] at run
      cases here : ev.deriveHead entry.2.head state b with
      | error e =>
          rw [here] at run
          cases run
      | ok middle =>
          rw [here] at run
          rcases deriveHead_ok hentry (each b List.mem_cons_self) h begin_ front here with full | ⟨⟨new', h'⟩, more, held⟩
          · exact .inl (foldlM_full (fun _ _ _ step => deriveHead_full step) run full)
          · have later := ih (fun c hc => each c (List.mem_cons_of_mem b hc)) h' (front.trans more) run
            refine later.imp_right fun done => ⟨done.1, more.trans done.2.1, fun c hc => ?_⟩
            rcases List.mem_cons.mp hc with rfl | hc
            · exact held.mono done.2.1
            · exact done.2.2 c hc

/-- What the rule makes of some of the facts is held: of those it saw. -/
def RuleHeld (ev : StratifiedEvaluator) (rule : Rule) (base facts : List Fact) : Prop :=
  ∃ earlier, base <+: earlier ∧ earlier <+: facts ∧ ∀ f, RuleMakes ev rule earlier f → f.eavKey ∈ facts.map Fact.eavKey

theorem evaluateMixedRule_ok {entry : String × Rule} (hentry : entry ∈ rules)
    (mixed : hasMixedClause entry.2.body = true) (h : MixedOk ev rules s start state new)
    (run : ev.evaluateMixedRule state entry = .ok state') :
    state'.accumulated.Full ∨ (∃ new', MixedOk ev rules s start state' new') ∧
      state.accumulated.assertedFacts <+: state'.accumulated.assertedFacts ∧
      RuleHeld ev entry.2 s.assertedFacts state'.accumulated.assertedFacts := by
  rw [evaluateMixedRule] at run
  cases ran : (ev.matcher state.accumulated.assertedFacts).mixedRows ev.build entry.2.body with
  | error e =>
      rw [ran] at run
      cases run
  | ok rows =>
      rw [ran] at run
      have begin_ : s.assertedFacts <+: state.accumulated.assertedFacts := h.grown.prefix_
      have done := deriveHeads_ok hentry (fun b hb => .mixed mixed ran hb) h begin_ (List.prefix_refl _) run
      refine done.imp_right fun done => ⟨done.1, done.2.1, _, begin_, done.2.1, ?_⟩
      rintro f ⟨b, row, g, made, same⟩
      rw [Fact.eavKey_of_triple same]
      cases row with
      | positive plain _ _ =>
          rw [mixed] at plain
          cases plain
      | mixed _ ran' mem =>
          rw [ran] at ran'
          cases ran'
          exact done.2.2 b mem g made

theorem RuleHeld.mono {rule : Rule} {base facts more : List Fact} (held : RuleHeld ev rule base facts)
    (front : facts <+: more) : RuleHeld ev rule base more := by
  obtain ⟨earlier, begin_, upTo, made⟩ := held
  exact ⟨earlier, begin_, upTo.trans front, fun f h => List.map_subset _ front.subset (made f h)⟩

theorem evaluateMixedRules_ok {mixed : List (String × Rule)} (among : mixed ⊆ rules)
    (each : ∀ entry ∈ mixed, hasMixedClause entry.2.body = true) (h : MixedOk ev rules s start state new)
    (run : mixed.foldlM ev.evaluateMixedRule state = .ok state') :
    state'.accumulated.Full ∨ (∃ new', MixedOk ev rules s start state' new') ∧
      state.accumulated.assertedFacts <+: state'.accumulated.assertedFacts ∧
      ∀ entry ∈ mixed, RuleHeld ev entry.2 s.assertedFacts state'.accumulated.assertedFacts := by
  induction mixed generalizing state new with
  | nil =>
      cases run
      exact .inr ⟨⟨new, h⟩, List.prefix_refl _, fun _ no => absurd no List.not_mem_nil⟩
  | cons entry mixed ih =>
      rw [List.foldlM_cons] at run
      rw [List.cons_subset] at among
      cases here : ev.evaluateMixedRule state entry with
      | error e =>
          rw [here] at run
          cases run
      | ok middle =>
          rw [here] at run
          rcases evaluateMixedRule_ok among.1 (each entry List.mem_cons_self) h here with full | ⟨⟨new', h'⟩, more, held⟩
          · exact .inl (foldlM_full evaluateMixedRule_full run full)
          · have later := ih among.2 (fun e he => each e (List.mem_cons_of_mem entry he)) h' run
            refine later.imp_right fun done => ⟨done.1, more.trans done.2.1, fun e he => ?_⟩
            rcases List.mem_cons.mp he with rfl | he
            · exact held.mono done.2.1
            · exact done.2.2 e he

/-- A pass over mixed rules adds what they make. -/
theorem evaluateMixed_ok {mixed : List (String × Rule)} {state : Progress} {done : MixedPass}
    (run : ev.evaluateMixed mixed state = .ok done) (each : ∀ entry ∈ mixed, hasMixedClause entry.2.body = true)
    (few : state.derivedTotal ≤ ev.maxResults) :
    done.accumulated.Full ∨ ∃ new, Grew state.accumulated new done.accumulated ∧
      Saturation.Grown Fact.eavKey (RulesMake ev mixed) state.accumulated.assertedFacts
        done.accumulated.assertedFacts ∧
      done.newInPass = new.length ∧ done.derivedTotal = state.derivedTotal + new.length ∧
      done.derivedTotal ≤ ev.maxResults ∧
      ∀ entry ∈ mixed, RuleHeld ev entry.2 state.accumulated.assertedFacts done.accumulated.assertedFacts := by
  cases mixed with
  | nil =>
      cases run
      exact .inr ⟨[], .refl _, .base, rfl, rfl, few, fun _ no => absurd no List.not_mem_nil⟩
  | cons entry mixed =>
      have begin_ : MixedOk ev (entry :: mixed) state.accumulated state.derivedTotal
          { state with known := state.accumulated.assertedFacts.map Fact.eavKey, newInPass := 0 } [] :=
        ⟨.refl _, .base, fun _ => Iff.rfl, rfl, rfl, few⟩
      refine (evaluateMixedRules_ok (List.Subset.refl _) each begin_ run).imp_right fun finished => ?_
      obtain ⟨⟨new, ok⟩, -, held⟩ := finished
      exact ⟨new, ok.grew, ok.grown, ok.count, ok.total, ok.few, held⟩

theorem evaluateMixed_full {mixed : List (String × Rule)} {state : Progress} {done : MixedPass}
    (run : ev.evaluateMixed mixed state = .ok done) (full : state.accumulated.Full) : done.accumulated.Full :=
  foldlM_full evaluateMixedRule_full run full

/-! ## Passes -/

/-- The store grew by what rules make, and all of it is counted. -/
structure Stage (ev : StratifiedEvaluator) (rules : List (String × Rule)) (state state' : Progress)
    (new : List Fact) : Prop where
  grew : Grew state.accumulated new state'.accumulated
  grown : Saturation.Grown Fact.eavKey (RulesMake ev rules) state.accumulated.assertedFacts
    state'.accumulated.assertedFacts
  total : state'.derivedTotal = state.derivedTotal + new.length
  few : state'.derivedTotal ≤ ev.maxResults

theorem Stage.trans {state₁ state₂ state₃ : Progress} {new later : List Fact}
    (first : Stage ev rules state₁ state₂ new) (second : Stage ev rules state₂ state₃ later) :
    Stage ev rules state₁ state₃ (new ++ later) where
  grew := first.grew.trans second.grew
  grown := first.grown.trans second.grown
  total := by rw [second.total, first.total, List.length_append, Nat.add_assoc]
  few := second.few

theorem RulesMake.mono {rules' : List (String × Rule)} (among : rules ⊆ rules') {facts : List Fact} {f : Fact}
    (made : RulesMake ev rules facts f) : RulesMake ev rules' facts f := by
  obtain ⟨entry, hentry, made⟩ := made
  exact ⟨entry, among hentry, made⟩

/-- Rules make facts under the name they are registered by. -/
def Headed (ev : StratifiedEvaluator) (rules : List (String × Rule)) : Prop :=
  ∀ entry ∈ rules, ∀ facts f, RuleMakes ev entry.2 facts f → f.attr = ":" ++ entry.1

/-- No rule sees facts under the names of some. -/
def Blind (ev : StratifiedEvaluator) (rules : List (String × Rule)) (names : List String) : Prop :=
  ∀ entry ∈ rules, ∀ facts added, (∀ g ∈ added, ∃ p ∈ names, g.attr = ":" ++ p) →
    ∀ f, RuleMakes ev entry.2 (facts ++ added) f ↔ RuleMakes ev entry.2 facts f

theorem Headed.added {base facts added : List Fact} (headed : Headed ev rules)
    (grown : Saturation.Grown Fact.eavKey (RulesMake ev rules) base facts) (split : facts = base ++ added) :
    ∀ g ∈ added, ∃ p ∈ rules.map Prod.fst, g.attr = ":" ++ p := by
  intro g hg
  obtain ⟨earlier, -, -, entry, hentry, made⟩ := grown.added_made split g hg
  exact ⟨entry.1, List.mem_map_of_mem hentry, headed entry hentry earlier g made⟩

/-- A pass whose mixed rules bring nothing new, or nothing that a rule sees, leaves the facts
closed. -/
theorem closed_of_last {positive mixed : List (String × Rule)} {middle facts new : List Fact}
    (closed : Saturation.Closed Fact.eavKey (RulesMake ev positive) middle) (split : facts = middle ++ new)
    (held : ∀ entry ∈ mixed, RuleHeld ev entry.2 middle facts)
    (names : ∀ g ∈ new, ∃ p ∈ mixed.map Prod.fst, g.attr = ":" ++ p)
    (blind : new = [] ∨ Blind ev (positive ++ mixed) (mixed.map Prod.fst)) :
    Saturation.Closed Fact.eavKey (RulesMake ev (positive ++ mixed)) facts := by
  rintro f ⟨entry, hentry, made⟩
  have seen : ∀ earlier later, facts = earlier ++ later → later ⊆ new → RuleMakes ev entry.2 earlier f := by
    intro earlier later cut few
    rcases blind with none_ | blind
    · rw [none_, List.subset_nil] at few
      rw [cut, few, List.append_nil] at made
      exact made
    · rw [cut] at made
      exact (blind entry hentry earlier later (fun g hg => names g (few hg)) f).mp made
  rcases List.mem_append.mp hentry with hpositive | hmixed
  · have key := closed f ⟨entry, hpositive, seen middle new split (List.Subset.refl _)⟩
    rw [split, List.map_append]
    exact List.mem_append_left _ key
  · obtain ⟨earlier, ⟨rest, begin_⟩, ⟨later, front⟩, held⟩ := held entry hmixed
    apply held f
    apply seen earlier later front.symm
    rw [split, ← begin_, List.append_assoc, List.append_right_inj] at front
    rw [← front]
    exact List.subset_append_right rest later

theorem passes_full {positive mixed : List (String × Rule)} {again : Bool} {left : Nat} {state state' : Progress}
    (run : ev.passes predicates positive mixed again left state = .ok state') (full : state.accumulated.Full) :
    state'.accumulated.Full := by
  induction left generalizing state with
  | zero => cases run
  | succ left ih =>
      rw [passes] at run
      cases first : ev.evaluatePositive predicates positive state with
      | error e =>
          rw [first] at run
          cases run
      | ok middle =>
          cases second : ev.evaluateMixed mixed middle with
          | error e =>
              simp only [first, second, bind, Except.bind] at run
              cases run
          | ok done =>
              have held := evaluateMixed_full second (evaluatePositive_full first full)
              simp only [first, second, bind, Except.bind] at run
              by_cases last : (!again || decide (done.newInPass = 0)) = true
              · rw [if_pos last] at run
                cases run
                exact held
              · rw [if_neg last] at run
                exact ih run held

/-- The passes over a stratum add what its rules make, until they make nothing more. -/
theorem passes_ok {positive mixed : List (String × Rule)} {again : Bool} {left : Nat} {state state' : Progress}
    (run : ev.passes predicates positive mixed again left state = .ok state')
    (plain : ∀ entry ∈ positive, hasMixedClause entry.2.body = false)
    (mixed_ : ∀ entry ∈ mixed, hasMixedClause entry.2.body = true)
    (among : ∀ entry ∈ positive, entry.1 ∈ predicates) (headed : Headed ev mixed)
    (blind : again = false → Blind ev (positive ++ mixed) (mixed.map Prod.fst))
    (ok : state.accumulated.Ok) (distinct : state.accumulated.Distinct) (few : state.derivedTotal ≤ ev.maxResults) :
    state'.accumulated.Full ∨ (∃ new, Stage ev (positive ++ mixed) state state' new) ∧
      Saturation.Closed Fact.eavKey (RulesMake ev (positive ++ mixed)) state'.accumulated.assertedFacts := by
  induction left generalizing state with
  | zero => cases run
  | succ left ih =>
      rw [passes] at run
      cases first : ev.evaluatePositive predicates positive state with
      | error e =>
          rw [first] at run
          cases run
      | ok middle =>
          cases second : ev.evaluateMixed mixed middle with
          | error e =>
              simp only [first, second, bind, Except.bind] at run
              cases run
          | ok done =>
              simp only [first, second, bind, Except.bind] at run
              have stays : done.accumulated.Full → state'.accumulated.Full := by
                intro full
                by_cases last : (!again || decide (done.newInPass = 0)) = true
                · rw [if_pos last] at run
                  cases run
                  exact full
                · rw [if_neg last] at run
                  exact passes_full run full
              rcases evaluatePositive_ok first plain among ok distinct few with full | ⟨new, grew, grown, closed, total, few'⟩
              · exact .inl (stays (evaluateMixed_full second full))
              rcases evaluateMixed_ok second mixed_ few' with full | ⟨later, grew', grown', count, total', few'', held⟩
              · exact .inl (stays full)
              have stage : Stage ev (positive ++ mixed) state done.toProgress (new ++ later) :=
                ⟨grew.trans grew', (grown.mono fun _ _ _ => RulesMake.mono (List.subset_append_left _ _)).trans
                  (grown'.mono fun _ _ _ => RulesMake.mono (List.subset_append_right _ _)),
                  by rw [total', total, List.length_append, Nat.add_assoc], few''⟩
              by_cases last : (!again || decide (done.newInPass = 0)) = true
              · rw [if_pos last] at run
                cases run
                refine .inr ⟨⟨new ++ later, stage⟩, ?_⟩
                apply closed_of_last closed grew'.assertedFacts held (headed.added grown' grew'.assertedFacts)
                rw [Bool.or_eq_true, decide_eq_true_eq, Bool.not_eq_true'] at last
                rcases last with once | none_
                · exact .inr (blind once)
                · rw [count, List.length_eq_zero_iff] at none_
                  exact .inl none_
              · rw [if_neg last] at run
                have done_ := ih run (stage.grew.ok ok) (stage.grew.distinct distinct) few''
                refine done_.imp_right fun rest => ⟨?_, rest.2⟩
                obtain ⟨more, further⟩ := rest.1
                exact ⟨_, stage.trans further⟩

end StratifiedEvaluator
end Minigraf
