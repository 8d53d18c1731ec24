import Minigraf.Lib.Results
import Minigraf.Query.Recursion

/-!
What the recursive evaluator returns: the facts it started from and facts made by rules
from facts before them, all with keys of their own, and closed under the rules.
-/

namespace Minigraf

variable {env : Env} {validAt : Option Int64} {rules : List Rule}

def Fact.triple (f : Fact) : EntityId × Attribute × Value := (f.entity, f.attr, f.value)

theorem Fact.eavKey_of_triple {f g : Fact} (same : f.triple = g.triple) : f.eavKey = g.eavKey := by
  simp only [Fact.triple, Prod.mk.injEq] at same
  rw [eavKey, eavKey, same.1, same.2.1, same.2.2]

/-- A rule makes the fact of a row of its body over the facts. -/
def Derives (env : Env) (validAt : Option Int64) (rules : List Rule) (facts : List Fact) (f : Fact) : Prop :=
  ∃ rule ∈ rules, ∃ split, splitBody rule.body = .ok split ∧
    ∃ b ∈ (⟨env, facts, validAt⟩ : PatternMatcher).splitRows split,
      ∃ h, instantiateHead env rule.head b = .ok h ∧ f.triple = h.triple

theorem stored_eq_ok {α : Type} {x : FactM α} {s t : FactStorage} (run : stored x s = .ok t) :
    ∃ a, x s = .ok a t := by
  unfold stored at run
  cases step : x s with
  | ok a u =>
      rw [step] at run
      cases run
      exact ⟨a, rfl⟩
  | error e u =>
      rw [step] at run
      cases run

namespace RecursiveEvaluator

variable {ev : RecursiveEvaluator} {predicates : List String}

/-! ## A round -/

/-- The rules in force. -/
def inForce (ev : RecursiveEvaluator) (predicates : List String) : List Rule :=
  predicates.flatMap ev.rules.getRules

/-- What the rules make of facts. -/
def Makes (ev : RecursiveEvaluator) (predicates : List String) : List Fact → Fact → Prop :=
  Derives ev.env ev.validAt (ev.inForce predicates)

theorem evaluateRule_ok {rule : Rule} {s : FactStorage} {facts : List Fact}
    (run : ev.evaluateRule rule s = .ok facts) :
    ∃ split, splitBody rule.body = .ok split ∧
      List.Forall₂ (fun b h => instantiateHead ev.env rule.head b = .ok h)
        ((ev.matcher s.assertedFacts).splitRows split) facts := by
  unfold evaluateRule at run
  cases split : splitBody rule.body with
  | error e =>
      rw [split] at run
      cases run
  | ok parts =>
      rw [split] at run
      exact ⟨parts, rfl, List.forall₂_of_mapM_ok run⟩

theorem evaluateIteration_ok {s : FactStorage} {new : List Fact}
    (run : ev.evaluateIteration predicates s = .ok new) :
    (∀ f, ev.Makes predicates s.assertedFacts f → ∃ h ∈ new, f.triple = h.triple) ∧
      ∀ h ∈ new, ev.Makes predicates s.assertedFacts h := by
  unfold evaluateIteration at run
  cases each : (predicates.flatMap ev.rules.getRules).mapM (ev.evaluateRule · s) with
  | error e =>
      rw [each] at run
      cases run
  | ok lists =>
      rw [each] at run
      cases run
      have pairs := List.forall₂_of_mapM_ok each
      constructor
      · rintro f ⟨rule, hrule, split, hsplit, b, hb, h, made, same⟩
        obtain ⟨facts, hfacts, ran⟩ := pairs.exists_right hrule
        obtain ⟨split', hsplit', heads⟩ := evaluateRule_ok ran
        rw [hsplit] at hsplit'
        cases hsplit'
        obtain ⟨h', hh', made'⟩ := heads.exists_right hb
        rw [made] at made'
        cases made'
        exact ⟨h, List.mem_flatten.mpr ⟨facts, hfacts, hh'⟩, same⟩
      · intro h hh
        obtain ⟨facts, hfacts, hh⟩ := List.mem_flatten.mp hh
        obtain ⟨rule, hrule, ran⟩ := pairs.flip.exists_right hfacts
        obtain ⟨split, hsplit, heads⟩ := evaluateRule_ok ran
        obtain ⟨b, hb, made⟩ := heads.flip.exists_right hh
        exact ⟨rule, hrule, split, hsplit, b, hb, h, made, rfl⟩

/-- The delta of a round: what is new in it, once. -/
structure Fresh (seen : List EavKey) (new : List Fact) (seen' : List EavKey) (delta : List Fact) : Prop where
  from_ : delta ⊆ new
  fresh : ∀ f ∈ delta, f.eavKey ∉ seen
  nodup : (delta.map Fact.eavKey).Nodup
  keys : seen' = (delta.map Fact.eavKey).reverse ++ seen
  all : ∀ f ∈ new, f.eavKey ∈ seen'

theorem delta_ok {baseCount : Nat} {seen seen' : List EavKey} {new delta : List Fact}
    (run : ev.delta baseCount seen new = .ok (seen', delta)) : Fresh seen new seen' delta := by
  induction new generalizing seen seen' delta with
  | nil =>
      cases run
      exact ⟨fun _ no => no, nofun, List.nodup_nil, rfl, nofun⟩
  | cons f new ih =>
      rw [RecursiveEvaluator.delta] at run
      by_cases known : f.eavKey ∈ seen
      · rw [if_pos known] at run
        have rest := ih run
        refine ⟨fun g hg => List.mem_cons_of_mem f (rest.from_ hg), rest.fresh, rest.nodup, rest.keys, ?_⟩
        intro g hg
        rcases List.mem_cons.mp hg with rfl | hg
        · rw [rest.keys]
          exact List.mem_append_right _ known
        · exact rest.all g hg
      · rw [if_neg known] at run
        by_cases full : seen.length - baseCount ≥ ev.maxResults
        · rw [if_pos full] at run
          cases run
        · rw [if_neg full] at run
          cases later : ev.delta baseCount (f.eavKey :: seen) new with
          | error e =>
              rw [later] at run
              cases run
          | ok result =>
              rw [later] at run
              cases run
              have rest := ih later
              refine ⟨List.cons_subset_cons f rest.from_, ?_, ?_, ?_, ?_⟩
              · intro g hg
                rcases List.mem_cons.mp hg with rfl | hg
                · exact known
                · exact fun old => rest.fresh g hg (List.mem_cons_of_mem _ old)
              · rw [List.map_cons, List.nodup_cons]
                refine ⟨fun again => ?_, rest.nodup⟩
                obtain ⟨g, hg, same⟩ := List.mem_map.mp again
                exact rest.fresh g hg (same ▸ List.mem_cons_self)
              · rw [rest.keys]
                simp
              · intro g hg
                rcases List.mem_cons.mp hg with rfl | hg
                · rw [rest.keys]
                  exact List.mem_append_right _ List.mem_cons_self
                · exact rest.all g hg

/-- The results that are counted stay within the limit. -/
theorem delta_count {baseCount : Nat} {seen seen' : List EavKey} {new delta : List Fact}
    (run : ev.delta baseCount seen new = .ok (seen', delta)) (few : seen.length - baseCount ≤ ev.maxResults) :
    seen'.length - baseCount ≤ ev.maxResults := by
  induction new generalizing seen seen' delta with
  | nil =>
      cases run
      exact few
  | cons f new ih =>
      rw [RecursiveEvaluator.delta] at run
      by_cases known : f.eavKey ∈ seen
      · rw [if_pos known] at run
        exact ih run few
      · rw [if_neg known] at run
        by_cases full : seen.length - baseCount ≥ ev.maxResults
        · rw [if_pos full] at run
          cases run
        · rw [if_neg full] at run
          cases later : ev.delta baseCount (f.eavKey :: seen) new with
          | error e =>
              rw [later] at run
              cases run
          | ok result =>
              rw [later] at run
              cases run
              apply ih later
              rw [List.length_cons]
              omega

/-! ## Storing a delta -/

/-- A transaction of one triple stores one asserted fact. -/
theorem wp_transact_one (s : FactStorage) (f : Fact) (txId : TxId) :
    EStateM.Wp (transact [(f.entity, f.attr, f.value)] none txId) s
      (fun _ t => ∃ g : Fact, t.facts = s.facts ++ [g] ∧ g.triple = f.triple ∧ g.asserted = true ∧ (s.Ok → t.Ok))
      (fun _ t => t.facts = s.facts ∧ 2 ^ 32 ≤ s.facts.length) := by
  simp only [transact, allocateTxCount, EStateM.wp_bind, EStateM.wp_get, EStateM.wp_set, EStateM.wp_pure]
  refine (wp_appendFacts _ _).mono ?_ ?_
  · intro _ t appended
    exact ⟨_, appended.facts, rfl, rfl, fun ok => appended.ok ⟨ok.keys, ok.indexes⟩⟩
  · rintro _ t ⟨rfl, many⟩
    rw [List.length_map, List.length_singleton] at many
    exact ⟨rfl, Nat.le_of_lt_succ many⟩

theorem keys_of_triples {new delta : List Fact}
    (each : List.Forall₂ (fun g f : Fact => g.triple = f.triple ∧ g.asserted = true) new delta) :
    new.map Fact.eavKey = delta.map Fact.eavKey := by
  induction each with
  | nil => rfl
  | cons same _ ih => rw [List.map_cons, List.map_cons, Fact.eavKey_of_triple same.1, ih]

theorem addDelta_ok {delta : List Fact} {derived t : FactStorage} (run : ev.addDelta delta derived = .ok t) :
    ∃ new, t.facts = derived.facts ++ new ∧
      List.Forall₂ (fun g f : Fact => g.triple = f.triple ∧ g.asserted = true) new delta := by
  induction delta generalizing derived with
  | nil =>
      cases run
      exact ⟨[], (List.append_nil _).symm, .nil⟩
  | cons f delta ih =>
      rw [addDelta] at run
      cases step : stored (transact [(f.entity, f.attr, f.value)] none (ev.clock derived.facts.length)) derived with
      | error e =>
          rw [step] at run
          cases run
      | ok u =>
          rw [step] at run
          obtain ⟨_, ran⟩ := stored_eq_ok step
          obtain ⟨g, here, triple, asserted, -⟩ := (wp_transact_one derived f _).of_ok ran
          obtain ⟨new, rest, each⟩ := ih run
          refine ⟨g :: new, ?_, .cons ⟨triple, asserted⟩ each⟩
          rw [rest, here, List.append_assoc, List.singleton_append]

/-! ## The run -/

/-- Where an evaluation stands: its facts grew from the base by the rules, it saw the keys of
its facts, and counted no more results than it may. -/
structure Reached (ev : RecursiveEvaluator) (predicates : List String) (base : List Fact) (baseCount : Nat)
    (seen : List EavKey) (derived : FactStorage) : Prop where
  asserted : ∀ f ∈ derived.facts, f.asserted = true
  keys : ∀ k, k ∈ seen ↔ k ∈ derived.facts.map Fact.eavKey
  grown : Saturation.Grown Fact.eavKey (ev.Makes predicates) base derived.facts
  count : seen.length + base.length = baseCount + derived.facts.length
  few : seen.length - baseCount ≤ ev.maxResults

theorem Reached.assertedFacts {base : List Fact} {baseCount : Nat} {seen : List EavKey} {derived : FactStorage}
    (h : Reached ev predicates base baseCount seen derived) : derived.assertedFacts = derived.facts :=
  List.filter_eq_self.mpr h.asserted

theorem Reached.round {base : List Fact} {baseCount : Nat} {seen seen' : List EavKey} {derived t : FactStorage}
    {new delta : List Fact} (h : Reached ev predicates base baseCount seen derived)
    (made : ∀ f ∈ new, ev.Makes predicates derived.assertedFacts f)
    (fresh : Fresh seen new seen' delta) (few : seen'.length - baseCount ≤ ev.maxResults)
    (added : ev.addDelta delta derived = .ok t) : Reached ev predicates base baseCount seen' t := by
  obtain ⟨stored_, facts, each⟩ := addDelta_ok added
  have keys := keys_of_triples each
  refine ⟨fun f hf => ?_, fun k => ?_, ?_, ?_, few⟩
  · rw [facts] at hf
    rcases List.mem_append.mp hf with hf | hf
    · exact h.asserted f hf
    · obtain ⟨g, -, -, asserted⟩ := each.exists_right hf
      exact asserted
  · rw [fresh.keys, facts, List.map_append, List.mem_append, List.mem_append, List.mem_reverse, keys, h.keys,
      or_comm]
  · rw [facts]
    apply h.grown.round h.grown.prefix_
    · intro g hg
      obtain ⟨f, hf, same, -⟩ := each.exists_right hg
      obtain ⟨rule, hrule, split, hsplit, b, hb, head, instantiated, triple⟩ := made f (fresh.from_ hf)
      rw [h.assertedFacts] at hb
      exact ⟨rule, hrule, split, hsplit, b, hb, head, instantiated, same.trans triple⟩
    · intro g hg old
      obtain ⟨f, hf, same, -⟩ := each.exists_right hg
      rw [Fact.eavKey_of_triple same] at old
      exact fresh.fresh f hf ((h.keys _).mpr old)
    · rw [keys]
      exact fresh.nodup
  · have counted := h.count
    have lengths := each.length_eq
    rw [fresh.keys, facts, List.length_append, List.length_append, List.length_reverse, List.length_map]
    omega

/-- A round that brings nothing new leaves the facts closed. -/
theorem Reached.closed {base : List Fact} {baseCount : Nat} {seen seen' : List EavKey} {derived : FactStorage}
    {new : List Fact} (h : Reached ev predicates base baseCount seen derived)
    (ran : ev.evaluateIteration predicates derived = .ok new) (fresh : Fresh seen new seen' []) :
    Saturation.Closed Fact.eavKey (ev.Makes predicates) derived.facts := by
  intro f made
  rw [← h.assertedFacts] at made
  obtain ⟨head, mem, same⟩ := (evaluateIteration_ok ran).1 f made
  have known := fresh.all head mem
  rw [fresh.keys] at known
  rw [Fact.eavKey_of_triple same]
  exact (h.keys _).mp known

theorem Reached.iterate {base : List Fact} {baseCount left : Nat} {seen : List EavKey} {derived t : FactStorage}
    (h : Reached ev predicates base baseCount seen derived)
    (run : ev.iterate predicates baseCount left seen derived = .ok t) :
    (∃ seen', Reached ev predicates base baseCount seen' t) ∧
      Saturation.Closed Fact.eavKey (ev.Makes predicates) t.facts := by
  induction left generalizing seen derived with
  | zero => cases run
  | succ left ih =>
      rw [RecursiveEvaluator.iterate] at run
      cases ran : ev.evaluateIteration predicates derived with
      | error e =>
          rw [ran] at run
          cases run
      | ok new =>
          rw [ran] at run
          by_cases many : new.length > ev.maxDerivedFacts
          · simp only [bind, Except.bind, many, if_true] at run
            cases run
          · cases part : ev.delta baseCount seen new with
            | error e =>
                simp only [bind, Except.bind, many, if_false, part] at run
                cases run
            | ok result =>
                obtain ⟨seen', delta⟩ := result
                have fresh := delta_ok part
                simp only [bind, Except.bind, many, if_false, part, pure, Except.pure] at run
                cases delta with
                | nil =>
                    cases run
                    exact ⟨⟨seen, h⟩, h.closed ran fresh⟩
                | cons f delta =>
                    simp only [List.isEmpty_cons, Bool.false_eq_true, if_false] at run
                    cases added : ev.addDelta (f :: delta) derived with
                    | error e =>
                        rw [added] at run
                        cases run
                    | ok u =>
                        rw [added] at run
                        exact ih (h.round (evaluateIteration_ok ran).2 fresh (delta_count part h.few) added) run

/-- The facts an evaluation starts from: those of its store, none of them twice. -/
def baseFacts (ev : RecursiveEvaluator) : List Fact := freshFacts [] ev.storage.assertedFacts

theorem mem_baseFacts_keys (ev : RecursiveEvaluator) (k : EavKey) :
    k ∈ ev.baseFacts.map Fact.eavKey ↔ k ∈ ev.storage.assertedFacts.map Fact.eavKey := by
  constructor
  · intro mem
    obtain ⟨f, hf, same⟩ := List.mem_map.mp mem
    exact List.mem_map.mpr ⟨f, (mem_freshFacts hf).1, same⟩
  · intro mem
    obtain ⟨f, hf, same⟩ := List.mem_map.mp mem
    obtain ⟨g, hg, key⟩ := exists_freshFacts hf (List.not_mem_nil (a := pendingKey f))
    refine List.mem_map.mpr ⟨g, hg, ?_⟩
    rw [← same]
    simp only [pendingKey, PendingKey.mk.injEq] at key
    simp only [Fact.eavKey, key.1, key.2.1, key.2.2.1]

theorem baseFacts_asserted (ev : RecursiveEvaluator) : ∀ f ∈ ev.baseFacts, f.asserted = true := by
  intro f hf
  exact (List.mem_filter.mp (mem_freshFacts hf).1).2

/-- The store an evaluation starts with. -/
theorem reached_start {derived derived' : FactStorage}
    (loaded : stored (loadFacts ev.storage.assertedFacts) .new = .ok derived)
    (counted : stored restoreTxCounter derived = .ok derived') :
    Reached ev predicates ev.baseFacts (ev.storage.assertedFacts.map Fact.eavKey).dedup.length
      (ev.storage.assertedFacts.map Fact.eavKey).dedup derived' := by
  obtain ⟨_, ran⟩ := stored_eq_ok loaded
  have facts := ((wp_loadFacts FactStorage.new ev.storage.assertedFacts).of_ok ran).facts
  have same : derived'.facts = ev.baseFacts := by
    cases counted
    exact facts
  refine ⟨?_, fun k => ?_, ?_, ?_, ?_⟩
  · rw [same]
    exact ev.baseFacts_asserted
  · rw [same, mem_baseFacts_keys, List.mem_dedup]
  · rw [same]
    exact .base
  · rw [same]
  · rw [Nat.sub_self]
    exact Nat.zero_le _

/-- What an evaluation returns grew from its base by its rules and is closed under them, and
has no more derived facts than it may. -/
theorem evaluateRecursiveRules_ok {t : FactStorage} (run : ev.evaluateRecursiveRules predicates = .ok t) :
    (∀ f ∈ t.facts, f.asserted = true) ∧
      Saturation.Grown Fact.eavKey (ev.Makes predicates) ev.baseFacts t.facts ∧
      Saturation.Closed Fact.eavKey (ev.Makes predicates) t.facts ∧
      t.facts.length ≤ ev.baseFacts.length + ev.maxResults := by
  unfold evaluateRecursiveRules at run
  cases loaded : stored (loadFacts ev.storage.assertedFacts) .new with
  | error e =>
      simp only [bind, Except.bind, loaded] at run
      cases run
  | ok derived =>
      cases counted : stored restoreTxCounter derived with
      | error e =>
          simp only [bind, Except.bind, loaded, counted] at run
          cases run
      | ok derived' =>
          simp only [bind, Except.bind, loaded, counted] at run
          have start : Reached ev predicates ev.baseFacts _ _ derived' := reached_start loaded counted
          obtain ⟨⟨seen, reached⟩, closed⟩ := start.iterate run
          refine ⟨reached.asserted, reached.grown, closed, ?_⟩
          have count := reached.count
          have few := reached.few
          have start := List.IsPrefix.length_le reached.grown.prefix_
          omega

end RecursiveEvaluator
end Minigraf
