import Minigraf.Graph.NetView
import Minigraf.Query.Matcher
import Minigraf.Storage.ExactLookups

/-!
The facts a query without rules is answered from: `filter_facts_for_query` and
`selective_fact_fetch` of `src/query/datalog/executor.rs`. Where the patterns of a query name
few entities and attributes, only the facts of these are read, and no pattern of the query
can tell.
-/

namespace Minigraf

open EStateM

/-! ## Patterns -/

mutual

def WhereClause.allPatterns : WhereClause → List Pattern
  | .pattern p => [p]
  | .not inner => collectAllPatterns inner
  | .notJoin _ inner => collectAllPatterns inner
  | .or branches => collectBranchesPatterns branches
  | .orJoin _ branches => collectBranchesPatterns branches
  | .ruleInvocation _ _ => []
  | .expr _ _ => []

/-- `collect_all_patterns`. -/
def collectAllPatterns : List WhereClause → List Pattern
  | [] => []
  | clause :: clauses => clause.allPatterns ++ collectAllPatterns clauses

def collectBranchesPatterns : List (List WhereClause) → List Pattern
  | [] => []
  | branch :: branches => collectAllPatterns branch ++ collectBranchesPatterns branches

end

/-! ## Lookups -/

/-- The entity a pattern names. -/
def boundEntity (env : Env) : EdnValue → Option EntityId
  | .uuid u => some u
  | .keyword k => ednToEntityId env (.keyword k)
  | _ => none

/-- The attribute a pattern names. -/
def AttributeSpec.keyword? : AttributeSpec → Option Attribute
  | .real (.keyword attr) => some attr
  | _ => none

/-- What is to be read: of each entity some attributes or everything, and attributes of any
entity. A set is a map to nothing. -/
structure FetchPlan where
  entityAttrs : OrdMap EntityId (Option (OrdMap Attribute Unit))
  attributes : OrdMap Attribute Unit

namespace FetchPlan

def empty : FetchPlan := ⟨.empty, .empty⟩

/-- A pattern that names neither entity nor attribute needs every fact. -/
def add (env : Env) (plan : FetchPlan) (pattern : Pattern) : Option FetchPlan :=
  match boundEntity env pattern.entity with
  | some uid =>
      let slot := (plan.entityAttrs.get? uid).getD (some .empty)
      let slot := pattern.attr.keyword?.bind fun attr => slot.map fun attrs => attrs.insert attr ()
      some { plan with entityAttrs := plan.entityAttrs.insert uid slot }
  | none => pattern.attr.keyword?.map fun attr => { plan with attributes := plan.attributes.insert attr () }

def narrowedLookups (plan : FetchPlan) : Nat :=
  (plan.entityAttrs.entries.map fun entry => entry.2.elim 1 fun attrs => attrs.entries.length).sum +
    plan.attributes.entries.length

def entityLookups (narrow : Bool) (entry : EntityId × Option (OrdMap Attribute Unit)) : List Lookup :=
  match entry.2, narrow with
  | some attrs, true => attrs.entries.map fun attr => .entityAttribute entry.1 attr.1
  | _, _ => [.entity entry.1]

def lookups (plan : FetchPlan) (narrow : Bool) : List Lookup :=
  plan.entityAttrs.entries.flatMap (entityLookups narrow) ++
    plan.attributes.entries.map fun attr => .attr attr.1

/-- The lookups of a plan, if they are few enough. -/
def within (threshold : Nat) (plan : FetchPlan) : Option (List Lookup) :=
  let narrow := decide (plan.narrowedLookups ≤ threshold)
  let total := if narrow then plan.narrowedLookups
    else plan.entityAttrs.entries.length + plan.attributes.entries.length
  if total = 0 ∨ total > threshold then none else some (plan.lookups narrow)

end FetchPlan

def lookupsFor (env : Env) (patterns : List Pattern) (threshold : Nat) : Option (List Lookup) :=
  (patterns.foldlM (FetchPlan.add env) .empty).bind (FetchPlan.within threshold)

/-! ## Facts -/

section Fetch

variable {H C : Type} (crc : Crc H C) (postcard : Postcard) (env : Env)

/-- `ok()`: an error is no result. A panic is no error. -/
def okOrNone {α : Type} (x : StoreM H C α) : StoreM H C (Option α) := fun s =>
  match x s with
  | .ok a t => .ok (some a) t
  | .error .panicked t => .error .panicked t
  | .error _ t => .ok none t

def selectiveFactFetch (patterns : List Pattern) (threshold : Nat) : StoreM H C (Option (List Fact)) :=
  match lookupsFor env patterns threshold with
  | none => pure none
  | some lookups => okOrNone (getFactsForLookups crc postcard lookups)

/-- The facts `filter_facts_for_query` starts from, of a query without rules and `:as-of`. -/
def sourceFacts (whereClauses : List WhereClause) : StoreM H C (List Fact) := do
  match ← selectiveFactFetch crc postcard env (collectAllPatterns whereClauses) 4 with
  | some facts => pure facts
  | none => allFacts crc postcard

end Fetch

/-! ## What a pattern can match -/

variable {env : Env}

/-- The fact has the entity and the attribute the pattern names. -/
def Pattern.Touches (env : Env) (p : Pattern) (f : Fact) : Prop :=
  (∀ uid, boundEntity env p.entity = some uid → f.entity = uid) ∧ ∀ attr, p.attr.keyword? = some attr → f.attr = attr

theorem keyword_of_keyword? {attr : AttributeSpec} {k : Attribute} (names : attr.keyword? = some k) :
    attr = .real (.keyword k) := by
  unfold AttributeSpec.keyword? at names
  split at names
  · cases names
    rfl
  · cases names

/-- A component that names an entity stands for it, whatever the row. -/
theorem entity_of_match {m : PatternMatcher} {toEdn : Value → EdnValue} {component : EdnValue} {uid : EntityId}
    {f : Fact} {b c c' : Bindings} (names : boundEntity m.env component = some uid)
    (matched : m.matchComponent (substituteWith toEdn b component) (.ref f.entity) c = some c') : f.entity = uid := by
  cases component with
  | keyword k =>
      simp only [boundEntity, ednToEntityId, Option.some.injEq] at names
      by_cases same : keywordId m.env k = f.entity
      · exact same.symm.trans names
      · have other : m.constantMatches (.keyword k) (.ref f.entity) = false := decide_eq_false same
        simp [substituteWith, PatternMatcher.matchComponent, other] at matched
  | uuid u =>
      simp only [boundEntity, Option.some.injEq] at names
      by_cases same : u = f.entity
      · exact same.symm.trans names
      · have other : m.constantMatches (.uuid u) (.ref f.entity) = false := decide_eq_false same
        simp [substituteWith, PatternMatcher.matchComponent, other] at matched
  | var _ | underscore | symbol _ | string _ | integer _ | float _ | boolean _ | vector _ | list _ | map _ | nil
  | bindSlot _ => simp [boundEntity] at names

/-- A fact a pattern matches, on whatever row, has the entity and attribute the pattern names. -/
theorem touches_of_match {m : PatternMatcher} {toEdn : Value → EdnValue} {p : Pattern} {f : Fact} {b b' : Bindings}
    (matched : m.matchFactAgainstPattern f (substitutePatternWith toEdn b p) = some b') : p.Touches m.env f := by
  unfold PatternMatcher.matchFactAgainstPattern at matched
  obtain ⟨b₁, first, rest⟩ := Option.bind_eq_some_iff.mp matched
  refine ⟨fun uid names => entity_of_match names first, fun attr names => ?_⟩
  simp only [substitutePatternWith, keyword_of_keyword? names, substituteWith] at rest
  obtain ⟨b₂, second, -⟩ := Option.bind_eq_some_iff.mp rest
  by_cases same : attr = f.attr
  · exact same.symm
  · have other : m.constantMatches (.keyword attr) (.keyword f.attr) = false := decide_eq_false same
    simp [PatternMatcher.matchComponent, other] at second

/-! ## The plan has all that its patterns touch -/

namespace FetchPlan

variable {plan plan' : FetchPlan} {p : Pattern}

/-- What is read of an entity has the attribute a pattern names, or is everything. -/
def SlotReads (slot : Option (OrdMap Attribute Unit)) (attr? : Option Attribute) : Prop :=
  ∀ attrs, slot = some attrs → ∃ attr, attr? = some attr ∧ (attr, ()) ∈ attrs.entries

/-- The plan reads what the pattern touches. -/
inductive Covers (env : Env) (plan : FetchPlan) (p : Pattern) : Prop where
  | entity {uid : EntityId} {slot : Option (OrdMap Attribute Unit)} (names : boundEntity env p.entity = some uid)
      (here : plan.entityAttrs.get? uid = some slot) (reads : SlotReads slot p.attr.keyword?) : Covers env plan p
  | attr {attr : Attribute} (names : p.attr.keyword? = some attr) (mem : (attr, ()) ∈ plan.attributes.entries) :
      Covers env plan p

theorem slotReads_new (slot : Option (OrdMap Attribute Unit)) (attr? : Option Attribute) :
    SlotReads (attr?.bind fun attr => slot.map fun attrs => attrs.insert attr ()) attr? := by
  intro attrs same
  obtain ⟨attr, names, same⟩ := Option.bind_eq_some_iff.mp same
  obtain ⟨old, -, rfl⟩ := Option.map_eq_some_iff.mp same
  exact ⟨attr, names, OrdMap.mem_insert.mpr (.inl rfl)⟩

theorem SlotReads.insert {slot : Option (OrdMap Attribute Unit)} {attr? other? : Option Attribute}
    (reads : SlotReads slot other?) :
    SlotReads (attr?.bind fun attr => slot.map fun attrs => attrs.insert attr ()) other? := by
  intro attrs same
  obtain ⟨attr, -, same⟩ := Option.bind_eq_some_iff.mp same
  obtain ⟨old, was, rfl⟩ := Option.map_eq_some_iff.mp same
  obtain ⟨other, names, mem⟩ := reads old was
  refine ⟨other, names, OrdMap.mem_insert.mpr ?_⟩
  by_cases equal : other = attr
  · exact .inl (by rw [equal])
  · exact .inr ⟨mem, equal⟩

theorem add_covers (added : plan.add env p = some plan') :
    plan'.Covers env p ∧ ∀ q, plan.Covers env q → plan'.Covers env q := by
  unfold add at added
  cases names : boundEntity env p.entity with
  | none =>
      simp only [names, Option.map_eq_some_iff] at added
      obtain ⟨attr, named, rfl⟩ := added
      refine ⟨.attr named (OrdMap.mem_insert.mpr (.inl rfl)), fun q covered => ?_⟩
      cases covered with
      | entity names here reads => exact .entity names here reads
      | @attr attr' named mem =>
          refine .attr named (OrdMap.mem_insert.mpr ?_)
          by_cases same : attr' = attr
          · exact .inl (by rw [same])
          · exact .inr ⟨mem, same⟩
  | some uid =>
      simp only [names, Option.some.injEq] at added
      subst added
      refine ⟨.entity names (by rw [OrdMap.get?_insert, if_pos rfl]) (slotReads_new _ _), fun q covered => ?_⟩
      cases covered with
      | attr named mem => exact .attr named mem
      | @entity uid' slot names' here reads =>
          by_cases same : uid' = uid
          · subst same
            refine .entity names' (by rw [OrdMap.get?_insert, if_pos rfl, here, Option.getD_some]) reads.insert
          · exact .entity names' (by rw [OrdMap.get?_insert, if_neg same]; exact here) reads

theorem foldlM_covers {patterns : List Pattern} (made : patterns.foldlM (add env) plan = some plan') :
    (∀ p ∈ patterns, plan'.Covers env p) ∧ ∀ q, plan.Covers env q → plan'.Covers env q := by
  induction patterns generalizing plan with
  | nil =>
      cases made
      exact ⟨fun _ no => absurd no List.not_mem_nil, fun _ => id⟩
  | cons p patterns ih =>
      rw [List.foldlM_cons] at made
      obtain ⟨middle, added, rest⟩ := Option.bind_eq_some_iff.mp made
      obtain ⟨here, kept⟩ := add_covers added
      obtain ⟨later, kept'⟩ := ih rest
      refine ⟨fun q hq => ?_, fun q covered => kept' q (kept q covered)⟩
      rcases List.mem_cons.mp hq with rfl | hq
      · exact kept' q here
      · exact later q hq

/-- A fact a covered pattern touches is looked up. -/
theorem Covers.selected (covered : plan.Covers env p) {f : Fact} (touches : p.Touches env f) (narrow : Bool) :
    ∃ lookup ∈ plan.lookups narrow, lookup.selects f = true := by
  cases covered with
  | @attr attr named mem =>
      refine ⟨.attr attr, List.mem_append_right _ (List.mem_map.mpr ⟨_, mem, rfl⟩), ?_⟩
      exact decide_eq_true (touches.2 attr named)
  | @entity uid slot names here reads =>
      have same := touches.1 uid names
      have among := OrdMap.get?_eq_some.mp here
      have listed : ∀ lookup ∈ entityLookups narrow (uid, slot), lookup ∈ plan.lookups narrow := fun lookup mem =>
        List.mem_append_left _ (List.mem_flatMap.mpr ⟨_, among, mem⟩)
      have whole : Lookup.selects (.entity uid) f = true := decide_eq_true same
      cases slot with
      | none => exact ⟨.entity uid, listed _ List.mem_cons_self, whole⟩
      | some attrs =>
          cases narrow with
          | false => exact ⟨.entity uid, listed _ List.mem_cons_self, whole⟩
          | true =>
              obtain ⟨attr, named, mem⟩ := reads attrs rfl
              refine ⟨.entityAttribute uid attr, listed _ (List.mem_map.mpr ⟨_, mem, rfl⟩), ?_⟩
              exact decide_eq_true ⟨same, touches.2 attr named⟩

/-- The entities of a plan are named by its patterns. -/
theorem foldlM_named {patterns : List Pattern} (made : patterns.foldlM (add env) plan = some plan') :
    ∀ entry ∈ plan'.entityAttrs.entries,
      entry ∈ plan.entityAttrs.entries ∨ ∃ p ∈ patterns, boundEntity env p.entity = some entry.1 := by
  induction patterns generalizing plan with
  | nil =>
      cases made
      exact fun _ => .inl
  | cons p patterns ih =>
      rw [List.foldlM_cons] at made
      obtain ⟨middle, added, rest⟩ := Option.bind_eq_some_iff.mp made
      intro entry mem
      rcases ih rest entry mem with old | ⟨q, hq, names⟩
      · unfold add at added
        cases names : boundEntity env p.entity with
        | none =>
            simp only [names, Option.map_eq_some_iff] at added
            obtain ⟨attr, -, rfl⟩ := added
            exact .inl old
        | some uid =>
            simp only [names, Option.some.injEq] at added
            subst added
            rcases OrdMap.mem_insert.mp old with rfl | ⟨old, -⟩
            · exact .inr ⟨p, List.mem_cons_self, names⟩
            · exact .inl old
      · exact .inr ⟨q, List.mem_cons_of_mem p hq, names⟩

theorem lookup_named {narrow : Bool} {uid : EntityId} (mem : .entity uid ∈ plan.lookups narrow) :
    ∃ slot, (uid, slot) ∈ plan.entityAttrs.entries := by
  rcases List.mem_append.mp mem with mem | mem
  · obtain ⟨⟨uid', slot⟩, hentry, mem⟩ := List.mem_flatMap.mp mem
    cases slot with
    | none =>
        cases List.mem_singleton.mp mem
        exact ⟨none, hentry⟩
    | some attrs =>
        cases narrow with
        | false =>
            cases List.mem_singleton.mp mem
            exact ⟨some attrs, hentry⟩
        | true =>
            obtain ⟨attr, -, same⟩ := List.mem_map.mp mem
            cases same
  · obtain ⟨attr, -, same⟩ := List.mem_map.mp mem
    cases same

theorem within_eq {threshold : Nat} {lookups : List Lookup} (few : plan.within threshold = some lookups) :
    ∃ narrow, lookups = plan.lookups narrow := by
  obtain ⟨-, few⟩ := Option.ite_none_left_eq_some.mp few
  exact ⟨_, (Option.some.inj few).symm⟩

end FetchPlan

/-- The lookups of patterns: what a pattern touches is looked up, and an entity that is looked
up is named by a pattern. -/
structure LooksUp (env : Env) (patterns : List Pattern) (lookups : List Lookup) : Prop where
  selected : ∀ p ∈ patterns, ∀ f, p.Touches env f → ∃ lookup ∈ lookups, lookup.selects f = true
  named : ∀ uid, .entity uid ∈ lookups → ∃ p ∈ patterns, boundEntity env p.entity = some uid

theorem looksUp_of_lookupsFor {patterns : List Pattern} {threshold : Nat} {lookups : List Lookup}
    (fetch : lookupsFor env patterns threshold = some lookups) : LooksUp env patterns lookups := by
  obtain ⟨plan, made, few⟩ := Option.bind_eq_some_iff.mp fetch
  obtain ⟨narrow, rfl⟩ := FetchPlan.within_eq few
  constructor
  · intro p hp f touches
    exact ((FetchPlan.foldlM_covers made).1 p hp).selected touches narrow
  · intro uid mem
    obtain ⟨slot, mem⟩ := FetchPlan.lookup_named mem
    exact (FetchPlan.foldlM_named made _ mem).resolve_left List.not_mem_nil

/-! ## What is read -/

section Reads

variable {H C : Type} (crc : Crc H C) {postcard : Postcard} {s : Store H C} {placed : List (Fact × FactRef)}

/-- No committed fact is out of the reach of an index lookup. -/
def Store.Indexed (s : Store H C) (placed : List (Fact × FactRef)) : Prop :=
  s.storage.committedIndexReader = none → s.storage.facts = [] ∨ placed = []

theorem Store.Indexed.reach (indexed : s.Indexed placed) {lookup : Lookup} (inner : lookup.wraps = false) :
    s.reach placed lookup = placed.map Prod.fst := by
  rw [Store.reach, inner, Bool.and_false, if_neg Bool.false_ne_true]
  cases reader : s.storage.committedIndexReader with
  | some roots => simp
  | none =>
      rcases indexed reader with empty | empty
      · simp [empty]
      · simp [empty]

/-- What several lookups answer. -/
theorem Store.Legible.wp_getFactsForLookups {lookups : List Lookup} (legible : s.Legible postcard placed)
    (clear : Scannable placed) (indexed : s.Indexed placed) (inner : ∀ lookup ∈ lookups, lookup.wraps = false) :
    Wp (getFactsForLookups crc postcard lookups) s
      (fun r t => StoreReads s t ∧ ∀ f, f ∈ r ↔
        f ∈ placed.map Prod.fst ++ latestFacts s.storage.facts ∧ ∃ lookup ∈ lookups, lookup.selects f = true)
      (fun _ _ => False) := by
  induction lookups generalizing s with
  | nil => exact ⟨.refl legible.okay, by simp⟩
  | cons lookup lookups ih =>
      have here := inner lookup List.mem_cons_self
      rw [getFactsForLookups, wp_bind]
      refine (legible.wp_lookupLatest crc clear lookup (by simp [here])).mono ?_ (fun _ _ no => no)
      intro facts t found
      obtain ⟨perm, reads⟩ := found
      rw [indexed.reach here] at perm
      have same : t.storage = s.storage := by
        obtain ⟨d, rfl, -⟩ := reads
        rfl
      rw [wp_bind]
      refine (ih (legible.reads reads) (by rw [Store.Indexed, same]; exact indexed)
        fun l hl => inner l (List.mem_cons_of_mem _ hl)).mono ?_ (fun _ _ no => no)
      intro rest u later
      obtain ⟨reads', mem⟩ := later
      refine ⟨reads.trans reads', fun f => ?_⟩
      rw [List.mem_append, perm.mem_iff, List.mem_filter, mem, same, List.exists_mem_cons_iff, and_or_left]

/-! ## What the patterns see -/

/-- Records of triples that are all there are seen as if no other were there. -/
theorem mem_netAssertedFacts_part {facts part : List Fact} (counted : ∀ f ∈ facts, 1 ≤ f.txCount)
    (apart : ∀ f ∈ facts, ∀ g ∈ facts, f.asserted = true → g.asserted = true → f.shownKey = g.shownKey → f = g)
    {f : Fact} (whole : ∀ g, g.eavKey = f.eavKey → (g ∈ part ↔ g ∈ facts)) :
    f ∈ netAssertedFacts part ↔ f ∈ netAssertedFacts facts := by
  have alone : ∀ facts, f ∈ netAssertedFacts facts ↔
      f ∈ netAssertedFacts (facts.filter fun g => decide (g.eavKey = f.eavKey)) := by
    intro facts
    rw [netAssertedFacts_filter, List.mem_filter, and_iff_left (decide_eq_true rfl)]
  rw [alone part, alone facts]
  refine (netAssertedFacts_same (fun g hg => counted g (List.mem_of_mem_filter hg)) (fun g => ?_)
    fun g hg h hh => apart g (List.mem_of_mem_filter hg) h (List.mem_of_mem_filter hh)).mem_iff
  rw [List.mem_filter, List.mem_filter, decide_eq_true_eq]
  constructor
  · rintro ⟨mem, key⟩
    exact ⟨(whole g key).mp mem, key⟩
  · rintro ⟨mem, key⟩
    exact ⟨(whole g key).mpr mem, key⟩

theorem Lookup.selects_of_key (lookup : Lookup) {f g : Fact} (key : g.eavKey = f.eavKey) :
    lookup.selects g = lookup.selects f := by
  simp only [Fact.eavKey, Prod.mk.injEq] at key
  cases lookup with
  | entity _ | entityAttribute _ _ | attr _ => simp only [Lookup.selects, key.1, key.2.1]

/-- Patterns match the same facts among some as among others, under any time of the query and
with any values for their variables. -/
def SeenAlike (env : Env) (patterns : List Pattern) (facts facts' : List Fact) : Prop :=
  ∀ validAt now seen seen', filterFactsForQuery facts none validAt now = some seen →
    filterFactsForQuery facts' none validAt now = some seen' → ∀ time, ∀ p ∈ patterns,
      (∀ toEdn b, ((⟨env, seen, time⟩ : PatternMatcher).matchPattern (substitutePatternWith toEdn b p)).Perm
        ((⟨env, seen', time⟩ : PatternMatcher).matchPattern (substitutePatternWith toEdn b p))) ∧
      ∀ b, ((⟨env, seen, time⟩ : PatternMatcher).matchPatternWithBindings p b).Perm
        ((⟨env, seen', time⟩ : PatternMatcher).matchPatternWithBindings p b)

theorem SeenAlike.refl (env : Env) (patterns : List Pattern) (facts : List Fact) : SeenAlike env patterns facts facts := by
  intro validAt now seen seen' here here'
  cases here.symm.trans here'
  exact fun time p _ => ⟨fun _ _ => .refl _, fun _ => .refl _⟩

/-- A fact that is seen under the time of a query. -/
theorem mem_filterFactsForQuery {facts facts' seen seen' : List Fact} {validAt : Option ValidAt} {now : Int64}
    (here : filterFactsForQuery facts none validAt now = some seen)
    (here' : filterFactsForQuery facts' none validAt now = some seen') :
    seen.Nodup ∧ seen'.Nodup ∧ ∀ f, (f ∈ netAssertedFacts facts ↔ f ∈ netAssertedFacts facts') → (f ∈ seen ↔ f ∈ seen') := by
  have nodup := nodup_netAssertedFacts facts
  have nodup' := nodup_netAssertedFacts facts'
  unfold filterFactsForQuery at here here'
  cases validAt with
  | none =>
      cases here
      cases here'
      exact ⟨nodup.filter _, nodup'.filter _, fun f same => by rw [List.mem_filter, List.mem_filter, same]⟩
  | some validAt =>
      cases validAt with
      | timestamp t =>
          cases here
          cases here'
          exact ⟨nodup.filter _, nodup'.filter _, fun f same => by rw [List.mem_filter, List.mem_filter, same]⟩
      | anyValidTime =>
          cases here
          cases here'
          exact ⟨nodup, nodup', fun f same => same⟩
      | slot name => cases here

/-- Facts that are filtered apart only where nothing is made of them make the same. -/
theorem filterMap_perm {α β : Type} {l l' : List α} {g : α → Option β} (nodup : l.Nodup) (nodup' : l'.Nodup)
    (same : ∀ a, g a ≠ none → (a ∈ l ↔ a ∈ l')) : (l.filterMap g).Perm (l'.filterMap g) := by
  classical
  have only : ∀ l : List α, l.filterMap g = (l.filter fun a => decide (g a ≠ none)).filterMap g := by
    intro l
    rw [List.filterMap_filter]
    apply List.filterMap_congr
    intro a _
    by_cases made : g a = none
    · simp [made]
    · simp [made]
  rw [only l, only l']
  apply List.Perm.filterMap
  rw [List.perm_ext_iff_of_nodup (nodup.filter _) (nodup'.filter _)]
  intro a
  rw [List.mem_filter, List.mem_filter, decide_eq_true_eq]
  exact and_congr_left fun made => same a made

/-- What lookups read is seen as all facts are by the patterns they are for. -/
theorem LooksUp.seenAlike {patterns : List Pattern} {lookups : List Lookup} (looks : LooksUp env patterns lookups)
    {facts fetched : List Fact} (counted : ∀ f ∈ facts, 1 ≤ f.txCount)
    (apart : ∀ f ∈ facts, ∀ g ∈ facts, f.asserted = true → g.asserted = true → f.shownKey = g.shownKey → f = g)
    (read : ∀ f, f ∈ fetched ↔ f ∈ facts ∧ ∃ lookup ∈ lookups, lookup.selects f = true) :
    SeenAlike env patterns fetched facts := by
  intro validAt now seen seen' here here' time p hp
  obtain ⟨nodup, nodup', alike⟩ := mem_filterFactsForQuery here here'
  -- a record of the same triple is looked up as well
  have known : ∀ f, p.Touches env f → (f ∈ seen ↔ f ∈ seen') := by
    intro f touches
    apply alike
    apply mem_netAssertedFacts_part counted apart
    intro g key
    obtain ⟨lookup, mem, selects⟩ := looks.selected p hp f touches
    rw [read, and_iff_left]
    exact ⟨lookup, mem, (lookup.selects_of_key key).trans selects⟩
  have same : ∀ toEdn b f, (⟨env, seen, time⟩ : PatternMatcher).matchFactAgainstPattern f
      (substitutePatternWith toEdn b p) ≠ none → (f ∈ seen ↔ f ∈ seen') := by
    intro toEdn b f some_
    obtain ⟨b', matched⟩ := Option.ne_none_iff_exists'.mp some_
    exact known f (touches_of_match matched)
  refine ⟨fun toEdn b => filterMap_perm nodup nodup' (same toEdn b), fun b => ?_⟩
  have stored : (⟨env, seen', time⟩ : PatternMatcher).storedValue p b =
      (⟨env, seen, time⟩ : PatternMatcher).storedValue p b := rfl
  rw [PatternMatcher.matchPatternWithBindings, PatternMatcher.matchPatternWithBindings, stored]
  cases (⟨env, seen, time⟩ : PatternMatcher).storedValue p b with
  | some value => exact .refl _
  | none =>
      apply filterMap_perm nodup nodup'
      intro f some_
      apply same valueToEdn b f
      intro unmatched
      apply some_
      rw [applyBindingsToPattern, unmatched]
      rfl

theorem Store.Distinct.shownKey (distinct : s.Distinct placed) {f g : Fact}
    (hf : f ∈ placed.map Prod.fst ++ s.storage.facts) (hg : g ∈ placed.map Prod.fst ++ s.storage.facts)
    (same : f.shownKey = g.shownKey) : f = g := by
  apply List.inj_on_of_nodup_map distinct hf hg
  simp only [Fact.shownKey, Fact.windowKey, Prod.mk.injEq] at same
  obtain ⟨⟨entity, attr, -, validFrom, validTo⟩, count⟩ := same
  simp only [Fact.eavtKey, entity, attr, validFrom, validTo, count]

theorem wp_okOrNone {α : Type} {x : StoreM H C α} {Q : α → Store H C → Prop} (h : Wp x s Q fun _ _ => False) :
    Wp (okOrNone x) s (fun r t => ∃ a, r = some a ∧ Q a t) fun _ _ => False := by
  unfold Wp at h
  unfold Wp okOrNone
  cases ran : x s with
  | ok a t =>
      rw [ran] at h
      exact ⟨a, rfl, h⟩
  | error e t =>
      rw [ran] at h
      exact h.elim

/-- What a query is answered from: all facts, or what the lookups of its patterns select of those
the indexes have. -/
theorem Store.Legible.wp_sourceFacts_selected (legible : s.Legible postcard placed) (env : Env)
    (whereClauses : List WhereClause)
    (looked : ∀ lookups, lookupsFor env (collectAllPatterns whereClauses) 4 = some lookups →
      Scannable placed ∧ s.Indexed placed ∧ .entity (Fin.last _) ∉ lookups) :
    Wp (sourceFacts crc postcard env whereClauses) s
      (fun r t => StoreReads s t ∧
        (lookupsFor env (collectAllPatterns whereClauses) 4 = none ∧ r = placed.map Prod.fst ++ s.storage.facts ∨
          ∃ lookups, lookupsFor env (collectAllPatterns whereClauses) 4 = some lookups ∧
            ∀ f, f ∈ r ↔ f ∈ placed.map Prod.fst ++ latestFacts s.storage.facts ∧
              ∃ lookup ∈ lookups, lookup.selects f = true))
      (fun _ _ => False) := by
  rw [sourceFacts, selectiveFactFetch]
  cases fetch : lookupsFor env (collectAllPatterns whereClauses) 4 with
  | none =>
      refine (legible.readable.wp_allFacts crc).mono ?_ (fun _ _ no => no)
      intro r t read
      obtain ⟨rfl, rfl⟩ := read
      exact ⟨.refl legible.okay, .inl ⟨rfl, rfl⟩⟩
  | some lookups =>
      obtain ⟨clear, indexed, inner⟩ := looked lookups fetch
      have inside : ∀ lookup ∈ lookups, lookup.wraps = false := by
        intro lookup mem
        rw [Lookup.wraps, decide_eq_false_iff_not]
        rintro rfl
        exact inner mem
      simp only [wp_bind]
      refine (wp_okOrNone (legible.wp_getFactsForLookups crc clear indexed inside)).mono ?_ (fun _ _ no => no)
      intro r t found
      obtain ⟨fetched, rfl, reads, mem⟩ := found
      exact ⟨reads, .inr ⟨lookups, rfl, mem⟩⟩

/-- The facts a query is answered from look to its patterns as all facts do. -/
theorem Store.Legible.wp_sourceFacts (legible : s.Legible postcard placed) (distinct : s.Distinct placed)
    (indexed : s.Indexed placed) (counted : ∀ f ∈ placed.map Prod.fst ++ s.storage.facts, 1 ≤ f.txCount)
    (env : Env) (whereClauses : List WhereClause)
    (inner : ∀ p ∈ collectAllPatterns whereClauses, boundEntity env p.entity ≠ some (Fin.last _)) :
    Wp (sourceFacts crc postcard env whereClauses) s
      (fun r t => StoreReads s t ∧
        SeenAlike env (collectAllPatterns whereClauses) r (placed.map Prod.fst ++ s.storage.facts))
      (fun _ _ => False) := by
  have inside : ∀ lookups, lookupsFor env (collectAllPatterns whereClauses) 4 = some lookups →
      .entity (Fin.last _) ∉ lookups := by
    intro lookups fetch mem
    obtain ⟨p, hp, names⟩ := (looksUp_of_lookupsFor fetch).named _ mem
    exact inner p hp names
  refine (legible.wp_sourceFacts_selected crc env whereClauses fun lookups fetch =>
    ⟨.inl distinct.parts.1, indexed, inside lookups fetch⟩).mono ?_ (fun _ _ no => no)
  intro r t read
  rw [latestFacts_eq distinct.parts.2] at read
  obtain ⟨reads, ⟨-, rfl⟩ | ⟨lookups, fetch, mem⟩⟩ := read
  · exact ⟨reads, .refl env _ _⟩
  · have looks := looksUp_of_lookupsFor fetch
    exact ⟨reads, looks.seenAlike counted (fun f hf g hg _ _ => distinct.shownKey hf hg) mem⟩

end Reads

/-- `[7 :a ?v] (not [?e :b ?v])`, on a store with a thousand facts on its pages and a thousand
pending. -/
theorem Store.Legible.wp_sourceFacts_thousands : ∃ (s : Store (List UInt8) (List UInt8))
    (placed : List (Fact × FactRef)) (facts : List Fact) (t : Store (List UInt8) (List UInt8)),
    placed.map Prod.fst = (numberedFacts 2000).take 1000 ∧
    s.storage.facts = (numberedFacts 2000).drop 1000 ∧
    sourceFacts Crc.lossless Postcard.standard ⟨fun _ => none, fun _ => 0, fun _ _ => false, fun _ => none⟩
      [.pattern ⟨.uuid 7, .real (.keyword ":a"), .var (.named "v")⟩,
        .not [.pattern ⟨.var (.named "e"), .real (.keyword ":b"), .var (.named "v")⟩]] s = .ok facts t ∧
    SeenAlike ⟨fun _ => none, fun _ => 0, fun _ _ => false, fun _ => none⟩
      [⟨.uuid 7, .real (.keyword ":a"), .var (.named "v")⟩, ⟨.var (.named "e"), .real (.keyword ":b"), .var (.named "v")⟩]
      facts (placed.map Prod.fst ++ s.storage.facts) := by
  obtain ⟨s, placed, legible, distinct, reader, committed, pending⟩ := exists_thousands
  have counted : ∀ f ∈ placed.map Prod.fst ++ s.storage.facts, 1 ≤ f.txCount := by
    rw [committed, pending, List.take_append_drop]
    intro f hf
    obtain ⟨n, -, rfl⟩ := exists_of_mem_numberedFacts hf
    exact le_rfl
  have fetched := legible.wp_sourceFacts Crc.lossless distinct (fun none_ => absurd none_ reader) counted
    ⟨fun _ => none, fun _ => 0, fun _ _ => false, fun _ => none⟩
    [.pattern ⟨.uuid 7, .real (.keyword ":a"), .var (.named "v")⟩,
      .not [.pattern ⟨.var (.named "e"), .real (.keyword ":b"), .var (.named "v")⟩]] (by decide)
  obtain ⟨facts, t, run, -, alike⟩ := fetched.exists_ok
  exact ⟨s, placed, facts, t, committed, pending, run, alike⟩

end Minigraf
