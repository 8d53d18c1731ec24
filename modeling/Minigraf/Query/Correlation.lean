import Minigraf.Query.Outputs

/-!
Per-fact pseudo-attributes. A real pattern leaves the fact it matched behind for its
entity, and a later `:db/valid-from`, `:db/valid-to`, `:db/tx-count` or `:db/tx-id` pattern
on the entity reads it. Later is meant in the order of the plan: the metadata is that of
the closest real pattern of the text where the plan keeps that pattern the closest.
-/

namespace Minigraf

/-- A pattern over a stored attribute. -/
def Pattern.isReal (p : Pattern) : Bool :=
  match p.attr with
  | .real _ => true
  | .pseudo _ => false

/-- A pattern and its place in the text. -/
abbrev Tagged := Pattern × Nat

def taggedPatterns (clauses : List WhereClause) : List Tagged := (bodyPatterns clauses).zipIdx

/-- The patterns as they are planned, with their places in the text. -/
def sortedTagged (build : Build) (clauses : List WhereClause) : List Tagged :=
  build.sortBy (fun s t => decide (selectivityScore t.1 ≤ selectivityScore s.1)) (taggedPatterns clauses)

/-- What comes before the pattern of a place. -/
def beforeTag (k : Nat) (tagged : List Tagged) : List Tagged := tagged.takeWhile fun t => t.2 != k

/-- The last real pattern on an entity, where each pattern is on the entity given for it. -/
def lastOn (place : Nat → Option EntityId) (id : EntityId) (tagged : List Tagged) : Option Nat :=
  (tagged.reverse.find? fun t => t.1.isReal && decide (place t.2 = some id)).map Prod.snd

/-- A component that says which entity it is, on its own or by a variable. -/
def EdnValue.isAnchor : EdnValue → Bool
  | .keyword _ => true
  | .uuid _ => true
  | .var (.named _) => true
  | _ => false

/-- Entities the patterns may be on: a constant names its own, and a variable stands for
one and the same. -/
structure Places (env : Env) (tagged : List Tagged) (place : Nat → Option EntityId) : Prop where
  constant : ∀ t ∈ tagged, ∀ id, ednToEntityId env t.1.entity = some id → place t.2 = some id
  shared : ∀ s ∈ tagged, ∀ t ∈ tagged, ∀ n, s.1.entity = .var (.named n) → t.1.entity = .var (.named n) →
    place s.2 = place t.2

namespace PatternMatcher

/-- The plan keeps, for each per-fact pseudo-attribute, the real pattern that is the
closest before it in the text, on whatever entities the patterns are; and where a real
pattern comes before it in the text, its entity is known when it runs. -/
structure StandsAlike (env : Env) (build : Build) (clauses : List WhereClause) : Prop where
  closest : ∀ t ∈ taggedPatterns clauses, PerFact t.1 → t.1.entity.isAnchor = true →
    ∀ place, Places env (taggedPatterns clauses) place → ∀ id, place t.2 = some id →
      lastOn place id (beforeTag t.2 (sortedTagged build clauses)) =
        lastOn place id (beforeTag t.2 (taggedPatterns clauses))
  known : ∀ t ∈ taggedPatterns clauses, PerFact t.1 → ∀ n, t.1.entity = .var (.named n) →
    (∃ s ∈ beforeTag t.2 (sortedTagged build clauses), s.1.Mentions (.named n)) ∨
      ∀ s ∈ beforeTag t.2 (taggedPatterns clauses), s.1.isReal = false

section

variable (m : PatternMatcher)

/-- The patterns of the text one after the other: a real pattern has a fact, and its entity
stands on this fact from there; a per-fact pseudo-attribute is that of the fact its entity
stands on, or of any where it stands on none. -/
def Correlated (outs : List Var) : Stand → List Pattern → Bindings → Prop
  | _, [], _ => True
  | stand, p :: ps, σ =>
      match m.standing stand (patternBoundVars p) σ p with
      | some f => m.ReadsOff σ p f ∧ Correlated outs stand ps σ
      | none => ∃ f ∈ m.facts, m.Fits outs σ p f ∧ Correlated outs (Stand.after stand p f) ps σ

/-- The assignments under which the patterns correlate and the other clauses hold. -/
def Correlates (clauses : List WhereClause) (σ : Bindings) : Prop :=
  (∀ v, (∃ x, σ.lookup (.var v) = some x) ↔ v ∈ clauses.flatMap WhereClause.binds) ∧
    m.Correlated (outputs clauses) (fun _ => none) (bodyPatterns clauses) σ ∧
      ∀ clause ∈ clauses, (∀ p, clause ≠ .pattern p) → m.Holds (outputs clauses) σ clause

/-- The same with the clauses of the plan only: what the plan puts off is still open. -/
def PlanCorrelates (build : Build) (clauses : List WhereClause) (σ : Bindings) : Prop :=
  (∀ v, (∃ x, σ.lookup (.var v) = some x) ↔ v ∈ (clausesOf (plan build clauses).1).flatMap WhereClause.binds) ∧
    m.Correlated (outputs (clausesOf (plan build clauses).1)) (fun _ => none) (bodyPatterns clauses) σ ∧
      ∀ clause ∈ clausesOf (plan build clauses).1, (∀ p, clause ≠ .pattern p) →
        m.Holds (outputs (clausesOf (plan build clauses).1)) σ clause

/-! ## Patterns with what is bound before them -/

abbrev Item := Tagged × List Var

/-- The patterns of a list of clauses, each with the variables bound before it. -/
def patternBounds : List Var → List WhereClause → List (Pattern × List Var)
  | _, [] => []
  | bound, .pattern p :: clauses => (p, bound) :: patternBounds (bound ++ (WhereClause.pattern p).binds) clauses
  | bound, clause :: clauses => patternBounds (bound ++ clause.binds) clauses

/-- The patterns with what is known before them, one after the other. -/
def Follows (outs : List Var) (σ : Bindings) : Stand → List (Pattern × List Var) → Prop
  | _, [] => True
  | stand, (p, bound) :: ps =>
      match m.standing stand bound σ p with
      | some f => m.ReadsOff σ p f ∧ Follows outs σ stand ps
      | none => ∃ f ∈ m.facts, m.Fits outs σ p f ∧ Follows outs σ (Stand.after stand p f) ps

end

variable {m : PatternMatcher} {outs : List Var} {σ : Bindings}

theorem patternBounds_cons {clause : WhereClause} (notPattern : ∀ p, clause ≠ .pattern p) (bound : List Var)
    (clauses : List WhereClause) :
    patternBounds bound (clause :: clauses) = patternBounds (bound ++ clause.binds) clauses := by
  cases clause with
  | pattern p => exact absurd rfl (notPattern p)
  | expr _ _ | not _ | notJoin _ _ | ruleInvocation _ _ | or _ | orJoin _ _ => rfl

theorem patternBounds_fst (bound : List Var) (clauses : List WhereClause) :
    (patternBounds bound clauses).map Prod.fst = bodyPatterns clauses := by
  induction clauses generalizing bound with
  | nil => rfl
  | cons clause clauses ih =>
      by_cases notPattern : ∀ p, clause ≠ .pattern p
      · rw [patternBounds_cons notPattern, bodyPatterns_cons notPattern, ih]
      · obtain ⟨p, rfl⟩ := not_forall_not.1 notPattern
        exact congrArg (p :: ·) (ih _)

/-- The variables of the patterns before a pattern are bound. -/
theorem patternBounds_bound {bound : List Var} {clauses : List WhereClause} {front back : List (Pattern × List Var)}
    {p : Pattern} {known : List Var} (h : patternBounds bound clauses = front ++ (p, known) :: back) :
    bound ⊆ known ∧ ∀ q ∈ front, (WhereClause.pattern q.1).binds ⊆ known := by
  induction clauses generalizing bound front with
  | nil => exact absurd h.symm (by simp [patternBounds])
  | cons clause clauses ih =>
      by_cases notPattern : ∀ p, clause ≠ .pattern p
      · rw [patternBounds_cons notPattern] at h
        obtain ⟨sub, all⟩ := ih h
        exact ⟨(List.append_subset.1 sub).1, all⟩
      · obtain ⟨q, rfl⟩ := not_forall_not.1 notPattern
        cases front with
        | nil =>
            cases (List.cons.inj h).1
            exact ⟨List.Subset.refl _, fun _ no => nomatch no⟩
        | cons first front =>
            obtain ⟨rfl, rest⟩ := List.cons.inj h
            obtain ⟨sub, all⟩ := ih rest
            obtain ⟨early, here⟩ := List.append_subset.1 sub
            exact ⟨early, List.forall_mem_cons.2 ⟨here, all⟩⟩

/-- The patterns of a list of clauses can be looked at on their own. -/
theorem solves_patterns (stand : Stand) (bound : List Var) (clauses : List WhereClause) :
    m.Solves outs stand bound clauses σ ↔
      m.Follows outs σ stand (patternBounds bound clauses) ∧
        ∀ clause ∈ clauses, (∀ p, clause ≠ .pattern p) → m.Holds outs σ clause := by
  induction clauses generalizing stand bound with
  | nil => exact ⟨fun _ => ⟨trivial, fun _ no => absurd no List.not_mem_nil⟩, fun _ => trivial⟩
  | cons clause clauses ih =>
      rw [List.forall_mem_cons]
      by_cases notPattern : ∀ p, clause ≠ .pattern p
      · rw [solves_cons notPattern, patternBounds_cons notPattern, ih]
        constructor
        · rintro ⟨here, rest, all⟩
          exact ⟨rest, fun _ => here, all⟩
        · rintro ⟨rest, here, all⟩
          exact ⟨here notPattern, rest, all⟩
      · obtain ⟨p, rfl⟩ := not_forall_not.1 notPattern
        rw [Solves, patternBounds, Follows]
        have off : (∀ q, WhereClause.pattern p ≠ .pattern q) → m.Holds outs σ (.pattern p) :=
          fun no => absurd rfl (no p)
        cases m.standing stand bound σ p with
        | some f =>
            simp only [ih]
            constructor
            · rintro ⟨here, rest, all⟩
              exact ⟨⟨here, rest⟩, off, all⟩
            · rintro ⟨⟨here, rest⟩, _, all⟩
              exact ⟨here, rest, all⟩
        | none =>
            simp only [ih]
            constructor
            · rintro ⟨f, mem, fits, rest, all⟩
              exact ⟨⟨f, mem, fits, rest⟩, off, all⟩
            · rintro ⟨⟨f, mem, fits, rest⟩, _, all⟩
              exact ⟨f, mem, fits, rest, all⟩

theorem correlated_iff (stand : Stand) (ps : List Pattern) :
    m.Correlated outs stand ps σ ↔ m.Follows outs σ stand (ps.map fun p => (p, patternBoundVars p)) := by
  induction ps generalizing stand with
  | nil => rfl
  | cons p ps ih =>
      rw [Correlated, List.map_cons, Follows]
      cases m.standing stand (patternBoundVars p) σ p with
      | some f => simp only [ih]
      | none => simp only [ih]

/-! ## One fact for each pattern -/

/-- What the facts given for some patterns leave behind. -/
def standAt (given : Nat → Fact) (stand : Stand) (before : List Tagged) : Stand :=
  before.foldl (fun stand t => Stand.after stand t.1 (given t.2)) stand

/-- A pattern is satisfied by the fact its entity stands on, or else by the fact given for it. -/
def Owes (m : PatternMatcher) (outs : List Var) (σ : Bindings) (given : Nat → Fact) (stand : Stand) (item : Item) :
    Prop :=
  match m.standing stand item.2 σ item.1.1 with
  | some f => m.ReadsOff σ item.1.1 f
  | none => given item.1.2 ∈ m.facts ∧ m.Fits outs σ item.1.1 (given item.1.2)

def Owed (m : PatternMatcher) (outs : List Var) (σ : Bindings) (given : Nat → Fact) : Stand → List Item → Prop
  | _, [] => True
  | stand, item :: items =>
      m.Owes outs σ given stand item ∧ Owed m outs σ given (Stand.after stand item.1.1 (given item.1.2)) items

theorem owes_congr {given given' : Nat → Fact} {stand : Stand} {item : Item}
    (same : given item.1.2 = given' item.1.2) :
    m.Owes outs σ given stand item ↔ m.Owes outs σ given' stand item := by
  unfold Owes
  rw [same]

theorem owed_congr {given given' : Nat → Fact} {stand : Stand} {items : List Item}
    (same : ∀ item ∈ items, given item.1.2 = given' item.1.2) :
    m.Owed outs σ given stand items ↔ m.Owed outs σ given' stand items := by
  induction items generalizing stand with
  | nil => rfl
  | cons item items ih =>
      have here := same item List.mem_cons_self
      rw [Owed, Owed, owes_congr here, here, ih fun i mem => same i (List.mem_cons_of_mem _ mem)]

theorem after_of_standing {stand : Stand} {bound : List Var} {p : Pattern} {f : Fact}
    (found : m.standing stand bound σ p = some f) (g : Fact) : Stand.after stand p g = stand := by
  obtain ⟨q, pseudo, -⟩ := standing_some found
  rw [Stand.after, pseudo]

/-- To follow the patterns is to have one fact for each place. -/
theorem follows_iff {stand : Stand} {items : List Item} (nodup : ((items.map Prod.fst).map Prod.snd).Nodup) :
    m.Follows outs σ stand (items.map fun i => (i.1.1, i.2)) ↔ ∃ given, m.Owed outs σ given stand items := by
  induction items generalizing stand with
  | nil => exact ⟨fun _ => ⟨fun _ => ⟨0, "", .null, 0, 0, 0, 0, true⟩, trivial⟩, fun _ => trivial⟩
  | cons item items ih =>
      obtain ⟨⟨p, k⟩, bound⟩ := item
      obtain ⟨fresh, nodup⟩ := List.nodup_cons.1 nodup
      have apart : ∀ i ∈ items, i.1.2 ≠ k := fun i mem same => fresh (List.mem_map.2 ⟨i.1, List.mem_map_of_mem mem, same⟩)
      rw [List.map_cons, Follows]
      simp only [Owed, Owes]
      cases found : m.standing stand bound σ p with
      | some f =>
          simp only [ih nodup, after_of_standing found]
          exact ⟨fun ⟨reads, given, owed⟩ => ⟨given, reads, owed⟩, fun ⟨given, reads, owed⟩ => ⟨reads, given, owed⟩⟩
      | none =>
          simp only [ih nodup]
          constructor
          · rintro ⟨f, mem, fits, given, owed⟩
            refine ⟨Function.update given k f, ?_⟩
            simp only [Function.update_self]
            refine ⟨⟨mem, fits⟩, (owed_congr fun i hi => ?_).1 owed⟩
            exact (Function.update_of_ne (apart i hi) _ _).symm
          · exact fun ⟨given, ⟨mem, fits⟩, owed⟩ => ⟨given k, mem, fits, given, owed⟩

theorem owed_iff {given : Nat → Fact} {stand : Stand} {items : List Item} :
    m.Owed outs σ given stand items ↔ ∀ front item back, items = front ++ item :: back →
      m.Owes outs σ given (standAt given stand (front.map Prod.fst)) item := by
  induction items generalizing stand with
  | nil => exact ⟨fun _ front item back no => absurd no.symm (by simp), fun _ => trivial⟩
  | cons first items ih =>
      rw [Owed, ih]
      constructor
      · rintro ⟨here, rest⟩ front item back split
        cases front with
        | nil =>
            cases (List.cons.inj split).1
            exact here
        | cons _ front =>
            obtain ⟨rfl, tail⟩ := List.cons.inj split
            exact rest front item back tail
      · intro all
        refine ⟨all [] first items rfl, fun front item back split => ?_⟩
        exact all (first :: front) item back (congrArg (first :: ·) split)

theorem beforeTag_split {front back : List Tagged} {t : Tagged} (nodup : ((front ++ t :: back).map Prod.snd).Nodup) :
    beforeTag t.2 (front ++ t :: back) = front := by
  have apart : ∀ s ∈ front, (s.2 != t.2) = true := by
    intro s mem
    rw [List.map_append, List.map_cons] at nodup
    have other := (List.nodup_append.1 nodup).2.2 s.2 (List.mem_map_of_mem mem) t.2 List.mem_cons_self
    exact bne_iff_ne.2 other
  rw [beforeTag, List.takeWhile_append_of_pos apart, List.takeWhile_cons_of_neg (by simp), List.append_nil]

/-- Each item by itself, behind the patterns before it. -/
theorem owed_forall {given : Nat → Fact} {stand : Stand} {items : List Item}
    (nodup : ((items.map Prod.fst).map Prod.snd).Nodup) :
    m.Owed outs σ given stand items ↔
      ∀ item ∈ items, m.Owes outs σ given (standAt given stand (beforeTag item.1.2 (items.map Prod.fst))) item := by
  have front_eq : ∀ front item back, items = front ++ item :: back →
      beforeTag item.1.2 (items.map Prod.fst) = front.map Prod.fst := by
    rintro front item back rfl
    rw [List.map_append, List.map_cons] at nodup ⊢
    exact beforeTag_split nodup
  rw [owed_iff]
  constructor
  · intro all item mem
    obtain ⟨front, back, split⟩ := List.append_of_mem mem
    rw [front_eq front item back split]
    exact all front item back split
  · intro all front item back split
    rw [← front_eq front item back split]
    exact all item (by rw [split]; exact List.mem_append_right _ List.mem_cons_self)

/-! ## The fact an entity stands on -/

/-- The fact is that of the last real pattern on the entity. -/
theorem standAt_lastOn {given : Nat → Fact} {place : Nat → Option EntityId} {before : List Tagged}
    (real : ∀ t ∈ before, t.1.isReal = true → place t.2 = some (given t.2).entity) (stand : Stand) (id : EntityId) :
    standAt given stand before id = ((lastOn place id before).map given).or (stand id) := by
  induction before generalizing stand with
  | nil => rfl
  | cons t before ih =>
      rw [show standAt given stand (t :: before) = standAt given (Stand.after stand t.1 (given t.2)) before from rfl,
        ih fun s mem => real s (List.mem_cons_of_mem _ mem), lastOn, lastOn, List.reverse_cons, List.find?_append]
      cases before.reverse.find? fun t => t.1.isReal && decide (place t.2 = some id) with
      | some s => rfl
      | none =>
          cases attr : t.1.attr with
          | pseudo q =>
              have notReal : t.1.isReal = false := by rw [Pattern.isReal, attr]
              simp [Stand.after, attr, notReal]
          | real edn =>
              have isReal : t.1.isReal = true := by rw [Pattern.isReal, attr]
              have here := real t List.mem_cons_self isReal
              by_cases same : id = (given t.2).entity
              · simp [Stand.after, attr, isReal, here, same]
              · have other : ¬ (given t.2).entity = id := fun no => same no.symm
                simp [Stand.after, attr, here, same, other]

/-! ## The entities of an assignment -/

theorem fits_constant {p : Pattern} {f : Fact} (fits : m.Fits outs σ p f) {id : EntityId}
    (constant : ednToEntityId m.env p.entity = some id) : f.entity = id := by
  obtain ⟨cand, matched, -⟩ := fits
  rw [matchFactAgainstPattern_eq] at matched
  obtain ⟨b, whole, -⟩ := Option.map_eq_some_iff.1 matched
  obtain ⟨b₁, first, -⟩ := Option.bind_eq_some_iff.1 whole
  have stands : m.constantMatches p.entity (.ref f.entity) = true := by
    cases entity : p.entity with
    | keyword k =>
        by_contra no
        simp [matchComponent, entity, no] at first
    | uuid u =>
        by_contra no
        simp [matchComponent, entity, no] at first
    | var _ | underscore | symbol _ | string _ | integer _ | float _ | boolean _ | vector _ | list _ | map _ | nil | bindSlot _ =>
        rw [entity] at constant
        cases constant
  cases entity : p.entity with
  | keyword k =>
      rw [entity] at constant stands
      cases constant
      exact (of_decide_eq_true stands).symm
  | uuid u =>
      rw [entity] at constant stands
      cases constant
      exact (of_decide_eq_true stands).symm
  | var _ | underscore | symbol _ | string _ | integer _ | float _ | boolean _ | vector _ | list _ | map _ | nil | bindSlot _ =>
      rw [entity] at constant
      cases constant

theorem fits_named {p : Pattern} {f : Fact} (fits : m.Fits outs σ p f) {n : String}
    (named : p.entity = .var (.named n)) : m.resolvedEntity σ (.var (.named n)) = some f.entity := by
  obtain ⟨cand, matched, values⟩ := fits
  rw [matchFactAgainstPattern_eq] at matched
  obtain ⟨b, whole, rfl⟩ := Option.map_eq_some_iff.1 matched
  obtain ⟨b₁, first, rest⟩ := Option.bind_eq_some_iff.1 whole
  have bound : b₁.lookup (.var (.named n)) = some (.ref f.entity) := by
    rw [named] at first
    cases first
    simp
  have kept := m.matchComponents_keeps rest bound
  have left : (leftBehind f p).lookup (.var (.named n)) = none := by
    unfold leftBehind
    cases p.attr with
    | real _ => rfl
    | pseudo _ => rfl
  obtain ⟨x, shown, same⟩ := values (.named n) (.ref f.entity) (by rw [List.lookup_append, left, kept]; rfl)
  rw [resolvedEntity_bound shown]
  rcases same with rfl | ⟨-, meets⟩
  · rfl
  · exact entityOf_eq meets

theorem isReal_standing {p : Pattern} (real : p.isReal = true) (stand : Stand) (bound : List Var) :
    m.standing stand bound σ p = none := by
  cases found : m.standing stand bound σ p with
  | none => rfl
  | some f =>
      obtain ⟨q, pseudo, -⟩ := standing_some found
      rw [Pattern.isReal, pseudo] at real
      cases real

/-- The entity each pattern of the text is on. -/
def placeOf (m : PatternMatcher) (given : Nat → Fact) (σ : Bindings) (ps : List Pattern) (k : Nat) : Option EntityId :=
  ps[k]?.bind fun p => if p.isReal then some (given k).entity else m.resolvedEntity σ p.entity

theorem placeOf_eq {given : Nat → Fact} {ps : List Pattern} {t : Tagged} (mem : t ∈ ps.zipIdx) :
    m.placeOf given σ ps t.2 =
      if t.1.isReal then some (given t.2).entity else m.resolvedEntity σ t.1.entity := by
  have found : ps[t.2]? = some t.1 := List.mem_zipIdx_iff_getElem?.1 mem
  rw [placeOf, found]
  rfl

theorem resolvedEntity_constant {component : EdnValue} {id : EntityId}
    (constant : ednToEntityId m.env component = some id) : m.resolvedEntity σ component = some id := by
  cases component with
  | keyword _ | uuid _ => exact constant
  | var _ | underscore | symbol _ | string _ | integer _ | float _ | boolean _ | vector _ | list _ | map _ | nil | bindSlot _ =>
      cases constant

theorem placeOf_places {given : Nat → Fact} {ps : List Pattern}
    (fits : ∀ t ∈ ps.zipIdx, t.1.isReal = true → m.Fits outs σ t.1 (given t.2)) :
    Places m.env ps.zipIdx (m.placeOf given σ ps) where
  constant t mem id constant := by
    rw [placeOf_eq mem]
    split
    · exact congrArg some (fits_constant (fits t mem ‹_›) constant)
    · exact resolvedEntity_constant constant
  shared s hs t ht n left right := by
    have entity : ∀ r ∈ ps.zipIdx, r.1.entity = .var (.named n) →
        m.placeOf given σ ps r.2 = m.resolvedEntity σ (.var (.named n)) := by
      intro r hr named
      rw [placeOf_eq hr]
      split
      · exact (fits_named (fits r hr ‹_›) named).symm
      · rw [named]
    rw [entity s hs left, entity t ht right]

/-! ## The order of the plan and the order of the text -/

theorem Build.map_sortBy {α β : Type} (build : Build) {le : α → α → Bool} {le' : β → β → Bool} {f : α → β}
    (same : ∀ a b, le a b = le' (f a) (f b)) (xs : List α) :
    (build.sortBy le xs).map f = build.sortBy le' (xs.map f) := by
  cases build with
  | native => exact List.map_mergeSort fun a _ b _ => same a b
  | wasm => rfl

theorem sortedTagged_fst (build : Build) (clauses : List WhereClause) :
    (sortedTagged build clauses).map Prod.fst = sortedPatterns build clauses := by
  have map := @Build.map_sortBy Tagged Pattern build
    (fun s t => decide (selectivityScore t.1 ≤ selectivityScore s.1))
    (fun p q => decide (selectivityScore q ≤ selectivityScore p)) Prod.fst (fun _ _ => rfl) (taggedPatterns clauses)
  rw [taggedPatterns, List.zipIdx_map_fst] at map
  exact map

theorem sortedTagged_perm (build : Build) (clauses : List WhereClause) :
    (sortedTagged build clauses).Perm (taggedPatterns clauses) :=
  build.sortBy_perm _ _

theorem taggedPatterns_nodup (clauses : List WhereClause) : ((taggedPatterns clauses).map Prod.snd).Nodup := by
  rw [taggedPatterns, List.zipIdx_map_snd]
  exact List.nodup_range'

theorem mem_beforeTag {k : Nat} {tagged : List Tagged} {t : Tagged} (mem : t ∈ beforeTag k tagged) : t ∈ tagged :=
  (List.takeWhile_sublist _).subset mem

variable {build : Build} {clauses : List WhereClause}

/-- A per-fact pseudo-attribute is about the same fact in the plan and in the text. -/
theorem standing_alike (alike : StandsAlike m.env build clauses) {given : Nat → Fact}
    (fits : ∀ t ∈ taggedPatterns clauses, t.1.isReal = true → m.Fits outs σ t.1 (given t.2))
    (anon : ∀ t ∈ taggedPatterns clauses, ∀ n, t.1.Mentions (.anon n) → σ.lookup (.var (.anon n)) = none)
    {t : Tagged} (mem : t ∈ taggedPatterns clauses) {known : List Var}
    (bound : ∀ s ∈ beforeTag t.2 (sortedTagged build clauses), ∀ n, s.1.Mentions (.named n) → .named n ∈ known) :
    m.standing (standAt given (fun _ => none) (beforeTag t.2 (sortedTagged build clauses))) known σ t.1 =
      m.standing (standAt given (fun _ => none) (beforeTag t.2 (taggedPatterns clauses))) (patternBoundVars t.1) σ
        t.1 := by
  by_cases perFact : PerFact t.1
  case neg => rw [standing_of_not_perFact perFact, standing_of_not_perFact perFact]
  obtain ⟨q, pseudo, notAt⟩ := perFact
  have perFact : PerFact t.1 := ⟨q, pseudo, notAt⟩
  have notReal : t.1.isReal = false := by rw [Pattern.isReal, pseudo]
  have places : Places m.env (taggedPatterns clauses) (m.placeOf given σ (bodyPatterns clauses)) :=
    placeOf_places fits
  have real : ∀ s ∈ taggedPatterns clauses, s.1.isReal = true →
      m.placeOf given σ (bodyPatterns clauses) s.2 = some (given s.2).entity := by
    intro s hs isReal
    rw [placeOf_eq hs, if_pos isReal]
  have sorted := fun s (hs : s ∈ beforeTag t.2 (sortedTagged build clauses)) =>
    real s ((sortedTagged_perm build clauses).mem_iff.1 (mem_beforeTag hs))
  have text := fun s (hs : s ∈ beforeTag t.2 (taggedPatterns clauses)) => real s (mem_beforeTag hs)
  -- on an entity that is known on both sides the closest patterns are the same
  have closest : t.1.entity.isAnchor = true → ∀ id, m.resolvedEntity σ t.1.entity = some id →
      standAt given (fun _ => none) (beforeTag t.2 (sortedTagged build clauses)) id =
        standAt given (fun _ => none) (beforeTag t.2 (taggedPatterns clauses)) id := by
    intro anchor id resolved
    have here : m.placeOf given σ (bodyPatterns clauses) t.2 = some id := by
      rw [placeOf_eq mem, notReal]
      exact resolved
    rw [standAt_lastOn sorted, standAt_lastOn text, alike.closest t mem perFact anchor _ places id here]
  have unfolded : ∀ stand bound, m.standing stand bound σ t.1 = (m.knownEntity bound σ t.1.entity).bind stand := by
    intro stand bound
    rw [standing, pseudo]
    cases q with
    | validAt => exact absurd rfl notAt
    | validFrom | validTo | txCount | txId => rfl
  rw [unfolded, unfolded]
  have both : t.1.entity.isAnchor = true → (m.resolvedEntity σ t.1.entity).bind
      (standAt given (fun _ => none) (beforeTag t.2 (sortedTagged build clauses))) =
      (m.resolvedEntity σ t.1.entity).bind
        (standAt given (fun _ => none) (beforeTag t.2 (taggedPatterns clauses))) := by
    intro anchor
    cases resolved : m.resolvedEntity σ t.1.entity with
    | none => rfl
    | some id => exact closest anchor id resolved
  cases entity : t.1.entity with
  | keyword _ | uuid _ =>
      rw [entity] at both
      exact both rfl
  | underscore | symbol _ | string _ | integer _ | float _ | boolean _ | vector _ | list _ | map _ | nil | bindSlot _ => rfl
  | var v =>
      have mentions : v ∈ patternBoundVars t.1 := by
        simp [patternBoundVars, entity, EdnValue.asVariable]
      rw [entity] at both
      simp only [knownEntity, if_pos mentions]
      cases v with
      | anon n =>
          have free := anon t mem n (mem_patternBoundVars.1 mentions)
          have none_ : m.resolvedEntity σ (.var (.anon n)) = none := by
            simp only [resolvedEntity, applyBindingToComponent, substituteWith, free]
          simp [none_]
      | named n =>
          by_cases early : .named n ∈ known
          · rw [if_pos early]
            exact both rfl
          · rw [if_neg early]
            rcases alike.known t mem perFact n entity with ⟨s, hs, mentioned⟩ | none_
            · exact absurd (bound s hs n mentioned) early
            · cases m.resolvedEntity σ (.var (.named n)) with
              | none => rfl
              | some id =>
                  have nowhere : lastOn (m.placeOf given σ (bodyPatterns clauses)) id
                      (beforeTag t.2 (taggedPatterns clauses)) = none := by
                    rw [lastOn, Option.map_eq_none_iff, List.find?_eq_none]
                    intro s hs
                    simp [none_ s (List.mem_reverse.1 hs)]
                  exact (standAt_lastOn text (fun _ => none) id |>.trans (by rw [nowhere]; rfl)).symm

theorem exists_items {tagged : List Tagged} {bounds : List (Pattern × List Var)}
    (same : tagged.map Prod.fst = bounds.map Prod.fst) :
    ∃ items : List Item, items.map Prod.fst = tagged ∧ (items.map fun i => (i.1.1, i.2)) = bounds := by
  induction tagged generalizing bounds with
  | nil =>
      cases bounds with
      | nil => exact ⟨[], rfl, rfl⟩
      | cons _ _ => cases same
  | cons t tagged ih =>
      cases bounds with
      | nil => cases same
      | cons b bounds =>
          obtain ⟨here, rest⟩ := List.cons.inj same
          obtain ⟨items, rfl, rfl⟩ := ih rest
          exact ⟨(t, b.2) :: items, rfl, by rw [List.map_cons, here]⟩

theorem fits_of_owes {given : Nat → Fact} {items : List Item} {stand : Item → Stand}
    (all : ∀ item ∈ items, m.Owes outs σ given (stand item) item) {t : Tagged} (mem : t ∈ items.map Prod.fst)
    (real : t.1.isReal = true) : m.Fits outs σ t.1 (given t.2) := by
  obtain ⟨item, hi, rfl⟩ := List.mem_map.1 mem
  have here := all item hi
  rw [Owes, isReal_standing real] at here
  exact here.2

/-- The plan follows its patterns exactly where those of the text correlate. -/
theorem follows_alike (alike : StandsAlike m.env build clauses) {planned : List WhereClause}
    (patterns : bodyPatterns planned = sortedPatterns build clauses)
    (anon : ∀ t ∈ taggedPatterns clauses, ∀ n, t.1.Mentions (.anon n) → σ.lookup (.var (.anon n)) = none) :
    m.Follows outs σ (fun _ => none) (patternBounds [] planned) ↔
      m.Correlated outs (fun _ => none) (bodyPatterns clauses) σ := by
  obtain ⟨items, tags, bounds⟩ := @exists_items (sortedTagged build clauses) (patternBounds [] planned)
    (by rw [sortedTagged_fst, patternBounds_fst, patterns])
  obtain ⟨texts, tags', bounds'⟩ := @exists_items (taggedPatterns clauses)
    ((bodyPatterns clauses).map fun p => (p, patternBoundVars p))
    (by rw [taggedPatterns, List.zipIdx_map_fst, List.map_map]; exact (List.map_id _).symm)
  have perm := sortedTagged_perm build clauses
  have nodup' : ((texts.map Prod.fst).map Prod.snd).Nodup := by
    rw [tags']
    exact taggedPatterns_nodup clauses
  have nodup : ((items.map Prod.fst).map Prod.snd).Nodup := by
    rw [tags]
    exact (perm.map Prod.snd).nodup_iff.2 (taggedPatterns_nodup clauses)
  have bound : ∀ item ∈ items, ∀ s ∈ beforeTag item.1.2 (sortedTagged build clauses), ∀ n,
      s.1.Mentions (.named n) → .named n ∈ item.2 := by
    intro item mem s hs n mentions
    obtain ⟨front, back, rfl⟩ := List.append_of_mem mem
    rw [← tags, List.map_append, List.map_cons, beforeTag_split (by simpa using nodup)] at hs
    obtain ⟨i, hi, rfl⟩ := List.mem_map.1 hs
    rw [List.map_append, List.map_cons] at bounds
    exact (patternBounds_bound bounds.symm).2 _ (List.mem_map_of_mem hi) (mem_binds_pattern.2 ⟨n, rfl, mentions⟩)
  have text : ∀ item ∈ texts, item.2 = patternBoundVars item.1.1 := by
    intro item mem
    have pair : (item.1.1, item.2) ∈ (bodyPatterns clauses).map fun p => (p, patternBoundVars p) := by
      rw [← bounds']
      exact List.mem_map_of_mem mem
    obtain ⟨p, -, same⟩ := List.mem_map.1 pair
    obtain ⟨rfl, vars⟩ := Prod.mk.inj same
    exact vars.symm
  -- one side's item and the other's for the same place owe the same
  have step : ∀ given, (∀ t ∈ taggedPatterns clauses, t.1.isReal = true → m.Fits outs σ t.1 (given t.2)) →
      ∀ item ∈ items, ∀ item' ∈ texts, item.1 = item'.1 →
        (m.Owes outs σ given (standAt given (fun _ => none) (beforeTag item.1.2 (items.map Prod.fst))) item ↔
          m.Owes outs σ given (standAt given (fun _ => none) (beforeTag item'.1.2 (texts.map Prod.fst))) item') := by
    intro given fits item mem item' mem' same
    have here : item'.1 ∈ taggedPatterns clauses := by
      rw [← tags']
      exact List.mem_map_of_mem mem'
    have standing := standing_alike alike fits anon here fun s hs => bound item mem s (by rw [same]; exact hs)
    rw [← text item' mem'] at standing
    rw [tags, tags', Owes, Owes, same, standing]
  rw [correlated_iff, ← bounds, ← bounds', follows_iff nodup, follows_iff nodup']
  refine exists_congr fun given => ?_
  rw [owed_forall nodup, owed_forall nodup']
  constructor
  · intro all item' mem'
    have fits := fun t (ht : t ∈ taggedPatterns clauses) real =>
      fits_of_owes all (t := t) (by rw [tags]; exact perm.mem_iff.2 ht) real
    obtain ⟨item, mem, same⟩ : ∃ item ∈ items, item.1 = item'.1 := List.mem_map.1 (by
      rw [tags]
      exact perm.mem_iff.2 (by rw [← tags']; exact List.mem_map_of_mem mem'))
    exact (step given fits item mem item' mem' same).1 (all item mem)
  · intro all item mem
    have fits := fun t (ht : t ∈ taggedPatterns clauses) real =>
      fits_of_owes all (t := t) (by rw [tags']; exact ht) real
    obtain ⟨item', mem', same⟩ : ∃ item' ∈ texts, item'.1 = item.1 := List.mem_map.1 (by
      rw [tags']
      exact perm.mem_iff.1 (by rw [← tags]; exact List.mem_map_of_mem mem))
    exact (step given fits item mem item' mem' same.symm).2 (all item' mem')

theorem correlated_mono {outs outs' : List Var} (sub : outs ⊆ outs') {stand : Stand} {ps : List Pattern}
    (h : m.Correlated outs stand ps σ) : m.Correlated outs' stand ps σ := by
  induction ps generalizing stand with
  | nil => trivial
  | cons p ps ih =>
      rw [Correlated] at h ⊢
      cases found : m.standing stand (patternBoundVars p) σ p with
      | some f =>
          simp only [found] at h ⊢
          exact ⟨h.1, ih h.2⟩
      | none =>
          simp only [found] at h ⊢
          obtain ⟨f, mem, fits, rest⟩ := h
          exact ⟨f, mem, fits_mono sub fits, ih rest⟩

/-- No assignment of a plan has a value for a wildcard of a pattern. -/
theorem anon_unbound (wild : WildcardsApart clauses)
    (dom : ∀ v, (∃ x, σ.lookup (.var v) = some x) → v ∈ (clausesOf (plan build clauses).1).flatMap WhereClause.binds)
    (t : Tagged) (mem : t ∈ taggedPatterns clauses) (n : String) (mentions : t.1.Mentions (.anon n)) :
    σ.lookup (.var (.anon n)) = none := by
  cases found : σ.lookup (.var (.anon n)) with
  | none => rfl
  | some x =>
      obtain ⟨c, hc, binds⟩ := List.mem_flatMap.1 (dom _ ⟨x, found⟩)
      have out : .anon n ∈ outputs clauses := List.mem_flatMap.2 ⟨c, mem_of_planned hc, anon_of_binds binds⟩
      have stands : t.1 ∈ bodyPatterns clauses := List.fst_mem_of_mem_zipIdx mem
      exact absurd mentions ((wild.bound n out).1 t.1 ((@mem_sortedPatterns .wasm clauses t.1).1 stands))

theorem planSolution_correlates (first : OutputsFirst build clauses) (wild : WildcardsApart clauses)
    (alike : StandsAlike m.env build clauses) :
    m.PlanSolution build clauses σ ↔ m.PlanCorrelates build clauses σ := by
  rw [PlanSolution, PlanCorrelates]
  refine and_congr_right fun dom => ?_
  rw [solves_patterns, follows_alike alike (plan_placed first wild).2 (anon_unbound wild fun v => (dom v).1)]

/-- Where the plan keeps the closest real pattern of each per-fact pseudo-attribute, the
metadata is that of the closest real pattern of the text; without disjunctions the answer
is the same in every build that does. -/
theorem pseudo_correlates (m : PatternMatcher) (build : Build) {clauses : List WhereClause}
    (accepted : Accepted clauses) (first : OutputsFirst build clauses) (wild : WildcardsApart clauses)
    (apart : NamesApart m.env m.KeywordOf) (one : m.OneForm (bodyPatterns clauses))
    (alike : StandsAlike m.env build clauses) :
    (∀ σ, (∃ b ∈ m.planRows build clauses, Shows b σ) ↔ m.PlanCorrelates build clauses σ) ∧
      ((∀ clause ∈ clauses, clause.isPlanned = true) → ∀ rows, m.queryRows build clauses = .ok rows →
        ∀ σ, (∃ b ∈ rows, Shows b σ) ↔ m.Correlates clauses σ) := by
  have plan_ : ∀ σ, (∃ b ∈ m.planRows build clauses, Shows b σ) ↔ m.PlanCorrelates build clauses σ := by
    intro σ
    rw [planRows_solves apart accepted.call first wild one, planSolution_correlates first wild alike]
  refine ⟨plan_, fun planned rows run σ => ?_⟩
  rw [queryRows_planned planned accepted.safe run, plan_, PlanCorrelates, Correlates]
  simp only [binds_planned planned accepted.safe, and_assoc]
  have sub : outputs (clausesOf (plan build clauses).1) ⊆ outputs clauses := outputs_mono fun _ => mem_of_planned
  have sup : outputs clauses ⊆ outputs (clausesOf (plan build clauses).1) := outputs_planned planned accepted.safe
  refine and_congr_right fun _ => and_congr ⟨correlated_mono sub, correlated_mono sup⟩ ?_
  constructor
  · rintro ⟨holds, keeps⟩ c hc notPattern
    rcases (planned_iff planned).1 hc with placed | off
    · exact holds_mono sub (holds c placed notPattern)
    · exact (holds_negation (deferred_isNegation planned accepted.safe off)).2 (keeps c off)
  · intro holds
    refine ⟨fun c placed notPattern => ?_, fun c off => ?_⟩
    · exact holds_mono sup (holds c ((planned_iff planned).2 (.inl placed)) notPattern)
    · have negation := deferred_isNegation planned accepted.safe off
      refine (holds_negation negation).1 (holds c ((planned_iff planned).2 (.inr off)) ?_)
      rintro p rfl
      cases negation

/-! ## Queries of patterns -/

/-- Values that are neither floats nor keywords meet only themselves. -/
theorem oneForm_of_plain {ps : List Pattern}
    (plain : ∀ v x, m.Offered ps v x → (∀ f, x ≠ .float f) ∧ ∀ k, x ≠ .keyword k) : m.OneForm ps := by
  intro v x y left right
  have normal : ∀ z, (∀ k, z ≠ .keyword k) → normalizeValue m.env z = z := by
    intro z notKeyword
    cases z with
    | keyword k => exact absurd rfl (notKeyword k)
    | string _ | integer _ | float _ | boolean _ | ref _ | null => rfl
  rw [Meets, normal x (plain v x left).2, normal y (plain v y right).2, Value.eq_iff]
  constructor
  · rintro (⟨f, g, rfl, -, -⟩ | ⟨same, -⟩)
    · exact absurd rfl ((plain v _ left).1 f)
    · exact same
  · exact fun same => .inr ⟨same, (plain v x left).1⟩

section Patterns

variable (patterns : ∀ clause ∈ clauses, ∃ p, clause = .pattern p)

include patterns

theorem noExpr_patterns (e : Expr) (binding : Option Var) : .expr e binding ∉ clauses := by
  intro mem
  obtain ⟨p, no⟩ := patterns _ mem
  cases no

theorem outputs_patterns : outputs clauses = [] :=
  List.flatMap_eq_nil_iff.2 fun c mem => by
    obtain ⟨p, rfl⟩ := patterns c mem
    rfl

theorem accepted_patterns (safe : checkSafety clauses = .ok ()) : Accepted clauses :=
  ⟨fun e binding mem => absurd mem (noExpr_patterns patterns e binding), safe⟩

theorem outputsFirst_patterns (build : Build) : OutputsFirst build clauses where
  first e y mem := absurd mem (noExpr_patterns patterns e _)
  once := by
    rw [outputs_patterns patterns]
    exact List.nodup_nil

theorem wildcardsApart_patterns : WildcardsApart clauses where
  bound n out := by
    rw [outputs_patterns patterns] at out
    cases out
  read n e binding mem := absurd mem (noExpr_patterns patterns e binding)

end Patterns

theorem plan_patterns (build : Build) {clauses : List WhereClause}
    (noExprs : clauses.filter WhereClause.isExpr = []) (noNots : clauses.filter WhereClause.isNegation = []) :
    plan build clauses = ((Plan.ofPatterns (sortedPatterns build clauses)).result, []) := by
  have nots : sortedNots build clauses = [] := by
    rw [sortedNots, noNots]
    cases build with
    | native => exact List.mergeSort_nil
    | wasm => rfl
  rw [plan, noExprs, nots]
  rfl

/-- A query of patterns runs them in their order. -/
theorem queryRows_patterns (m : PatternMatcher) (build : Build) {clauses : List WhereClause}
    (patterns : ∀ clause ∈ clauses, ∃ p, clause = .pattern p) :
    m.queryRows build clauses = .ok (m.runClauses [[]] ((sortedPatterns build clauses).map .pattern)) := by
  have noExprs : clauses.filter WhereClause.isExpr = [] := List.filter_eq_nil_iff.2 fun c mem => by
    obtain ⟨p, rfl⟩ := patterns c mem
    exact Bool.false_ne_true
  have noNots : clauses.filter WhereClause.isNegation = [] := List.filter_eq_nil_iff.2 fun c mem => by
    obtain ⟨p, rfl⟩ := patterns c mem
    exact Bool.false_ne_true
  have known : clauses.findSome? (unknownPredicate m.env) = none := List.findSome?_eq_none_iff.2 fun c mem => by
    obtain ⟨p, rfl⟩ := patterns c mem
    rfl
  have planned : ∀ clause ∈ clauses, clause.isPlanned = true := fun c mem => by
    obtain ⟨p, rfl⟩ := patterns c mem
    rfl
  have placed := plan_patterns build noExprs noNots
  rw [queryRows_planRows known planned (by rw [placed]), planRows, placed, Plan.ofPatterns, List.map_map]
  rfl

/-! ## A selective pattern between a fact and its metadata -/

/-- A matcher over `:a 1` from 20 on and `:b 5` from 10 on, both of entity 0. -/
def overTimes : PatternMatcher where
  env := ⟨fun _ => none, fun k => if k = ":a" then 1 else 2, fun _ _ => false, fun _ => none⟩
  facts := [⟨0, ":a", .integer 1, 0, 1, 20, VALID_TIME_FOREVER, true⟩,
    ⟨0, ":b", .integer 5, 0, 1, 10, VALID_TIME_FOREVER, true⟩]
  validAt := none

/-- `[?e :b 5]`. -/
def patternFive : Pattern := ⟨.var (.named "e"), .real (.keyword ":b"), .integer 5⟩

/-- `[?e :db/valid-from ?t]`. -/
def patternFrom : Pattern := ⟨.var (.named "e"), .pseudo .validFrom, .var (.named "t")⟩

/-- `[?e :b 5] [?e :db/valid-from ?t]`. -/
def fromBehind : List WhereClause := [.pattern patternFive, .pattern patternFrom]

theorem isPattern_fromBehind : ∀ clause ∈ fromBehind, ∃ p, clause = .pattern p := by
  simp [fromBehind]

theorem sortedTagged_fromBehind (build : Build) : sortedTagged build fromBehind = taggedPatterns fromBehind := by
  cases build with
  | native =>
      refine List.mergeSort_of_pairwise (List.pairwise_pair.2 ?_)
      decide
  | wasm => rfl

theorem standsAlike_fromBehind (env : Env) (build : Build) : StandsAlike env build fromBehind where
  closest t _ _ _ place _ id _ := by rw [sortedTagged_fromBehind]
  known t mem perFact n entity := by
    rw [sortedTagged_fromBehind]
    rcases List.mem_cons.1 mem with rfl | mem
    · obtain ⟨q, no, -⟩ := perFact
      cases no
    · cases List.mem_singleton.1 mem
      exact .inl ⟨(patternFive, 0), by decide, .inl entity⟩

theorem namesApart_overTimes : NamesApart overTimes.env overTimes.KeywordOf := by
  have only : ∀ k, overTimes.KeywordOf k → k = ":a" ∨ k = ":b" := by
    rintro k ⟨f, hf, attr | value⟩
    · rcases List.mem_cons.1 hf with rfl | hf
      · exact .inl attr.symm
      · cases List.mem_singleton.1 hf
        exact .inr attr.symm
    · rcases List.mem_cons.1 hf with rfl | hf
      · cases value
      · cases List.mem_singleton.1 hf
        cases value
  intro k l hk hl same
  rcases only k hk with rfl | rfl
  · rcases only l hl with rfl | rfl
    · rfl
    · exact absurd same (by decide)
  · rcases only l hl with rfl | rfl
    · exact absurd same (by decide)
    · rfl

theorem oneForm_fromBehind : overTimes.OneForm (bodyPatterns fromBehind) := by
  refine oneForm_of_plain fun v x offered => ?_
  obtain ⟨p, hp, f, hf, cand, matched, found⟩ := offered
  have mem := matchFact_value _ matched found
  rcases List.mem_cons.1 hp with rfl | hp
  · have here : v = .named "e" ∧ x = .ref f.entity := by simpa [components, patternFive] using mem
    rw [here.2]
    exact ⟨by simp, by simp⟩
  · cases List.mem_singleton.1 hp
    have here : v = .named "e" ∧ x = .ref f.entity ∨ v = .named "t" ∧ x = .integer f.validFrom := by
      simpa [components, patternFrom, PseudoAttr.ofFact] using mem
    rcases here with ⟨-, rfl⟩ | ⟨-, rfl⟩
    · exact ⟨by simp, by simp⟩
    · exact ⟨by simp, by simp⟩

/-- With nothing between the two, the row of `:b` has the valid time of `:b`. -/
theorem pseudo_correlates_behind :
    ∃ b ∈ overTimes.planRows .native fromBehind, overTimes.PlanCorrelates .native fromBehind b := by
  have some_ : overTimes.planRows .native fromBehind ≠ [] := by
    have sorted : sortedPatterns .native fromBehind = [patternFive, patternFrom] := by
      rw [← sortedTagged_fst, sortedTagged_fromBehind]
      rfl
    rw [planRows, plan_patterns .native (by decide) (by decide), sorted]
    decide
  obtain ⟨b, mem⟩ := List.exists_mem_of_ne_nil _ some_
  have correlates := pseudo_correlates overTimes .native (accepted_patterns isPattern_fromBehind (by decide))
    (outputsFirst_patterns isPattern_fromBehind .native) (wildcardsApart_patterns isPattern_fromBehind)
    namesApart_overTimes oneForm_fromBehind (standsAlike_fromBehind _ _)
  exact ⟨b, mem, (correlates.1 b).1 ⟨b, mem, fun _ => rfl⟩⟩

/-- `[?e :b 5] [?e :db/valid-from ?t] [?e :a ?x]`. -/
def fromBetween : List WhereClause := [.pattern patternFive, .pattern patternFrom, .pattern patternA]

theorem sortedPatterns_fromBetween : sortedPatterns .native fromBetween = [patternFive, patternA, patternFrom] := by
  simp [sortedPatterns, Build.sortBy, fromBetween, bodyPatterns, WhereClause.pattern?, List.mergeSort,
    List.MergeSort.Internal.splitInTwo, patternFive, patternFrom, patternA, selectivityScore, attrIsIndexBound,
    EdnValue.isVariable, EdnValue.asVariable]

theorem isPattern_fromBetween : ∀ clause ∈ fromBetween, ∃ p, clause = .pattern p := by
  simp [fromBetween]

/-- Entity 0 stands on the fact of `:b` when its valid time is read. -/
theorem not_correlates_fromBetween {b : Bindings} (e : b.lookup (.var (.named "e")) = some (.ref 0))
    (t : b.lookup (.var (.named "t")) = some (.integer 20)) : ¬ overTimes.Correlates fromBetween b := by
  rintro ⟨-, ⟨f, mem, ⟨cand, matched, -⟩, rest⟩, -⟩
  have entity : overTimes.resolvedEntity b (.var (.named "e")) = some 0 := by
    rw [resolvedEntity_bound e]
    rfl
  rcases List.mem_cons.1 mem with rfl | mem
  · cases matched
  · cases List.mem_singleton.1 mem
    change overTimes.Correlated _ _ [patternFrom, patternA] b at rest
    have known : overTimes.knownEntity (patternBoundVars patternFrom) b patternFrom.entity = some 0 := entity
    rw [Correlated, standing] at rest
    simp only [patternFrom] at rest known
    rw [known] at rest
    have reads := rest.1 .validFrom rfl
    have differ : (Value.integer 20).eq (.integer 10) = false := by decide
    simp [matchComponent, t, PseudoAttr.ofFact, differ] at reads

/-- The plan puts `[?e :a ?x]` before `[?e :db/valid-from ?t]`: the native build answers with
the 20 of `:a`, the build for wasm with the 10 of `:b`. -/
theorem pseudo_overtaken :
    Accepted fromBetween ∧
      (∃ rows, overTimes.queryRows .native fromBetween = .ok rows ∧
        ∃ b ∈ rows, ¬ overTimes.Correlates fromBetween b) ∧
      ∃ rows rows', overTimes.queryRows .native fromBetween = .ok rows ∧
        overTimes.queryRows .wasm fromBetween = .ok rows' ∧ ∃ b ∈ rows, ∀ c ∈ rows', ¬ Shows b c := by
  have native := queryRows_patterns overTimes .native isPattern_fromBetween
  have wasm := queryRows_patterns overTimes .wasm isPattern_fromBetween
  rw [sortedPatterns_fromBetween] at native
  have shown : ∃ b ∈ overTimes.runClauses [[]] ([patternFive, patternA, patternFrom].map .pattern),
      b.lookup (.var (.named "e")) = some (.ref 0) ∧ b.lookup (.var (.named "t")) = some (.integer 20) := by
    decide
  have other : ∀ c ∈ overTimes.runClauses [[]] ((sortedPatterns .wasm fromBetween).map .pattern),
      c.lookup (.var (.named "t")) = some (.integer 10) := by
    decide
  obtain ⟨b, mem, e, t⟩ := shown
  refine ⟨accepted_patterns isPattern_fromBetween (by decide), ⟨_, native, b, mem, not_correlates_fromBetween e t⟩, _, _, native, wasm, b, mem, ?_⟩
  intro c hc shows
  have same := shows (.named "t")
  rw [t, other c hc] at same
  exact absurd same (by decide)

end PatternMatcher
end Minigraf
