import Mathlib.Algebra.Order.BigOperators.Group.List
import Mathlib.Algebra.Order.Group.Nat
import Mathlib.Data.List.Forall2
import Minigraf.Query.Joining

/-!
The hash join of `join_with_pattern` beside the nested loop over
`match_pattern_with_bindings_scan`. The first matches a pattern on its own and compares
the match with a row, the second puts the row's values into the pattern and matches that.
They part where a row holds one spelling of an entity and a fact another: the scan
compares two keywords by their text, the match of a pattern on its own compares the two
places of one variable by their values, and it never binds a wildcard.
-/

namespace Minigraf

/-- A component that stands for a value of its own. -/
def EdnValue.Constant : EdnValue → Prop
  | .var _ | .underscore => False
  | _ => True

theorem valueToEdn_constant (s : Value) : (valueToEdn s).Constant := by
  cases s <;> exact trivial

theorem substituteWith_valueToEdn_var {b : Bindings} {c : EdnValue} {v : Var}
    (h : substituteWith valueToEdn b c = .var v) : c = .var v ∧ b.lookup (.var v) = none := by
  unfold substituteWith at h
  split at h
  case h_1 w =>
      split at h
      case h_1 s _ =>
          have constant := valueToEdn_constant s
          rw [h] at constant
          cases constant
      case h_2 unbound =>
          cases h
          exact ⟨rfl, unbound⟩
  case h_2 notVar => exact absurd h (notVar v)

namespace PatternMatcher

variable (m : PatternMatcher)

theorem matchComponent_constant {c : EdnValue} (constant : c.Constant) (x : Value) (b : Bindings) :
    m.matchComponent c x b = if m.constantMatches c x then some b else none := by
  cases c <;> first | exact absurd constant id | rfl

/-! ## When components match -/

/-- What the components ask for, beside bindings that are there already. -/
structure Compatible (cs : List (EdnValue × Value)) (b : Bindings) : Prop where
  constant : ∀ c x, (c, x) ∈ cs → c.Constant → m.constantMatches c x = true
  bound : ∀ n x y, (.var (.named n), x) ∈ cs → b.lookup (.var (.named n)) = some y → y.eq x = true
  repeated : cs.Pairwise fun c d => ∀ n, c.1 = .var (.named n) → d.1 = .var (.named n) →
    c.2.eq d.2 = true

variable {m}

theorem Compatible.tail {c : EdnValue × Value} {cs : List (EdnValue × Value)} {b : Bindings}
    (h : m.Compatible (c :: cs) b) : m.Compatible cs b where
  constant d x mem := h.constant d x (List.mem_cons_of_mem _ mem)
  bound n x y mem := h.bound n x y (List.mem_cons_of_mem _ mem)
  repeated := h.repeated.of_cons

/-- The bindings after a first component have what the others ask for. -/
theorem Compatible.step {c : EdnValue × Value} {cs : List (EdnValue × Value)} {b b' : Bindings}
    (h : m.Compatible (c :: cs) b) (first : m.matchComponent c.1 c.2 b = some b') : m.Compatible cs b' := by
  refine ⟨h.tail.constant, fun n x y mem held => ?_, h.tail.repeated⟩
  rcases m.matchComponent_cases first with ⟨n', here, ⟨_, _, _, rfl⟩ | ⟨_, rfl⟩⟩ | ⟨_, rfl⟩
  · exact h.tail.bound n x y mem held
  · by_cases same : n = n'
    · subst same
      simp only [List.lookup_cons, beq_self_eq_true, Option.some.injEq] at held
      subst held
      exact (List.pairwise_cons.mp h.repeated).1 _ mem n here rfl
    · have other : (Key.var (.named n) == .var (.named n')) = false :=
        beq_false_of_ne fun no => same (by cases no; rfl)
      simp only [List.lookup_cons, other] at held
      exact h.tail.bound n x y mem held
  · exact h.tail.bound n x y mem held

theorem Compatible.matches {cs : List (EdnValue × Value)} {b : Bindings} (h : m.Compatible cs b) :
    ∃ b', m.matchComponents cs b = some b' := by
  induction cs generalizing b with
  | nil => exact ⟨b, rfl⟩
  | cons c cs ih =>
      have first : ∃ b', m.matchComponent c.1 c.2 b = some b' := by
        obtain ⟨c, x⟩ := c
        by_cases constant : c.Constant
        · exact ⟨b, by rw [m.matchComponent_constant constant,
            if_pos (h.constant c x List.mem_cons_self constant)]⟩
        · cases c with
          | underscore => exact ⟨b, rfl⟩
          | var v =>
              cases v with
              | anon n => exact ⟨b, rfl⟩
              | named n =>
                  cases held : b.lookup (.var (.named n)) with
                  | none =>
                      exact ⟨(.var (.named n), x) :: b, by simp only [matchComponent, held]⟩
                  | some y =>
                      have same := h.bound n x y List.mem_cons_self held
                      exact ⟨b, by simp only [matchComponent, held, same, if_true]⟩
          | keyword _ | symbol _ | string _ | integer _ | float _ | boolean _ | uuid _ | vector _ | list _ | map _ | nil
          | bindSlot _ => exact absurd trivial constant
      obtain ⟨b₁, first⟩ := first
      obtain ⟨b', rest⟩ := ih (h.step first)
      exact ⟨b', by simp only [matchComponents, first, Option.bind_some, rest]⟩

theorem compatible_of_matches {cs : List (EdnValue × Value)} {b b' : Bindings}
    (h : m.matchComponents cs b = some b') : m.Compatible cs b := by
  induction cs generalizing b with
  | nil => exact ⟨fun _ _ no => absurd no List.not_mem_nil, fun _ _ _ no => absurd no List.not_mem_nil, .nil⟩
  | cons c cs ih =>
      obtain ⟨c, x⟩ := c
      obtain ⟨b₁, first, rest⟩ := Option.bind_eq_some_iff.1 h
      have later := ih rest
      refine ⟨?_, ?_, ?_⟩
      · intro d y mem constant
        obtain same | mem := List.mem_cons.1 mem
        · cases same
          rw [m.matchComponent_constant constant] at first
          split at first
          · assumption
          · cases first
        · exact later.constant d y mem constant
      · intro n y z mem held
        obtain same | mem := List.mem_cons.1 mem
        · cases same
          simp only [matchComponent, held] at first
          split at first
          · assumption
          · cases first
        · exact later.bound n y z mem (m.matchComponent_keeps first held)
      · refine List.pairwise_cons.2 ⟨fun d mem n here there => ?_, later.repeated⟩
        obtain ⟨d, y⟩ := d
        change c = _ at here
        change d = _ at there
        subst here there
        cases held : b.lookup (.var (.named n)) with
        | none =>
            simp only [matchComponent, held, Option.some.injEq] at first
            subst first
            exact later.bound n y x mem (by simp only [List.lookup_cons, beq_self_eq_true])
        | some z =>
            simp only [matchComponent, held] at first
            split at first
            case isTrue same =>
                cases first
                exact Value.eq_trans (Value.eq_comm same) (later.bound n y z mem held)
            case isFalse => cases first

theorem matchComponents_iff {cs : List (EdnValue × Value)} {b : Bindings} :
    (∃ b', m.matchComponents cs b = some b') ↔ m.Compatible cs b :=
  ⟨fun ⟨_, h⟩ => compatible_of_matches h, Compatible.matches⟩

/-- A match binds a variable to the value of its first place. -/
theorem matchComponents_lookup {cs : List (EdnValue × Value)} {b b' : Bindings}
    (h : m.matchComponents cs b = some b') (n : String) : b'.lookup (.var (.named n)) =
      (b.lookup (.var (.named n))).or (cs.lookup (.var (.named n))) := by
  induction cs generalizing b with
  | nil =>
      cases h
      rw [List.lookup_nil, Option.or_none]
  | cons c cs ih =>
      obtain ⟨c, x⟩ := c
      obtain ⟨b₁, first, rest⟩ := Option.bind_eq_some_iff.1 h
      rw [ih rest, List.lookup_cons]
      by_cases here : EdnValue.var (.named n) = c
      · subst here
        rw [beq_self_eq_true]
        cases held : b.lookup (.var (.named n)) with
        | none =>
            simp only [matchComponent, held, Option.some.injEq] at first
            subst first
            simp only [List.lookup_cons, beq_self_eq_true, Option.some_or, Option.none_or]
        | some y => rw [m.matchComponent_keeps first held, Option.some_or, Option.some_or]
      · rw [beq_false_of_ne here]
        have old : b₁.lookup (.var (.named n)) = b.lookup (.var (.named n)) := by
          rcases m.matchComponent_cases first with ⟨n', hc, ⟨_, _, _, rfl⟩ | ⟨_, rfl⟩⟩ | ⟨_, rfl⟩
          · rfl
          · change c = _ at hc
            have other : (Key.var (.named n) == .var (.named n')) = false := by
              refine beq_false_of_ne fun no => here ?_
              cases no
              exact hc.symm
            simp only [List.lookup_cons, other]
          · rfl
        rw [old]

theorem matchComponents_anon {cs : List (EdnValue × Value)} {b b' : Bindings}
    (h : m.matchComponents cs b = some b') (n : String) :
    b'.lookup (.var (.anon n)) = b.lookup (.var (.anon n)) := by
  induction cs generalizing b with
  | nil =>
      cases h
      rfl
  | cons c cs ih =>
      obtain ⟨b₁, first, rest⟩ := Option.bind_eq_some_iff.1 h
      rw [ih rest]
      rcases m.matchComponent_cases first with ⟨n', -, ⟨_, _, _, rfl⟩ | ⟨-, rfl⟩⟩ | ⟨_, rfl⟩
      · rfl
      · rfl
      · rfl

/-- Each place of a variable holds what the match bound, but for the two zeros. -/
theorem matchComponents_place {cs : List (EdnValue × Value)} {b b' : Bindings}
    (h : m.matchComponents cs b = some b') {n : String} {x : Value} (mem : (.var (.named n), x) ∈ cs) :
    ∃ y, b'.lookup (.var (.named n)) = some y ∧ (y.eq x = true ∨ y = x) := by
  induction cs generalizing b with
  | nil => exact absurd mem List.not_mem_nil
  | cons c cs ih =>
      obtain ⟨b₁, first, rest⟩ := Option.bind_eq_some_iff.1 h
      obtain here | mem := List.mem_cons.1 mem
      · subst here
        cases held : b.lookup (.var (.named n)) with
        | none =>
            simp only [matchComponent, held, Option.some.injEq] at first
            subst first
            refine ⟨x, m.matchComponents_keeps rest ?_, .inr rfl⟩
            simp only [List.lookup_cons, beq_self_eq_true]
        | some y =>
            simp only [matchComponent, held] at first
            split at first
            case isTrue same =>
                cases first
                exact ⟨y, m.matchComponents_keeps rest held, .inl same⟩
            case isFalse => cases first
      · exact ih rest mem

/-! ## A fact and a row -/

variable (m)

/-- A fact fits a pattern on a row, wildcards aside, when an entity and a keyword that names
it are not told apart. -/
structure Suits (p : Pattern) (f : Fact) (b : Bindings) : Prop where
  constant : ∀ c x, (c, x) ∈ m.components f p → c.Constant → m.constantMatches c x = true
  bound : ∀ n x s, (.var (.named n), x) ∈ m.components f p → b.lookup (.var (.named n)) = some s →
    Meets m.env x s = true
  free : (m.components f p).Pairwise fun c d => ∀ n, c.1 = .var (.named n) → d.1 = .var (.named n) →
    b.lookup (.var (.named n)) = none → c.2.eq d.2 = true

/-- The places of a variable the row binds hold one value. -/
def Repeats (p : Pattern) (f : Fact) (b : Bindings) : Prop :=
  (m.components f p).Pairwise fun c d => ∀ n s, c.1 = .var (.named n) → d.1 = .var (.named n) →
    b.lookup (.var (.named n)) = some s → c.2.eq d.2 = true

/-- Where row and fact both hold a keyword it is the same one. -/
def Spelled (p : Pattern) (f : Fact) (b : Bindings) : Prop :=
  ∀ n k l, (.var (.named n), .keyword l) ∈ m.components f p →
    b.lookup (.var (.named n)) = some (.keyword k) → k = l

/-- The wildcards that the row binds fit as constants. -/
def WildFits (p : Pattern) (f : Fact) (b : Bindings) : Prop :=
  ∀ n x s, (.var (.anon n), x) ∈ m.components f p → b.lookup (.var (.anon n)) = some s →
    m.constantMatches (valueToEdn s) x = true

variable {m}

theorem constantMatches_valueToEdn_iff {s x : Value} : m.constantMatches (valueToEdn s) x = true ↔
    Meets m.env x s = true ∧ ∀ k l, s = .keyword k → x = .keyword l → k = l := by
  constructor
  · intro h
    have apart : ∀ k l, s = .keyword k → x = .keyword l → k = l := by
      intro k l hs hx
      subst hs hx
      exact of_decide_eq_true h
    rw [m.constantMatches_valueToEdn fun k l hs hx _ => apart k l hs hx] at h
    exact ⟨h, apart⟩
  · intro ⟨h, apart⟩
    rwa [m.constantMatches_valueToEdn fun k l hs hx _ => apart k l hs hx]

/-- The match of the pattern alone meets the row. -/
theorem joins_iff {p : Pattern} {f : Fact} {b : Bindings} :
    (∃ cand, m.matchFactAgainstPattern f p = some cand ∧ Agrees m.env b cand) ↔
      m.Suits p f b ∧ m.Repeats p f b := by
  constructor
  · intro ⟨whole, matched, agrees⟩
    rw [matchFactAgainstPattern_eq] at matched
    obtain ⟨cand, fits, rfl⟩ := Option.map_eq_some_iff.1 matched
    have compatible := compatible_of_matches fits
    refine ⟨⟨compatible.constant, fun n x s mem held => ?_, ?_⟩, ?_⟩
    · obtain ⟨y, bound, same⟩ := matchComponents_place fits mem
      have met := agrees _ s y held (by rw [lookup_leftBehind_var, bound])
      obtain same | rfl := same
      · exact Meets.symm m.env (Meets.trans m.env met (Meets.of_eq m.env same))
      · exact Meets.symm m.env met
    · exact compatible.repeated.imp fun same n here there _ => same n here there
    · exact compatible.repeated.imp fun same n _ here there _ => same n here there
  · intro ⟨fits, repeats⟩
    have compatible : m.Compatible (m.components f p) [] := by
      refine ⟨fits.constant, (fun _ _ _ _ no => nomatch no), (fits.free.and repeats).imp ?_⟩
      intro c d ⟨free, same⟩ n here there
      cases held : b.lookup (.var (.named n)) with
      | none => exact free n here there held
      | some s => exact same n s here there held
    obtain ⟨cand, matched⟩ := compatible.matches
    have whole : m.matchFactAgainstPattern f p = some (leftBehind f p ++ cand) := by
      rw [matchFactAgainstPattern_eq, matched, Option.map_some]
    refine ⟨_, whole, fun v x y held bound => ?_⟩
    obtain ⟨n, rfl, _⟩ := (m.matchFact_bound whole v).1 ⟨y, bound⟩
    exact Meets.symm m.env (fits.bound n y x (m.matchFact_value whole bound) held)

theorem matchFact_applied (f : Fact) (p : Pattern) (b : Bindings) :
    m.matchFactAgainstPattern f (applyBindingsToPattern b p) =
      (m.matchComponents (replaced valueToEdn b (m.components f p)) []).map (leftBehind f p ++ ·) := by
  rw [applyBindingsToPattern, matchFactAgainstPattern_eq, components_substitute, leftBehind_substitute]

theorem substituteWith_bound {b : Bindings} {v : Var} {s : Value} (held : b.lookup (.var v) = some s) :
    substituteWith valueToEdn b (.var v) = valueToEdn s := by
  simp only [substituteWith, held]

theorem substituteWith_constant {b : Bindings} {c : EdnValue} (constant : c.Constant) :
    substituteWith valueToEdn b c = c := by
  cases c <;> first | exact absurd constant id | rfl

/-- The pattern with the row's values in it matches. -/
theorem scans_iff {p : Pattern} {f : Fact} {b : Bindings} :
    (∃ c, m.matchFactAgainstPattern f (applyBindingsToPattern b p) = some c) ↔
      m.Suits p f b ∧ m.Spelled p f b ∧ m.WildFits p f b := by
  have split : (∃ c, m.matchFactAgainstPattern f (applyBindingsToPattern b p) = some c) ↔
      m.Compatible (replaced valueToEdn b (m.components f p)) [] := by
    rw [matchFact_applied, ← matchComponents_iff]
    simp only [Option.map_eq_some_iff]
    exact ⟨fun ⟨_, c, fits, _⟩ => ⟨c, fits⟩, fun ⟨c, fits⟩ => ⟨_, c, fits, rfl⟩⟩
  rw [split]
  constructor
  · intro compatible
    have held {v : Var} {x s : Value} (mem : (.var v, x) ∈ m.components f p)
        (bound : b.lookup (.var v) = some s) : m.constantMatches (valueToEdn s) x = true := by
      refine compatible.constant (valueToEdn s) x (List.mem_map.2 ⟨_, mem, ?_⟩) (valueToEdn_constant s)
      rw [substituteWith_bound bound]
    refine ⟨⟨?_, ?_, ?_⟩, ?_, fun n x s => held⟩
    · intro c x mem constant
      refine compatible.constant c x (List.mem_map.2 ⟨_, mem, ?_⟩) constant
      rw [substituteWith_constant constant]
    · exact fun n x s mem bound => (constantMatches_valueToEdn_iff.1 (held mem bound)).1
    · refine (List.pairwise_map.1 compatible.repeated).imp ?_
      intro c d same n here there unbound
      have free : ∀ v, EdnValue.var (.named n) = .var v → b.lookup (.var v) = none := by
        intro v same
        cases same
        exact unbound
      refine same n ?_ ?_
      · rw [here, substituteWith_free free]
      · rw [there, substituteWith_free free]
    · exact fun n k l mem bound => (constantMatches_valueToEdn_iff.1 (held mem bound)).2 k l rfl rfl
  · intro ⟨fits, spelled, wild⟩
    refine ⟨?_, (fun _ _ _ _ no => nomatch no), List.pairwise_map.2 (fits.free.imp ?_)⟩
    · intro c x placed constant
      obtain ⟨⟨c', x'⟩, mem, same⟩ := List.mem_map.1 placed
      clear placed
      cases same
      rcases fixed_or_free b c' with ⟨v, s, rfl, bound⟩ | free
      · rw [substituteWith_bound bound]
        cases v with
        | anon n => exact wild n x' s mem bound
        | named n =>
            refine constantMatches_valueToEdn_iff.2 ⟨fits.bound n x' s mem bound, ?_⟩
            rintro k l rfl rfl
            exact spelled n k l mem bound
      · rw [substituteWith_free free] at constant ⊢
        exact fits.constant c' x' mem constant
    · intro c d same n here there
      obtain ⟨here, unbound⟩ := substituteWith_valueToEdn_var here
      obtain ⟨there, _⟩ := substituteWith_valueToEdn_var there
      exact same n here there unbound

/-! ## What a fact adds to a row -/

variable (m)

/-- What the hash join makes of a row and a fact. -/
def hashFact (p : Pattern) (jvar : Key) (existing : Bindings) (probeVal : Value) (f : Fact) :
    Option Bindings :=
  (m.matchFactAgainstPattern f p).bind fun candidate =>
    if (candidate.lookup jvar).any fun value => Meets m.env value probeVal then
      m.mergeCandidate existing candidate
    else none

/-- What the scan makes of a row and a fact. -/
def scanFact (p : Pattern) (existing : Bindings) (f : Fact) : Option Bindings :=
  (m.matchFactAgainstPattern f (applyBindingsToPattern existing p)).map (· ++ existing)

variable {m}

theorem probe_hashFact {p : Pattern} {jvar : Key} {existing : Bindings} {probeVal : Value}
    (held : existing.lookup jvar = some probeVal) : m.probe p (m.matchPattern p) jvar existing =
      m.facts.filterMap (m.hashFact p jvar existing probeVal) := by
  simp only [probe, held, matchPattern]
  induction m.facts with
  | nil => rfl
  | cons f facts ih =>
      rw [List.filterMap_cons, List.filterMap_cons, hashFact]
      cases m.matchFactAgainstPattern f p with
      | none => exact ih
      | some candidate =>
          simp only [Option.bind_some, List.filter_cons]
          split
          · rw [List.filterMap_cons, ih]
          · exact ih

/-- Nothing a match adds contradicts the row whose values are in the pattern. -/
theorem scanConsistent_applied {p : Pattern} {f : Fact} {existing additional : Bindings}
    (h : m.matchFactAgainstPattern f (applyBindingsToPattern existing p) = some additional) :
    scanConsistent existing additional = true := by
  refine List.all_eq_true.2 ?_
  intro ⟨key, y⟩ mem
  cases key with
  | hidden q id => rfl
  | var v =>
      obtain ⟨n, rfl, mentions⟩ := (m.matchFact_bound h v).1 ⟨y, m.matchFact_tidy h _ y mem⟩
      have unbound : existing.lookup (.var (.named n)) = none := by
        obtain here | here | here := mentions
        · exact (substituteWith_valueToEdn_var here).2
        · cases attr : p.attr with
          | real edn =>
              simp only [applyBindingsToPattern, substitutePatternWith, attr,
                AttributeSpec.real.injEq] at here
              exact (substituteWith_valueToEdn_var here).2
          | pseudo q =>
              simp only [applyBindingsToPattern, substitutePatternWith, attr, reduceCtorEq] at here
        · exact (substituteWith_valueToEdn_var here).2
      simp only [Key.isHidden, unbound, Option.all_none, Bool.or_true]

theorem scan_scanFact (p : Pattern) (existing : Bindings) :
    m.matchPatternWithBindingsScan p existing = m.facts.filterMap (m.scanFact p existing) := by
  refine List.filterMap_congr fun f _ => ?_
  rw [scanFact]
  cases h : m.matchFactAgainstPattern f (applyBindingsToPattern existing p) with
  | none => rfl
  | some additional =>
      simp only [bind, Option.bind_some, scanConsistent_applied h, if_true, Option.map_some]

theorem scanFact_iff {p : Pattern} {f : Fact} {b : Bindings} : (m.scanFact p b f).isSome ↔
    m.Suits p f b ∧ m.Spelled p f b ∧ m.WildFits p f b := by
  rw [← scans_iff, scanFact, Option.isSome_map, Option.isSome_iff_exists]

theorem hashFact_iff {p : Pattern} {f : Fact} {b : Bindings} {v : Var} {probeVal : Value}
    (mentions : p.Mentions v) (held : b.lookup (.var v) = some probeVal) :
    (m.hashFact p (.var v) b probeVal f).isSome ↔
      (∃ n, v = .named n) ∧ m.Suits p f b ∧ m.Repeats p f b := by
  rw [← joins_iff, Option.isSome_iff_exists]
  constructor
  · intro ⟨b', made⟩
    obtain ⟨cand, matched, found⟩ := Option.bind_eq_some_iff.1 made
    split at found
    case isFalse => cases found
    case isTrue met =>
        cases bound : List.lookup (Key.var v) cand with
        | none =>
            rw [bound] at met
            cases met
        | some y =>
            obtain ⟨n, rfl, -⟩ := (m.matchFact_bound matched v).1 ⟨y, bound⟩
            exact ⟨⟨n, rfl⟩, cand, matched, (m.agrees_of_mergeCandidate found).1⟩
  · intro ⟨⟨n, same⟩, cand, matched, agrees⟩
    obtain ⟨y, bound⟩ := (m.matchFact_bound matched v).2 ⟨n, same, mentions⟩
    refine ⟨cand.filter (·.1.isHidden) ++ b ++ cand, ?_⟩
    have met := Meets.symm m.env (agrees v _ y held bound)
    simp only [hashFact, matched, Option.bind_some, bound, Option.any_some, met, if_true,
      m.mergeCandidate_eq matched agrees]

theorem lookup_replaced (b : Bindings) (cs : List (EdnValue × Value)) {v : Var}
    (free : b.lookup (.var v) = none) :
    (replaced valueToEdn b cs).lookup (.var v) = cs.lookup (.var v) := by
  induction cs with
  | nil => rfl
  | cons c cs ih =>
      obtain ⟨c, x⟩ := c
      simp only [replaced, List.map_cons, List.lookup_cons] at ih ⊢
      have same : (EdnValue.var v == substituteWith valueToEdn b c) = (EdnValue.var v == c) := by
        refine Bool.eq_iff_iff.2 ?_
        simp only [beq_iff_eq]
        constructor
        · exact fun h => (substituteWith_valueToEdn_var h.symm).1.symm
        · intro h
          rw [← h, substituteWith_free]
          intro w here
          cases here
          exact free
      rw [same, ih]

theorem lookup_replaced_bound {b : Bindings} (cs : List (EdnValue × Value)) {v : Var} {s : Value}
    (bound : b.lookup (.var v) = some s) : (replaced valueToEdn b cs).lookup (.var v) = none := by
  induction cs with
  | nil => rfl
  | cons c cs ih =>
      obtain ⟨c, x⟩ := c
      simp only [replaced, List.map_cons, List.lookup_cons] at ih ⊢
      rw [beq_false_of_ne fun h => ?_, ih]
      rw [(substituteWith_valueToEdn_var h.symm).2] at bound
      cases bound

/-- Rows that show the same variables, a keyword for the entity it names. -/
def Alike (env : Env) (b c : Bindings) : Prop :=
  ∀ v, (b.lookup (.var v)).map (normalizeValue env) = (c.lookup (.var v)).map (normalizeValue env)

/-- Where both find something, they show the same variables. -/
theorem hashFact_alike {p : Pattern} {f : Fact} {jvar : Key} {b b' b'' : Bindings} {probeVal : Value}
    (hash : m.hashFact p jvar b probeVal f = some b') (scan : m.scanFact p b f = some b'') :
    Alike m.env b' b'' := by
  obtain ⟨whole, matched, made⟩ := Option.bind_eq_some_iff.1 hash
  split at made
  case isFalse => cases made
  case isTrue =>
      obtain ⟨-, rfl⟩ := m.agrees_of_mergeCandidate made
      obtain ⟨additional, applied, rfl⟩ := Option.map_eq_some_iff.1 scan
      rw [matchFact_applied] at applied
      rw [matchFactAgainstPattern_eq] at matched
      obtain ⟨c, fits, rfl⟩ := Option.map_eq_some_iff.1 applied
      obtain ⟨cand, fits', rfl⟩ := Option.map_eq_some_iff.1 matched
      intro v
      rw [(extends_merge b _).var, lookup_leftBehind_var, List.append_assoc, lookup_leftBehind_var,
        List.lookup_append]
      cases v with
      | anon n =>
          rw [matchComponents_anon fits, matchComponents_anon fits', List.lookup_nil, Option.or_none,
            Option.none_or]
      | named n =>
          rw [matchComponents_lookup fits, matchComponents_lookup fits', List.lookup_nil, Option.none_or,
            Option.none_or]
          cases bound : b.lookup (.var (.named n)) with
          | none => rw [lookup_replaced b _ bound, Option.none_or, Option.or_none]
          | some s => rw [lookup_replaced_bound _ bound, Option.some_or, Option.none_or]

/-! ## The whole join -/

variable (m)

/-- What the join makes of a row and a fact: rows without the join variable are scanned. -/
def joinFact (p : Pattern) (jvar : Key) (existing : Bindings) (f : Fact) : Option Bindings :=
  match existing.lookup jvar with
  | none => m.scanFact p existing f
  | some probeVal => m.hashFact p jvar existing probeVal f

/-- The matcher over other facts. -/
def onFacts (facts : List Fact) : PatternMatcher := { m with facts := facts }

/-- The join finds what the nested loop finds, in some order. -/
def JoinsAsScan (rows : List Bindings) (p : Pattern) : Prop :=
  ∃ found, found.Perm (rows.flatMap (m.matchPatternWithBindingsScan p)) ∧
    List.Forall₂ (Alike m.env) (m.joinWithPattern rows p) found

/-- On every row with the join variable, and for every fact that fits as long as entities
and the keywords naming them are not told apart: the join variable is no wildcard and the
variables that stand twice hold one value, exactly if row and fact spell their keywords alike
and the wildcards the row binds fit too. -/
def Told (rows : List Bindings) (p : Pattern) : Prop :=
  ∀ v, joinVar rows p = some (.var v) → ∀ b ∈ rows, ∀ x, b.lookup (.var v) = some x →
    ∀ f ∈ m.facts, m.Suits p f b →
      ((∃ n, v = .named n) ∧ m.Repeats p f b ↔ m.Spelled p f b ∧ m.WildFits p f b)

variable {m}

theorem joinWithPattern_scan {p : Pattern} {edn : EdnValue} (real : p.attr = .real edn)
    {rows : List Bindings} (none_ : joinVar rows p = none) :
    m.joinWithPattern rows p = rows.flatMap (m.matchPatternWithBindingsScan p) := by
  rw [joinWithPattern, none_]
  refine List.flatMap_congr fun b _ => ?_
  rw [matchPatternWithBindings, m.storedValue_real real]

theorem joinWithPattern_hash {p : Pattern} {edn : EdnValue} (real : p.attr = .real edn)
    {rows : List Bindings} {jvar : Key} (found : joinVar rows p = some jvar) :
    m.joinWithPattern rows p = rows.flatMap fun b => m.facts.filterMap (m.joinFact p jvar b) := by
  rw [joinWithPattern, found]
  refine List.flatMap_congr fun b _ => ?_
  unfold joinFact
  cases held : b.lookup jvar with
  | none =>
      simp only [PatternMatcher.probe, held]
      rw [matchPatternWithBindings, m.storedValue_real real]
      exact scan_scanFact p b
  | some probeVal => exact probe_hashFact held

theorem alike_refl (b : Bindings) : Alike m.env b b := fun _ => rfl

/-- One fact more or less on one row. -/
theorem joinFact_alike {p : Pattern} {v : Var} (mentions : p.Mentions v) {b : Bindings} {f : Fact}
    (told : ∀ x, b.lookup (.var v) = some x → m.Suits p f b →
      ((∃ n, v = .named n) ∧ m.Repeats p f b ↔ m.Spelled p f b ∧ m.WildFits p f b)) :
    Option.Rel (Alike m.env) (m.joinFact p (.var v) b f) (m.scanFact p b f) := by
  simp only [joinFact]
  cases held : b.lookup (.var v) with
  | none =>
      cases m.scanFact p b f with
      | none => exact .none
      | some c => exact .some (alike_refl c)
  | some probeVal =>
      simp only
      have hash := hashFact_iff (m := m) (f := f) mentions held
      have scan := scanFact_iff (m := m) (p := p) (f := f) (b := b)
      have same : (m.hashFact p (.var v) b probeVal f).isSome ↔ (m.scanFact p b f).isSome := by
        rw [hash, scan]
        constructor
        · intro ⟨named, fits, repeats⟩
          exact ⟨fits, (told probeVal held fits).1 ⟨named, repeats⟩⟩
        · intro ⟨fits, alike⟩
          obtain ⟨named, repeats⟩ := (told probeVal held fits).2 alike
          exact ⟨named, fits, repeats⟩
      cases h : m.hashFact p (.var v) b probeVal f with
      | none =>
          cases c : m.scanFact p b f with
          | none => exact .none
          | some b'' =>
              rw [h, c] at same
              cases same.2 rfl
      | some b' =>
          cases c : m.scanFact p b f with
          | none =>
              rw [h, c] at same
              cases same.1 rfl
          | some b'' => exact .some (hashFact_alike h c)

theorem Told.joinsAsScan {rows : List Bindings} {p : Pattern} {edn : EdnValue} (real : p.attr = .real edn)
    (told : m.Told rows p) : m.JoinsAsScan rows p := by
  refine ⟨_, .refl _, ?_⟩
  cases found : joinVar rows p with
  | none =>
      rw [joinWithPattern_scan real found]
      exact List.forall₂_same.2 fun b _ => alike_refl b
  | some jvar =>
      obtain ⟨v, rfl, mentions, -⟩ := joinVar_some found
      rw [joinWithPattern_hash real found]
      have rows_ : List.Forall₂ (fun b c => b = c ∧ b ∈ rows) rows rows :=
        List.forall₂_same.2 fun b hb => ⟨rfl, hb⟩
      have facts : List.Forall₂ (fun f g => f = g ∧ f ∈ m.facts) m.facts m.facts :=
        List.forall₂_same.2 fun f hf => ⟨rfl, hf⟩
      refine List.rel_flatMap rows_ ?_
      intro b _ ⟨same, hb⟩
      subst same
      rw [scan_scanFact]
      refine List.rel_filterMap ?_ facts
      intro f _ ⟨same, hf⟩
      subst same
      exact joinFact_alike mentions fun x held => told v found b hb x held f hf

/-- Summands that are no smaller and add up to the same are the same. -/
theorem eq_of_sum_eq {α : Type} {g h : α → Nat} {l : List α} (le : ∀ a ∈ l, g a ≤ h a)
    (eq : (l.map g).sum = (l.map h).sum) : ∀ a ∈ l, g a = h a := by
  induction l with
  | nil => exact fun _ no => absurd no List.not_mem_nil
  | cons a l ih =>
      rw [List.map_cons, List.map_cons, List.sum_cons, List.sum_cons] at eq
      have first := le a List.mem_cons_self
      have later : ∀ b ∈ l, g b ≤ h b := fun b hb => le b (List.mem_cons_of_mem a hb)
      have rest := List.sum_le_sum later
      intro b hb
      obtain rfl | hb := List.mem_cons.1 hb
      · omega
      · exact ih later (by omega) b hb

theorem length_toList_le {α β : Type} {a : Option α} {b : Option β} (h : a.isSome → b.isSome) :
    a.toList.length ≤ b.toList.length := by
  cases a with
  | none => exact Nat.zero_le _
  | some x =>
      cases b with
      | none => cases h rfl
      | some y => exact Nat.le_refl 1

theorem isSome_iff_of_length {α β : Type} {a : Option α} {b : Option β}
    (h : a.toList.length = b.toList.length) : a.isSome ↔ b.isSome := by
  cases a <;> cases b <;> simp_all

/-- One fact is found on every row or on none by the match of the pattern alone, so on each
row the ways agree if they find as many rows. -/
theorem JoinsAsScan.told {rows : List Bindings} {p : Pattern} {edn : EdnValue} (real : p.attr = .real edn)
    {f : Fact} (one : m.facts = [f]) (h : m.JoinsAsScan rows p) : m.Told rows p := by
  intro v found b hb x held f' hf' fits
  rw [one, List.mem_singleton] at hf'
  subst hf'
  obtain ⟨v', same, mentions, -⟩ := joinVar_some found
  cases same
  have single {g : Fact → Option Bindings} : ([f'].filterMap g).length = (g f').toList.length := by
    rw [List.filterMap_cons]
    cases g f' <;> rfl
  obtain ⟨scanned, perm, alike⟩ := h
  have count := alike.length_eq.trans perm.length_eq
  simp only [joinWithPattern_hash real found, scan_scanFact, List.length_flatMap, one, single] at count
  have same : ∀ c ∈ rows, (m.joinFact p (.var v) c f').toList.length = (m.scanFact p c f').toList.length := by
    by_cases met : (∃ n, v = .named n) ∧ ∃ cand, m.matchFactAgainstPattern f' p = some cand
    · obtain ⟨named, cand, matched⟩ := met
      rw [matchFactAgainstPattern_eq] at matched
      obtain ⟨c₀, whole, -⟩ := Option.map_eq_some_iff.1 matched
      have repeated := (compatible_of_matches whole).repeated
      refine fun c hc => (eq_of_sum_eq (fun c _ => length_toList_le ?_) count.symm c hc).symm
      intro scan
      simp only [joinFact]
      cases bound : c.lookup (.var v) with
      | none => exact scan
      | some probeVal =>
          refine (hashFact_iff mentions bound).2 ⟨named, (scanFact_iff.1 scan).1, ?_⟩
          exact repeated.imp fun same n _ here there _ => same n here there
    · refine eq_of_sum_eq (fun c _ => length_toList_le ?_) count
      intro hash
      simp only [joinFact] at hash
      cases bound : c.lookup (.var v) with
      | none =>
          rw [bound] at hash
          exact hash
      | some probeVal =>
          rw [bound] at hash
          obtain ⟨named, joins⟩ := (hashFact_iff mentions bound).1 hash
          obtain ⟨cand, matched, -⟩ := joins_iff.2 joins
          exact absurd ⟨named, cand, matched⟩ met
  have here := isSome_iff_of_length (same b hb)
  simp only [joinFact, held] at here
  rw [hashFact_iff mentions held, scanFact_iff] at here
  constructor
  · intro ⟨named, repeats⟩
    exact (here.1 ⟨named, fits, repeats⟩).2
  · intro alike
    obtain ⟨named, -, repeats⟩ := here.2 ⟨fits, alike⟩
    exact ⟨named, repeats⟩

theorem fits_over {facts : List Fact} {p : Pattern} {f : Fact} {b : Bindings} :
    (m.onFacts facts).Suits p f b ↔ m.Suits p f b :=
  ⟨fun h => ⟨h.constant, h.bound, h.free⟩, fun h => ⟨h.constant, h.bound, h.free⟩⟩

/-- The hash join is the nested loop, over the facts and over every part of them, exactly
when row and fact are told apart alike by both. -/
theorem hashJoin_isScan (m : PatternMatcher) (rows : List Bindings) (entity edn value : EdnValue) :
    (∀ facts, facts.Sublist m.facts → (m.onFacts facts).JoinsAsScan rows ⟨entity, .real edn, value⟩) ↔
      m.Told rows ⟨entity, .real edn, value⟩ := by
  constructor
  · intro parts v found b hb x held f hf fits
    have part := parts [f] (List.singleton_sublist.2 hf)
    exact part.told rfl rfl v found b hb x held f (List.mem_singleton_self f) (fits_over.2 fits)
  · intro told facts part
    refine Told.joinsAsScan (m := m.onFacts facts) rfl ?_
    intro v found b hb x held f hf fits
    exact told v found b hb x held f (part.subset hf) (fits_over.1 fits)

/-! ## An entity that knows itself -/

/-- One entity, whose value under `:knows` is the keyword that names it. -/
def selfKnown : PatternMatcher where
  env := ⟨fun _ => none, fun _ => 7, fun _ _ => false, fun _ => none⟩
  facts := [⟨7, ":knows", .keyword ":alice", 1, 1, 1, VALID_TIME_FOREVER, true⟩]
  validAt := none

/-- `[?x :knows ?x]` on the row that binds `?x` to the entity: the scan compares the value
with a reference, the hash join compares it with the entity beside it. -/
theorem hashJoin_not_scan : ¬ selfKnown.JoinsAsScan [[(.var (.named "x"), .ref 7)]]
    ⟨.var (.named "x"), .real (.keyword ":knows"), .var (.named "x")⟩ := by
  intro ⟨found, perm, alike⟩
  have count := alike.length_eq.trans perm.length_eq
  revert count
  decide

end PatternMatcher
end Minigraf
