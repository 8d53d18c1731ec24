import Mathlib.Data.List.Basic
import Minigraf.Query.Matcher

/-!
What a matched fact says about a row, whichever of its ways the matcher took: the
components of the fact fit the pattern, and the variables they bind meet the row.
-/

namespace Minigraf

section Values

variable (env : Env)

theorem Meets.of_eq {x y : Value} (h : x.eq y = true) : Meets env x y = true := by
  rw [Value.eq_iff] at h
  rcases h with ⟨f, g, rfl, rfl, h⟩ | ⟨rfl, plain⟩
  · exact h
  · refine Value.eq_iff.2 (.inr ⟨rfl, fun f same => ?_⟩)
    cases x with
    | float g => exact plain g rfl
    | string _ | integer _ | boolean _ | ref _ | keyword _ | null => cases same

/-- The keywords a matcher can bind are told apart by the entities they name. -/
def NamesApart (P : String → Prop) : Prop :=
  ∀ k l, P k → P l → keywordId env k = keywordId env l → k = l

end Values

namespace PatternMatcher

variable (m : PatternMatcher)

/-! ## Components -/

/-- The components of a pattern beside the values a fact has for them. -/
def components (f : Fact) (p : Pattern) : List (EdnValue × Value) :=
  (p.entity, .ref f.entity) ::
    match p.attr with
    | .real edn => [(edn, .keyword f.attr), (p.value, f.value)]
    | .pseudo pseudo => [(p.value, pseudo.ofFact m.validAtValue f)]

def leftBehind (f : Fact) (p : Pattern) : Bindings :=
  match p.attr with
  | .real _ => hiddenKeys f
  | .pseudo _ => []

def matchComponents : List (EdnValue × Value) → Bindings → Option Bindings
  | [], b => some b
  | c :: cs, b => (m.matchComponent c.1 c.2 b).bind (matchComponents cs)

theorem matchFactAgainstPattern_eq (f : Fact) (p : Pattern) :
    m.matchFactAgainstPattern f p =
      (m.matchComponents (m.components f p) []).map (leftBehind f p ++ ·) := by
  rcases p with ⟨entity, attr, value⟩
  cases attr with
  | real edn =>
      simp only [matchFactAgainstPattern, components, leftBehind, matchComponents, bind, Option.bind_assoc,
        Option.map_eq_bind, pure]
      rfl
  | pseudo q =>
      simp only [matchFactAgainstPattern, components, leftBehind, matchComponents, bind, Option.bind_assoc,
        Option.map_eq_bind, List.nil_append]
      simp

/-- What one component does to the bindings: a named variable is bound or compared, the
rest binds nothing. -/
theorem matchComponent_cases {c : EdnValue} {x : Value} {b b' : Bindings}
    (h : m.matchComponent c x b = some b') :
    (∃ n, c = .var (.named n) ∧
      ((∃ y, b.lookup (.var (.named n)) = some y ∧ y.eq x = true ∧ b' = b) ∨
        (b.lookup (.var (.named n)) = none ∧ b' = (.var (.named n), x) :: b))) ∨
    ((∀ n, c ≠ .var (.named n)) ∧ b' = b) := by
  unfold matchComponent at h
  split at h
  case h_1 => exact .inr ⟨(fun _ no => nomatch no), (Option.some.inj h).symm⟩
  case h_2 => exact .inr ⟨(fun _ no => nomatch no), (Option.some.inj h).symm⟩
  case h_3 v fresh =>
      cases v with
      | anon n => exact absurd rfl (fresh n)
      | named n =>
          refine .inl ⟨n, rfl, ?_⟩
          split at h
          case h_1 y bound =>
              split at h
              case isTrue same => exact .inl ⟨y, bound, same, (Option.some.inj h).symm⟩
              case isFalse => cases h
          case h_2 unbound => exact .inr ⟨unbound, (Option.some.inj h).symm⟩
  case h_4 notVar =>
      split at h
      case isTrue => exact .inr ⟨fun n no => notVar (.named n) no, (Option.some.inj h).symm⟩
      case isFalse => cases h

theorem matchComponent_keeps {c : EdnValue} {x : Value} {b b' : Bindings}
    (h : m.matchComponent c x b = some b') {key : Key} {y : Value} (bound : b.lookup key = some y) :
    b'.lookup key = some y := by
  rcases m.matchComponent_cases h with ⟨n, rfl, ⟨_, _, _, rfl⟩ | ⟨unbound, rfl⟩⟩ | ⟨_, rfl⟩
  · exact bound
  · have other : key ≠ .var (.named n) := by
      rintro rfl
      rw [unbound] at bound
      cases bound
    rw [List.lookup_cons, beq_false_of_ne other]
    exact bound
  · exact bound

theorem matchComponents_keeps {cs : List (EdnValue × Value)} {b b' : Bindings}
    (h : m.matchComponents cs b = some b') {key : Key} {y : Value} (bound : b.lookup key = some y) :
    b'.lookup key = some y := by
  induction cs generalizing b with
  | nil =>
      cases h
      exact bound
  | cons c cs ih =>
      obtain ⟨b₁, first, rest⟩ := Option.bind_eq_some_iff.1 h
      exact ih rest (m.matchComponent_keeps first bound)

theorem matchComponents_hidden {cs : List (EdnValue × Value)} {b b' : Bindings}
    (h : m.matchComponents cs b = some b') (q : PseudoAttr) (id : EntityId) :
    b'.lookup (.hidden q id) = b.lookup (.hidden q id) := by
  induction cs generalizing b with
  | nil =>
      cases h
      rfl
  | cons c cs ih =>
      obtain ⟨b₁, first, rest⟩ := Option.bind_eq_some_iff.1 h
      rw [ih rest]
      rcases m.matchComponent_cases first with ⟨n, -, ⟨_, _, _, rfl⟩ | ⟨-, rfl⟩⟩ | ⟨_, rfl⟩
      · rfl
      · rfl
      · rfl

/-- The variables a match binds. -/
theorem matchComponents_bound {cs : List (EdnValue × Value)} {b b' : Bindings}
    (h : m.matchComponents cs b = some b') (v : Var) :
    (∃ y, b'.lookup (.var v) = some y) ↔
      (∃ y, b.lookup (.var v) = some y) ∨ ∃ n, v = .named n ∧ ∃ x, (.var (.named n), x) ∈ cs := by
  induction cs generalizing b with
  | nil =>
      cases h
      simp
  | cons c cs ih =>
      obtain ⟨b₁, first, rest⟩ := Option.bind_eq_some_iff.1 h
      rw [ih rest]
      rcases c with ⟨c, x⟩
      rcases m.matchComponent_cases first with ⟨n, hc, step⟩ | ⟨plain, rfl⟩
      · change c = _ at hc
        subst hc
        have here : (∃ y, b₁.lookup (.var v) = some y) ↔ (∃ y, b.lookup (.var v) = some y) ∨ v = .named n := by
          rcases step with ⟨y, bound, -, rfl⟩ | ⟨unbound, rfl⟩
          · constructor
            · exact .inl
            · rintro (bound' | rfl)
              · exact bound'
              · exact ⟨y, bound⟩
          · by_cases same : v = .named n
            · subst same
              simp
            · have other : (Key.var v == .var (.named n)) = false := beq_false_of_ne (by simpa using same)
              simp [List.lookup_cons, other, same]
        rw [here]
        constructor
        · rintro ((bound | rfl) | ⟨n', rfl, y, mem⟩)
          · exact .inl bound
          · exact .inr ⟨n, rfl, x, List.mem_cons_self⟩
          · exact .inr ⟨n', rfl, y, List.mem_cons_of_mem _ mem⟩
        · rintro (bound | ⟨n', rfl, y, mem⟩)
          · exact .inl (.inl bound)
          · rcases List.mem_cons.1 mem with same | mem
            · cases same
              exact .inl (.inr rfl)
            · exact .inr ⟨n', rfl, y, mem⟩
      · constructor
        · rintro (bound | ⟨n', rfl, y, mem⟩)
          · exact .inl bound
          · exact .inr ⟨n', rfl, y, List.mem_cons_of_mem _ mem⟩
        · rintro (bound | ⟨n', rfl, y, mem⟩)
          · exact .inl bound
          · rcases List.mem_cons.1 mem with same | mem
            · cases same
              exact absurd rfl (plain n')
            · exact .inr ⟨n', rfl, y, mem⟩

/-- A value a match binds is the value of a component. -/
theorem matchComponents_value {cs : List (EdnValue × Value)} {b b' : Bindings}
    (h : m.matchComponents cs b = some b') {v : Var} {y : Value} (bound : b'.lookup (.var v) = some y) :
    b.lookup (.var v) = some y ∨ (.var v, y) ∈ cs := by
  induction cs generalizing b with
  | nil =>
      cases h
      exact .inl bound
  | cons c cs ih =>
      obtain ⟨b₁, first, rest⟩ := Option.bind_eq_some_iff.1 h
      rcases ih rest with bound₁ | mem
      · rcases c with ⟨c, x⟩
        rcases m.matchComponent_cases first with ⟨n, hc, ⟨_, _, _, rfl⟩ | ⟨-, rfl⟩⟩ | ⟨_, rfl⟩
        · exact .inl bound₁
        · change c = _ at hc
          subst hc
          by_cases same : v = .named n
          · subst same
            simp only [List.lookup_cons, beq_self_eq_true] at bound₁
            cases bound₁
            exact .inr List.mem_cons_self
          · have other : (Key.var v == .var (.named n)) = false := beq_false_of_ne (by simpa using same)
            simp only [List.lookup_cons, other] at bound₁
            exact .inl bound₁
        · exact .inl bound₁
      · exact .inr (List.mem_cons_of_mem _ mem)

/-! ## Fixed variables -/

end PatternMatcher

/-- `c` is `b` without the variables of `σ`. -/
structure Mirrors (σ b c : Bindings) : Prop where
  free : ∀ v, σ.lookup (.var v) = none → c.lookup (.var v) = b.lookup (.var v)
  fixed : ∀ v s, σ.lookup (.var v) = some s → c.lookup (.var v) = none
  hidden : ∀ q id, c.lookup (.hidden q id) = b.lookup (.hidden q id)

/-- The variables of `b` meet those of `σ`. -/
def Follows (env : Env) (σ b : Bindings) : Prop :=
  ∀ v x s, b.lookup (.var v) = some x → σ.lookup (.var v) = some s → Meets env x s = true

namespace PatternMatcher

variable (m : PatternMatcher)

/-- A constant that stands for a value matches only what meets the value, and binds
nothing. -/
def Sound (toEdn : Value → EdnValue) : Prop :=
  ∀ s x b b', m.matchComponent (toEdn s) x b = some b' → b' = b ∧ Meets m.env x s = true

/-- The values of `σ`, as constants, match in these components. -/
def Fixed (toEdn : Value → EdnValue) (σ : Bindings) (cs : List (EdnValue × Value)) : Prop :=
  ∀ v x s, (.var v, x) ∈ cs → σ.lookup (.var v) = some s → ∀ b, m.matchComponent (toEdn s) x b = some b

/-- Where a variable of `σ` stands twice in these components the matcher, which compares
the two values themselves, sees no less than that they meet. -/
def Strict (σ : Bindings) (cs : List (EdnValue × Value)) : Prop :=
  cs.Pairwise fun c d => ∀ n s, c.1 = .var (.named n) → d.1 = .var (.named n) →
    σ.lookup (.var (.named n)) = some s → Meets m.env c.2 d.2 = true → c.2.eq d.2 = true

/-- The components with the variables of `σ` replaced. -/
def replaced (toEdn : Value → EdnValue) (σ : Bindings) (cs : List (EdnValue × Value)) :
    List (EdnValue × Value) :=
  cs.map fun c => (substituteWith toEdn σ c.1, c.2)

theorem components_substitute (toEdn : Value → EdnValue) (σ : Bindings) (f : Fact) (p : Pattern) :
    m.components f (substitutePatternWith toEdn σ p) = replaced toEdn σ (m.components f p) := by
  rcases p with ⟨entity, attr, value⟩
  cases attr with
  | real edn => rfl
  | pseudo q => rfl

theorem leftBehind_substitute (toEdn : Value → EdnValue) (σ : Bindings) (f : Fact) (p : Pattern) :
    leftBehind f (substitutePatternWith toEdn σ p) = leftBehind f p := by
  rcases p with ⟨entity, attr, value⟩
  cases attr with
  | real edn => rfl
  | pseudo q => rfl

theorem Mirrors_cons {σ b c : Bindings} (mirror : Mirrors σ b c) {v : Var}
    (free : σ.lookup (.var v) = none) (x : Value) : Mirrors σ ((.var v, x) :: b) ((.var v, x) :: c) where
  free w hw := by
    by_cases same : w = v
    · subst same
      simp only [List.lookup_cons, beq_self_eq_true]
    · have other : (Key.var w == .var v) = false := beq_false_of_ne (by simpa using same)
      simp only [List.lookup_cons, other]
      exact mirror.free w hw
  fixed w s hw := by
    have other : (Key.var w == .var v) = false := by
      refine beq_false_of_ne ?_
      rintro ⟨⟩
      rw [free] at hw
      cases hw
    simp only [List.lookup_cons, other]
    exact mirror.fixed w s hw
  hidden q id := mirror.hidden q id

/-- A component that is no variable of `σ` does the same to both. -/
theorem matchComponent_mirrors {σ b c : Bindings} (mirror : Mirrors σ b c) {component : EdnValue}
    (free : ∀ v, component = .var v → σ.lookup (.var v) = none) (x : Value) :
    Option.Rel (Mirrors σ) (m.matchComponent component x b) (m.matchComponent component x c) := by
  unfold matchComponent
  split
  case h_1 => exact .some mirror
  case h_2 => exact .some mirror
  case h_3 v _ =>
      have unfixed := free v rfl
      rw [mirror.free v unfixed]
      split
      · split
        · exact .some mirror
        · exact .none
      · exact .some (Mirrors_cons mirror unfixed x)
  case h_4 =>
      split
      · exact .some mirror
      · exact .none

theorem matchComponent_mirror {σ b c b' : Bindings} (mirror : Mirrors σ b c) {component : EdnValue}
    (free : ∀ v, component = .var v → σ.lookup (.var v) = none) {x : Value}
    (h : m.matchComponent component x b = some b') :
    ∃ c', m.matchComponent component x c = some c' ∧ Mirrors σ b' c' := by
  have step := m.matchComponent_mirrors mirror free x
  rw [h] at step
  cases hc : m.matchComponent component x c with
  | none =>
      rw [hc] at step
      cases step
  | some c' =>
      rw [hc] at step
      cases step with
      | some mirror' => exact ⟨c', rfl, mirror'⟩

theorem matchComponent_mirrored {σ b c c' : Bindings} (mirror : Mirrors σ b c) {component : EdnValue}
    (free : ∀ v, component = .var v → σ.lookup (.var v) = none) {x : Value}
    (h : m.matchComponent component x c = some c') :
    ∃ b', m.matchComponent component x b = some b' ∧ Mirrors σ b' c' := by
  have step := m.matchComponent_mirrors mirror free x
  rw [h] at step
  cases hb : m.matchComponent component x b with
  | none =>
      rw [hb] at step
      cases step
  | some b' =>
      rw [hb] at step
      cases step with
      | some mirror' => exact ⟨b', rfl, mirror'⟩

theorem substituteWith_free {toEdn : Value → EdnValue} {σ : Bindings} {component : EdnValue}
    (free : ∀ v, component = .var v → σ.lookup (.var v) = none) :
    substituteWith toEdn σ component = component := by
  unfold substituteWith
  split
  case h_1 v => rw [free v rfl]
  case h_2 => rfl

theorem fixed_or_free (σ : Bindings) (component : EdnValue) :
    (∃ v s, component = .var v ∧ σ.lookup (.var v) = some s) ∨
      ∀ v, component = .var v → σ.lookup (.var v) = none := by
  cases component with
  | var v =>
      cases hs : σ.lookup (.var v) with
      | none =>
          refine .inr fun w same => ?_
          cases same
          exact hs
      | some s => exact .inl ⟨v, s, rfl, hs⟩
  | keyword _ | underscore | symbol _ | string _ | integer _ | float _ | boolean _ | uuid _ | vector _ | list _ | map _
  | nil | bindSlot _ => exact .inr fun _ same => nomatch same

/-- A variable of `σ` that is bound is not seen in the mirror. -/
theorem Mirrors_fixed {σ b c : Bindings} (mirror : Mirrors σ b c) {v : Var} {s : Value}
    (fixed : σ.lookup (.var v) = some s) (x : Value) : Mirrors σ ((.var v, x) :: b) c where
  free w hw := by
    have other : (Key.var w == .var v) = false := by
      refine beq_false_of_ne ?_
      rintro ⟨⟩
      rw [fixed] at hw
      cases hw
    simp only [List.lookup_cons, other]
    exact mirror.free w hw
  fixed := mirror.fixed
  hidden := mirror.hidden

/-- The value a match has for a variable is, of each component that names it, the value or
an equal one. -/
theorem matchComponents_named {cs : List (EdnValue × Value)} {b b' : Bindings}
    (h : m.matchComponents cs b = some b') {n : String} {x : Value} (mem : (.var (.named n), x) ∈ cs) :
    ∃ y, b'.lookup (.var (.named n)) = some y ∧ (y = x ∨ y.eq x = true) := by
  induction cs generalizing b with
  | nil => cases mem
  | cons c cs ih =>
      obtain ⟨b₁, first, rest⟩ := Option.bind_eq_some_iff.1 h
      rcases List.mem_cons.1 mem with rfl | mem
      · rcases m.matchComponent_cases first with ⟨n', here, step⟩ | ⟨plain, -⟩
        · cases here
          rcases step with ⟨y, bound, same, rfl⟩ | ⟨-, rfl⟩
          · exact ⟨y, m.matchComponents_keeps rest bound, .inr same⟩
          · refine ⟨x, m.matchComponents_keeps rest ?_, .inl rfl⟩
            simp only [List.lookup_cons, beq_self_eq_true]
        · exact absurd rfl (plain n)
      · exact ih rest mem

/-- A match is one with the variables of `σ` replaced, where the constants match. -/
theorem matchComponents_replaced {toEdn : Value → EdnValue} {σ : Bindings} {cs : List (EdnValue × Value)}
    (fixed : m.Fixed toEdn σ cs) {b c b' : Bindings} (mirror : Mirrors σ b c)
    (h : m.matchComponents cs b = some b') :
    ∃ c', m.matchComponents (replaced toEdn σ cs) c = some c' ∧ Mirrors σ b' c' := by
  induction cs generalizing b c with
  | nil =>
      cases h
      exact ⟨c, rfl, mirror⟩
  | cons d cs ih =>
      rcases d with ⟨component, x⟩
      have later : m.Fixed toEdn σ cs := fun v y s mem => fixed v y s (List.mem_cons_of_mem _ mem)
      obtain ⟨b₁, first, rest⟩ := Option.bind_eq_some_iff.1 h
      rcases fixed_or_free σ component with ⟨v, s, rfl, hs⟩ | free
      · have mirror₁ : Mirrors σ b₁ c := by
          rcases m.matchComponent_cases first with ⟨n, hv, ⟨y, -, -, rfl⟩ | ⟨-, rfl⟩⟩ | ⟨-, rfl⟩
          · exact mirror
          · cases hv
            exact Mirrors_fixed mirror hs x
          · exact mirror
        obtain ⟨c', match', mirror'⟩ := ih later mirror₁ rest
        refine ⟨c', ?_, mirror'⟩
        have const := fixed v x s List.mem_cons_self hs c
        simp only [replaced, List.map_cons, matchComponents, substituteWith, hs, const, Option.bind_some]
        exact match'
      · obtain ⟨c₁, hc₁, mirror₁⟩ := m.matchComponent_mirror mirror free first
        obtain ⟨c', match', mirror'⟩ := ih later mirror₁ rest
        refine ⟨c', ?_, mirror'⟩
        simp only [replaced, List.map_cons, matchComponents, substituteWith_free free, hc₁, Option.bind_some]
        exact match'

/-- And the other way round, where no variable of `σ` stands for two values. -/
theorem matchComponents_unreplaced {toEdn : Value → EdnValue} {σ : Bindings}
    {cs : List (EdnValue × Value)} (sound : m.Sound toEdn) (ok : m.Strict σ cs) {b c c' : Bindings}
    (mirror : Mirrors σ b c) (follows : Follows m.env σ b)
    (strict : ∀ n y x s, b.lookup (.var (.named n)) = some y → (.var (.named n), x) ∈ cs →
      σ.lookup (.var (.named n)) = some s → Meets m.env y x = true → y.eq x = true)
    (h : m.matchComponents (replaced toEdn σ cs) c = some c') :
    ∃ b', m.matchComponents cs b = some b' ∧ Mirrors σ b' c' ∧ Follows m.env σ b' := by
  induction cs generalizing b c with
  | nil =>
      cases h
      exact ⟨b, rfl, mirror, follows⟩
  | cons d cs ih =>
      rcases d with ⟨component, x⟩
      have later : m.Strict σ cs := List.Pairwise.of_cons ok
      obtain ⟨c₁, first, rest⟩ := Option.bind_eq_some_iff.1 h
      rcases fixed_or_free σ component with ⟨v, s, rfl, hs⟩ | free
      · simp only [substituteWith, hs] at first
        obtain ⟨rfl, meets⟩ := sound s x c c₁ first
        cases v with
        | anon n =>
            obtain ⟨b', match', mirror', follows'⟩ := ih later mirror follows
              (fun w y' x' s' bound' mem => strict w y' x' s' bound' (List.mem_cons_of_mem _ mem)) rest
            exact ⟨b', match', mirror', follows'⟩
        | named n =>
            cases bound : b.lookup (.var (.named n)) with
            | some y =>
                have met : Meets m.env y x = true :=
                  Meets.trans m.env (follows _ y s bound hs) (Meets.symm m.env meets)
                have same := strict _ y x s bound List.mem_cons_self hs met
                have here : m.matchComponent (.var (.named n)) x b = some b := by
                  simp only [matchComponent, bound, same, if_true]
                obtain ⟨b', match', mirror', follows'⟩ := ih later mirror follows
                  (fun w y' x' s' bound' mem => strict w y' x' s' bound' (List.mem_cons_of_mem _ mem)) rest
                exact ⟨b', by simp only [matchComponents, here, Option.bind_some, match'], mirror', follows'⟩
            | none =>
                have here : m.matchComponent (.var (.named n)) x b = some ((.var (.named n), x) :: b) := by
                  simp only [matchComponent, bound]
                have follows₁ : Follows m.env σ ((.var (.named n), x) :: b) := by
                  intro w y s' bound' hs'
                  rw [List.lookup_cons] at bound'
                  split at bound'
                  case h_1 same =>
                      cases (beq_iff_eq.1 same)
                      rw [hs] at hs'
                      cases bound'
                      cases hs'
                      exact meets
                  case h_2 => exact follows w y s' bound' hs'
                obtain ⟨b', match', mirror', follows'⟩ := ih later (Mirrors_fixed mirror hs x) follows₁
                  (by
                    intro w y x' s' bound' mem hs' met
                    rw [List.lookup_cons] at bound'
                    split at bound'
                    case h_1 same =>
                        cases (beq_iff_eq.1 same)
                        cases bound'
                        exact (List.pairwise_cons.1 ok).1 _ mem _ s' rfl rfl hs' met
                    case h_2 => exact strict w y x' s' bound' (List.mem_cons_of_mem _ mem) hs' met) rest
                exact ⟨b', by simp only [matchComponents, here, Option.bind_some, match'], mirror', follows'⟩
      · simp only [substituteWith_free free] at first
        obtain ⟨b₁, hb₁, mirror₁⟩ := m.matchComponent_mirrored mirror free first
        -- what is new in `b₁` is no variable of `σ`
        have old : ∀ w y s, b₁.lookup (.var w) = some y → σ.lookup (.var w) = some s →
            b.lookup (.var w) = some y := by
          intro w y s bound hs
          rcases m.matchComponent_cases hb₁ with ⟨n, hv, ⟨_, _, _, rfl⟩ | ⟨-, rfl⟩⟩ | ⟨-, rfl⟩
          · exact bound
          · rw [List.lookup_cons] at bound
            split at bound
            case h_1 same =>
                cases (beq_iff_eq.1 same)
                rw [free _ hv] at hs
                cases hs
            case h_2 => exact bound
          · exact bound
        obtain ⟨b', match', mirror', follows'⟩ := ih later mirror₁
          (fun w y s bound hs => follows w y s (old w y s bound hs) hs)
          (fun w y x' s bound mem hs =>
            strict w y x' s (old _ y s bound hs) (List.mem_cons_of_mem _ mem) hs) rest
        exact ⟨b', by simp only [matchComponents, hb₁, Option.bind_some, match'], mirror', follows'⟩

end PatternMatcher
end Minigraf
