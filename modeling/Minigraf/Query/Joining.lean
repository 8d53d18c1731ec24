import Minigraf.Query.Matching

/-!
The joins of the matcher. A pattern takes a row to another by a fact that fits the
pattern and meets the row; the hash join, the scan and the shortcut over hidden keys all
compute this relation, provided the rows bind the same variables and their keywords are
told apart from attributes.
-/

namespace Minigraf

/-- Where both are bound, the variables of a row and of a match meet. -/
def Agrees (env : Env) (b cand : Bindings) : Prop :=
  ∀ v x y, b.lookup (.var v) = some x → cand.lookup (.var v) = some y → Meets env x y = true

/-- The row `b` with what a match adds: its variables, but the hidden keys of the match. -/
structure Extends (b cand b' : Bindings) : Prop where
  var : ∀ v, b'.lookup (.var v) = (b.lookup (.var v)).or (cand.lookup (.var v))
  hidden : ∀ q id, b'.lookup (.hidden q id) = (cand.lookup (.hidden q id)).or (b.lookup (.hidden q id))

def SameLookups (b c : Bindings) : Prop := ∀ key, b.lookup key = c.lookup key

theorem Extends.sameLookups {b cand b' b'' : Bindings} (h : Extends b cand b') (h' : Extends b cand b'') :
    SameLookups b'' b' := by
  intro key
  cases key with
  | var v => rw [h.var, h'.var]
  | hidden q id => rw [h.hidden, h'.hidden]

namespace PatternMatcher

variable (m : PatternMatcher)

/-- A fact takes a row over a pattern. -/
def Joins (p : Pattern) (f : Fact) (b b' : Bindings) : Prop :=
  ∃ cand, m.matchFactAgainstPattern f p = some cand ∧ Agrees m.env b cand ∧ Extends b cand b'

theorem leftBehind_var (f : Fact) (p : Pattern) (v : Var) : (leftBehind f p).lookup (.var v) = none := by
  unfold leftBehind
  split
  · rfl
  · rfl

theorem lookup_leftBehind_var (f : Fact) (p : Pattern) (b : Bindings) (v : Var) :
    (leftBehind f p ++ b).lookup (.var v) = b.lookup (.var v) := by
  rw [List.lookup_append, leftBehind_var, Option.none_or]

/-- The values a match binds are those of the components. -/
theorem matchFact_value {f : Fact} {p : Pattern} {cand : Bindings}
    (h : m.matchFactAgainstPattern f p = some cand) {v : Var} {x : Value}
    (bound : cand.lookup (.var v) = some x) : (.var v, x) ∈ m.components f p := by
  rw [matchFactAgainstPattern_eq] at h
  obtain ⟨b, matched, rfl⟩ := Option.map_eq_some_iff.1 h
  rw [lookup_leftBehind_var] at bound
  rcases m.matchComponents_value matched bound with old | mem
  · cases old
  · exact mem

end PatternMatcher

/-- The variables of a pattern. -/
def Pattern.Mentions (p : Pattern) (v : Var) : Prop :=
  p.entity = .var v ∨ p.attr = .real (.var v) ∨ p.value = .var v

/-- Every entry of the list counts. -/
def Tidy (b : Bindings) : Prop := ∀ key x, (key, x) ∈ b → b.lookup key = some x

theorem Tidy.append {b c : Bindings} (hb : Tidy b) (hc : Tidy c)
    (apart : ∀ key x, (key, x) ∈ c → b.lookup key = none) : Tidy (b ++ c) := by
  intro key x mem
  rw [List.lookup_append]
  rcases List.mem_append.1 mem with mem | mem
  · rw [hb key x mem, Option.some_or]
  · rw [apart key x mem, hc key x mem, Option.none_or]

theorem mem_of_lookup {b : Bindings} {key : Key} {x : Value} (h : b.lookup key = some x) : (key, x) ∈ b := by
  induction b with
  | nil => cases h
  | cons entry b ih =>
      rw [List.lookup_cons] at h
      split at h
      case h_1 same =>
          cases h
          cases (beq_iff_eq.1 same)
          exact List.mem_cons_self
      case h_2 => exact List.mem_cons_of_mem _ (ih h)

theorem lookup_filter_of {b : Bindings} {P : Key × Value → Bool} {key : Key}
    (keep : ∀ x, P (key, x) = true) : (b.filter P).lookup key = b.lookup key := by
  induction b with
  | nil => rfl
  | cons entry b ih =>
      rcases entry with ⟨k, x⟩
      by_cases same : key = k
      · subst same
        rw [List.filter_cons_of_pos (keep x)]
        simp only [List.lookup_cons, beq_self_eq_true]
      · have other : (key == k) = false := beq_false_of_ne same
        rw [List.filter_cons]
        split
        · simp only [List.lookup_cons, other, ih]
        · simp only [List.lookup_cons, other, ih]

theorem lookup_filter_none {b : Bindings} {P : Key × Value → Bool} {key : Key}
    (drop : ∀ x, P (key, x) = false) : (b.filter P).lookup key = none := by
  cases h : (b.filter P).lookup key with
  | none => rfl
  | some x =>
      have mem := (List.mem_filter.1 (mem_of_lookup h)).2
      rw [drop x] at mem
      cases mem

namespace PatternMatcher

variable (m : PatternMatcher)

theorem mem_components_iff (f : Fact) (p : Pattern) (v : Var) :
    (∃ x, (.var v, x) ∈ m.components f p) ↔ p.Mentions v := by
  rcases p with ⟨entity, attr, value⟩
  cases attr with
  | real edn =>
      simp only [components, Pattern.Mentions, List.mem_cons, Prod.mk.injEq, AttributeSpec.real.injEq,
        List.not_mem_nil, or_false]
      constructor
      · rintro ⟨x, ⟨h, -⟩ | ⟨h, -⟩ | ⟨h, -⟩⟩
        · exact .inl h.symm
        · exact .inr (.inl h.symm)
        · exact .inr (.inr h.symm)
      · rintro (h | h | h)
        · exact ⟨_, .inl ⟨h.symm, rfl⟩⟩
        · exact ⟨_, .inr (.inl ⟨h.symm, rfl⟩)⟩
        · exact ⟨_, .inr (.inr ⟨h.symm, rfl⟩)⟩
  | pseudo q =>
      simp only [components, Pattern.Mentions, List.mem_cons, Prod.mk.injEq, reduceCtorEq, false_or,
        List.not_mem_nil, or_false]
      constructor
      · rintro ⟨x, ⟨h, -⟩ | ⟨h, -⟩⟩
        · exact .inl h.symm
        · exact .inr h.symm
      · rintro (h | h)
        · exact ⟨_, .inl ⟨h.symm, rfl⟩⟩
        · exact ⟨_, .inr ⟨h.symm, rfl⟩⟩

/-- A match binds the named variables of its pattern. -/
theorem matchFact_bound {f : Fact} {p : Pattern} {cand : Bindings}
    (h : m.matchFactAgainstPattern f p = some cand) (v : Var) :
    (∃ y, cand.lookup (.var v) = some y) ↔ ∃ n, v = .named n ∧ p.Mentions v := by
  rw [matchFactAgainstPattern_eq] at h
  obtain ⟨b, matched, rfl⟩ := Option.map_eq_some_iff.1 h
  rw [lookup_leftBehind_var, m.matchComponents_bound matched]
  constructor
  · rintro (⟨y, old⟩ | ⟨n, rfl, mem⟩)
    · cases old
    · exact ⟨n, rfl, (m.mem_components_iff f p _).1 mem⟩
  · rintro ⟨n, rfl, mem⟩
    exact .inr ⟨n, rfl, (m.mem_components_iff f p _).2 mem⟩

theorem matchComponents_tidy {cs : List (EdnValue × Value)} {b b' : Bindings} (tidy : Tidy b)
    (h : m.matchComponents cs b = some b') : Tidy b' := by
  induction cs generalizing b with
  | nil =>
      cases h
      exact tidy
  | cons c cs ih =>
      obtain ⟨b₁, first, rest⟩ := Option.bind_eq_some_iff.1 h
      refine ih ?_ rest
      rcases m.matchComponent_cases first with ⟨n, -, ⟨_, _, _, rfl⟩ | ⟨unbound, rfl⟩⟩ | ⟨-, rfl⟩
      · exact tidy
      · intro key x mem
        rcases List.mem_cons.1 mem with same | mem
        · cases same
          simp only [List.lookup_cons, beq_self_eq_true]
        · have other : (key == Key.var (.named n)) = false := by
            refine beq_false_of_ne ?_
            rintro rfl
            rw [tidy _ x mem] at unbound
            cases unbound
          simp only [List.lookup_cons, other]
          exact tidy key x mem
      · exact tidy

theorem hiddenKeys_tidy (f : Fact) : Tidy (hiddenKeys f) := by
  unfold hiddenKeys
  generalize [PseudoAttr.validFrom, .validTo, .txCount, .txId] = qs
  intro key x held
  obtain ⟨q, mem, same⟩ := List.mem_map.1 held
  cases same
  clear held
  induction qs with
  | nil => cases mem
  | cons q' qs ih =>
      rw [List.map_cons, List.lookup_cons]
      split
      case h_1 same =>
          cases (beq_iff_eq.1 same)
          rfl
      case h_2 other =>
          rcases List.mem_cons.1 mem with rfl | mem
          · exact absurd (beq_self_eq_true _) (by rw [other]; exact Bool.false_ne_true)
          · exact ih mem

theorem leftBehind_tidy (f : Fact) (p : Pattern) : Tidy (leftBehind f p) := by
  unfold leftBehind
  split
  · exact hiddenKeys_tidy f
  · intro key x mem
    cases mem

theorem matchFact_tidy {f : Fact} {p : Pattern} {cand : Bindings}
    (h : m.matchFactAgainstPattern f p = some cand) : Tidy cand := by
  rw [matchFactAgainstPattern_eq] at h
  obtain ⟨b, matched, rfl⟩ := Option.map_eq_some_iff.1 h
  have tidy : Tidy b := m.matchComponents_tidy (by intro _ _ no; cases no) matched
  refine (leftBehind_tidy f p).append tidy ?_
  intro key x mem
  cases key with
  | var v => exact leftBehind_var f p v
  | hidden q id =>
      have bound := tidy _ x mem
      rw [m.matchComponents_hidden matched] at bound
      cases bound

/-! ## The ways to join -/

theorem mirrors_nil (σ : Bindings) : Mirrors σ [] [] := ⟨fun _ _ => rfl, fun _ _ _ => rfl, fun _ _ => rfl⟩

/-- The row a scan makes of a fact. -/
theorem extends_scan {p : Pattern} {f : Fact} {b cand c : Bindings}
    (mirror : Mirrors b cand c) (hidden : ∀ q id, cand.lookup (.hidden q id) = none) :
    Extends b (leftBehind f p ++ cand) (leftBehind f p ++ c ++ b) where
  var v := by
    rw [List.append_assoc, lookup_leftBehind_var, lookup_leftBehind_var, List.lookup_append]
    cases bound : b.lookup (.var v) with
    | none => rw [mirror.free v bound, Option.or_none, Option.none_or]
    | some x => rw [mirror.fixed v x bound, Option.none_or, Option.some_or]
  hidden q id := by
    rw [List.append_assoc, List.lookup_append, List.lookup_append, List.lookup_append, mirror.hidden, hidden,
      Option.none_or, Option.or_none]

/-- A value as a constant matches what meets it, where its keyword is told apart. -/
theorem constantMatches_valueToEdn {s x : Value}
    (apart : ∀ k l, s = .keyword k → x = .keyword l → keywordId m.env k = keywordId m.env l → k = l) :
    m.constantMatches (valueToEdn s) x = Meets m.env x s := by
  cases s with
  | string s => cases x <;> first | rfl | exact decide_eq_decide.2 eq_comm
  | integer i => cases x <;> first | rfl | exact decide_eq_decide.2 eq_comm
  | float f =>
      cases x with
      | float g => exact Bool.eq_iff_iff.2 ⟨F64.eq_comm, F64.eq_comm⟩
      | string _ | integer _ | boolean _ | ref _ | keyword _ | null => rfl
  | boolean c => cases x <;> first | rfl | exact decide_eq_decide.2 eq_comm
  | ref id => cases x <;> first | rfl | exact decide_eq_decide.2 eq_comm
  | keyword k =>
      cases x with
      | keyword l =>
          refine decide_eq_decide.2 ⟨?_, fun same => (apart k l rfl rfl same.symm)⟩
          rintro rfl
          rfl
      | ref id => exact decide_eq_decide.2 eq_comm
      | string _ | integer _ | boolean _ | float _ | null => rfl
  | null => cases x <;> rfl

theorem matchComponent_valueToEdn {s x : Value}
    (apart : ∀ k l, s = .keyword k → x = .keyword l → keywordId m.env k = keywordId m.env l → k = l)
    (b : Bindings) :
    m.matchComponent (valueToEdn s) x b = if Meets m.env x s then some b else none := by
  rw [← m.constantMatches_valueToEdn apart]
  cases s <;> rfl

/-- A constant binds nothing, and matches only what meets its value. -/
theorem sound_valueToEdn : m.Sound valueToEdn := by
  intro s x b b' h
  by_cases keywords : ∃ k l, s = .keyword k ∧ x = .keyword l
  · obtain ⟨k, l, rfl, rfl⟩ := keywords
    have const : m.matchComponent (valueToEdn (.keyword k)) (.keyword l) b = if decide (k = l) then some b else none := rfl
    rw [const] at h
    split at h
    case isTrue same =>
        cases of_decide_eq_true same
        exact ⟨(Option.some.inj h).symm, Value.eq_iff.2 (.inr ⟨rfl, fun f no => nomatch no⟩)⟩
    case isFalse => cases h
  · rw [m.matchComponent_valueToEdn fun k l hk hl _ => absurd ⟨k, l, hk, hl⟩ keywords] at h
    split at h
    case isTrue met => exact ⟨(Option.some.inj h).symm, met⟩
    case isFalse => cases h

/-- Of a fact that matches and agrees with the row, each component meets what the row
has for it. -/
theorem meets_of_agrees {f : Fact} {p : Pattern} {b cand : Bindings} (agrees : Agrees m.env b cand)
    (matched : m.matchFactAgainstPattern f p = some cand) {n : String} {x s : Value}
    (component : (.var (.named n), x) ∈ m.components f p) (bound : b.lookup (.var (.named n)) = some s) :
    Meets m.env x s = true := by
  rw [matchFactAgainstPattern_eq] at matched
  obtain ⟨fits, whole, rfl⟩ := Option.map_eq_some_iff.1 matched
  obtain ⟨y, found, same⟩ := m.matchComponents_named whole component
  have met := Meets.symm m.env (agrees _ s y bound (by rw [lookup_leftBehind_var, found]))
  rcases same with rfl | same
  · exact met
  · exact Meets.trans m.env (Meets.of_eq m.env (Value.eq_comm same)) met

/-- A scan finds the facts that take the row over the pattern. -/
theorem joins_of_mem_scan {p : Pattern} {b b' : Bindings}
    (strict : ∀ f ∈ m.facts, m.Strict b (m.components f p))
    (h : b' ∈ m.matchPatternWithBindingsScan p b) : ∃ f ∈ m.facts, m.Joins p f b b' := by
  obtain ⟨f, mem, made⟩ := List.mem_filterMap.1 h
  obtain ⟨additional, matched, made⟩ := Option.bind_eq_some_iff.1 made
  split at made
  case isFalse => cases made
  case isTrue =>
      cases made
      rw [applyBindingsToPattern, matchFactAgainstPattern_eq, components_substitute,
        leftBehind_substitute] at matched
      obtain ⟨c, fits, rfl⟩ := Option.map_eq_some_iff.1 matched
      obtain ⟨cand, whole, mirror, follows⟩ := m.matchComponents_unreplaced m.sound_valueToEdn (strict f mem)
        (mirrors_nil b) (fun _ _ _ no => nomatch no) (fun _ _ _ _ no => nomatch no) fits
      have none_ : ∀ q id, cand.lookup (.hidden q id) = none := m.matchComponents_hidden whole
      refine ⟨f, mem, leftBehind f p ++ cand, ?_, ?_, extends_scan mirror none_⟩
      · rw [matchFactAgainstPattern_eq, whole, Option.map_some]
      · intro v x y bound found
        rw [lookup_leftBehind_var] at found
        exact Meets.symm m.env (follows v y x found bound)

theorem mem_scan_of_joins {p : Pattern} {b b' : Bindings} {f : Fact} (mem : f ∈ m.facts)
    (named : ∀ n, p.Mentions (.anon n) → b.lookup (.var (.anon n)) = none)
    (apart : ∀ v k l, (.var v, .keyword l) ∈ m.components f p → b.lookup (.var v) = some (.keyword k) →
      (∃ cand, m.matchFactAgainstPattern f p = some cand) → keywordId m.env k = keywordId m.env l → k = l)
    (h : m.Joins p f b b') : ∃ b'' ∈ m.matchPatternWithBindingsScan p b, SameLookups b'' b' := by
  obtain ⟨whole, matched, agrees, ext⟩ := h
  have fixed : m.Fixed valueToEdn b (m.components f p) := by
    intro v x s component bound c
    cases v with
    | anon n =>
        rw [named n ((m.mem_components_iff f p _).1 ⟨x, component⟩)] at bound
        cases bound
    | named n =>
        rw [m.matchComponent_valueToEdn, if_pos (m.meets_of_agrees agrees matched component bound)]
        rintro k l rfl rfl
        exact apart _ k l component bound ⟨whole, matched⟩
  rw [matchFactAgainstPattern_eq] at matched
  obtain ⟨cand, fits, rfl⟩ := Option.map_eq_some_iff.1 matched
  obtain ⟨c, fits', mirror⟩ := m.matchComponents_replaced fixed (mirrors_nil b) fits
  have none_ : ∀ q id, cand.lookup (.hidden q id) = none := m.matchComponents_hidden fits
  refine ⟨leftBehind f p ++ c ++ b, ?_, ext.sameLookups (extends_scan mirror none_)⟩
  refine List.mem_filterMap.2 ⟨f, mem, ?_⟩
  have replaced_ : m.matchFactAgainstPattern f (applyBindingsToPattern b p) = some (leftBehind f p ++ c) := by
    rw [applyBindingsToPattern, matchFactAgainstPattern_eq, components_substitute, leftBehind_substitute,
      fits', Option.map_some]
  have consistent : scanConsistent b (leftBehind f p ++ c) = true := by
    refine List.all_eq_true.2 ?_
    rintro ⟨key, y⟩ found
    cases key with
    | hidden q id => rfl
    | var v =>
        have bound := m.matchFact_tidy replaced_ _ y found
        rw [lookup_leftBehind_var] at bound
        cases old : b.lookup (.var v) with
        | none => simp only [Key.isHidden, old, Option.all_none, Bool.or_true]
        | some x =>
            rw [mirror.fixed v x old] at bound
            cases bound
  simp only [replaced_, bind, Option.bind_some, consistent, if_true]

/-- A row and a candidate merge if their variables meet. -/
theorem mergeCandidate_eq {f : Fact} {p : Pattern} {b cand : Bindings}
    (matched : m.matchFactAgainstPattern f p = some cand) (agrees : Agrees m.env b cand) :
    m.mergeCandidate b cand = some (cand.filter (·.1.isHidden) ++ b ++ cand) := by
  refine if_pos (List.all_eq_true.2 ?_)
  rintro ⟨key, y⟩ found
  cases key with
  | hidden q id => rfl
  | var v =>
      cases old : b.lookup (.var v) with
      | none => simp only [Key.isHidden, old, Option.all_none, Bool.or_true]
      | some x =>
          have met := agrees v x y old (m.matchFact_tidy matched _ y found)
          simp only [Key.isHidden, old, Option.all_some, met, Bool.or_true]

theorem agrees_of_mergeCandidate {b cand b' : Bindings} (h : m.mergeCandidate b cand = some b') :
    Agrees m.env b cand ∧ b' = cand.filter (·.1.isHidden) ++ b ++ cand := by
  unfold mergeCandidate at h
  simp only at h
  split at h
  case isFalse => cases h
  case isTrue consistent =>
      refine ⟨?_, (Option.some.inj h).symm⟩
      intro v x y old found
      have here := List.all_eq_true.1 consistent _ (mem_of_lookup found)
      simpa only [Key.isHidden, old, Option.all_some, Bool.false_or] using here

theorem extends_merge (b cand : Bindings) : Extends b cand (cand.filter (·.1.isHidden) ++ b ++ cand) where
  var v := by
    rw [List.append_assoc, List.lookup_append, List.lookup_append, lookup_filter_none fun _ => rfl,
      Option.none_or]
  hidden q id := by
    rw [List.append_assoc, List.lookup_append, List.lookup_append, lookup_filter_of fun _ => rfl]
    cases cand.lookup (.hidden q id) with
    | none => rw [Option.none_or, Option.none_or, Option.or_none]
    | some x => rfl

/-- The values of pseudo-attributes are integers or nil. -/
theorem ofFact_ne_keyword (q : PseudoAttr) (f : Fact) (k : String) :
    q.ofFact m.validAtValue f ≠ .keyword k := by
  cases q with
  | validAt =>
      rw [PseudoAttr.ofFact, validAtValue]
      cases m.validAt with
      | none => exact fun no => nomatch no
      | some _ => exact fun no => nomatch no
  | validFrom | validTo | txCount | txId => exact fun no => nomatch no

theorem not_meets_ofFact (q : PseudoAttr) (f : Fact) (id : EntityId) :
    Meets m.env (.ref id) (q.ofFact m.validAtValue f) = false := by
  cases q with
  | validAt =>
      rw [PseudoAttr.ofFact, validAtValue]
      cases m.validAt with
      | none => rfl
      | some _ => rfl
  | validFrom | validTo | txCount | txId => rfl

/-! ## One pattern -/

/-- The keyword a row has for the attribute of a pattern is told apart from the
attributes of the facts that match it. -/
def AttributeApart (p : Pattern) (b : Bindings) : Prop :=
  ∀ v k, p.attr = .real (.var v) → b.lookup (.var v) = some (.keyword k) → ∀ f ∈ m.facts,
    (∃ cand, m.matchFactAgainstPattern f p = some cand) → keywordId m.env k = keywordId m.env f.attr → k = f.attr

/-- A pattern takes a row to another: by the hidden keys of the row, or by a fact. -/
def Steps (p : Pattern) (b b' : Bindings) : Prop :=
  match m.storedValue p b with
  | some value => m.matchComponent p.value value b = some b'
  | none => ∃ f ∈ m.facts, m.Joins p f b b'

/-- Rows that bind the same variables of a pattern, among them no wildcard, and where the
pattern is scanned tell its attribute apart. -/
structure Uniform (p : Pattern) (rows : List Bindings) : Prop where
  same : ∀ b ∈ rows, ∀ c ∈ rows, ∀ v, p.Mentions v →
    ((∃ x, b.lookup (.var v) = some x) ↔ ∃ y, c.lookup (.var v) = some y)
  named : ∀ b ∈ rows, ∀ n, p.Mentions (.anon n) → b.lookup (.var (.anon n)) = none
  apart : joinVar rows p = none → ∀ b ∈ rows, m.AttributeApart p b

/-- The entity of a fact and a pseudo-attribute of it do not meet. -/
theorem strict_pseudo {p : Pattern} {q : PseudoAttr} (hp : p.attr = .pseudo q) (b : Bindings) (f : Fact) :
    m.Strict b (m.components f p) := by
  simp only [Strict, components, hp]
  refine List.pairwise_pair.2 fun n s _ _ _ met => ?_
  rw [not_meets_ofFact] at met
  cases met

/-- With neither the entity nor the value bound no variable of the row stands twice. -/
theorem strict_real {p : Pattern} {edn : EdnValue} (hp : p.attr = .real edn) {b : Bindings}
    (entity : ∀ v, p.entity = .var v → b.lookup (.var v) = none)
    (value : ∀ v, p.value = .var v → b.lookup (.var v) = none) (f : Fact) : m.Strict b (m.components f p) := by
  simp only [Strict, components, hp]
  refine List.pairwise_cons.2 ⟨?_, List.pairwise_pair.2 ?_⟩
  · intro d _ n s here _ bound
    rw [entity _ here] at bound
    cases bound
  · intro n s _ here bound
    rw [value _ here] at bound
    cases bound

theorem storedValue_real {p : Pattern} {edn : EdnValue} (hp : p.attr = .real edn) (b : Bindings) :
    m.storedValue p b = none := by
  rw [storedValue, hp]

theorem joinVar_pseudo {p : Pattern} {q : PseudoAttr} (hp : p.attr = .pseudo q) (rows : List Bindings) :
    joinVar rows p = none := by
  rw [joinVar, hp]

/-- The variable of a hash join is a variable of the pattern that all rows bind. -/
theorem joinVar_some {p : Pattern} {rows : List Bindings} {jvar : Key} (h : joinVar rows p = some jvar) :
    ∃ v, jvar = .var v ∧ p.Mentions v ∧ ∃ c ∈ rows, ∃ x, c.lookup (.var v) = some x := by
  unfold joinVar at h
  split at h
  case h_1 => cases h
  case h_2 =>
      obtain ⟨first, head, h⟩ := Option.bind_eq_some_iff.1 h
      have bound : ∀ component, boundVariable first component = some jvar →
          ∃ v, jvar = .var v ∧ component = .var v ∧ ∃ x, first.lookup (.var v) = some x := by
        intro component h
        obtain ⟨v, isVar, h⟩ := Option.bind_eq_some_iff.1 h
        split at h
        case isFalse => cases h
        case isTrue some_ =>
            cases h
            refine ⟨v, rfl, ?_, Option.isSome_iff_exists.1 some_⟩
            cases component with
            | var w =>
                cases isVar
                rfl
            | keyword _ | underscore | symbol _ | string _ | integer _ | float _ | boolean _ | uuid _
            | vector _ | list _ | map _ | nil | bindSlot _ => cases isVar
      have mem := List.mem_of_head? head
      rcases Option.or_eq_some_iff.1 h with h | ⟨-, h⟩
      · obtain ⟨v, same, here, x, hx⟩ := bound _ h
        exact ⟨v, same, .inl here, first, mem, x, hx⟩
      · obtain ⟨v, same, here, x, hx⟩ := bound _ h
        exact ⟨v, same, .inr (.inr here), first, mem, x, hx⟩

theorem boundVariable_none {b : Bindings} {v : Var} (h : boundVariable b (.var v) = none) :
    b.lookup (.var v) = none := by
  simp only [boundVariable, EdnValue.asVariable, Option.bind_some, ite_eq_right_iff, reduceCtorEq,
    imp_false] at h
  exact Option.not_isSome_iff_eq_none.1 h

/-- Without one, neither the entity nor the value of a real pattern is bound. -/
theorem joinVar_none {p : Pattern} {edn : EdnValue} (hp : p.attr = .real edn) {rows : List Bindings}
    (h : joinVar rows p = none) {first : Bindings} (head : rows.head? = some first) (v : Var) :
    (p.entity = .var v → first.lookup (.var v) = none) ∧ (p.value = .var v → first.lookup (.var v) = none) := by
  rw [joinVar, hp] at h
  simp only [head, bind, Option.bind_some, Option.or_eq_none_iff] at h
  constructor
  · intro here
    rw [here] at h
    exact boundVariable_none h.1
  · intro here
    rw [here] at h
    exact boundVariable_none h.2

variable {m}

/-- Rows without a join variable bind neither the entity nor the value of a real pattern. -/
theorem Uniform.unbound {p : Pattern} {rows : List Bindings} (u : m.Uniform p rows)
    (scan : joinVar rows p = none) {edn : EdnValue} (hp : p.attr = .real edn) {b : Bindings} (hb : b ∈ rows)
    (v : Var) : (p.entity = .var v → b.lookup (.var v) = none) ∧ (p.value = .var v → b.lookup (.var v) = none) := by
  obtain ⟨first, head⟩ : ∃ first, rows.head? = some first := by
    cases rows with
    | nil => cases hb
    | cons first rest => exact ⟨first, rfl⟩
  have unbound : p.Mentions v → first.lookup (.var v) = none → b.lookup (.var v) = none := by
    intro mentions none_
    cases bound : b.lookup (.var v) with
    | none => rfl
    | some x =>
        obtain ⟨y, hy⟩ := (u.same b hb first (List.mem_of_head? head) v mentions).1 ⟨x, bound⟩
        rw [none_] at hy
        cases hy
  constructor
  · intro here
    exact unbound (.inl here) ((joinVar_none hp scan head v).1 here)
  · intro here
    exact unbound (.inr (.inr here)) ((joinVar_none hp scan head v).2 here)

theorem Uniform.strict {p : Pattern} {rows : List Bindings} (u : m.Uniform p rows)
    (scan : joinVar rows p = none) {b : Bindings} (hb : b ∈ rows) (f : Fact) : m.Strict b (m.components f p) := by
  cases hp : p.attr with
  | pseudo q => exact m.strict_pseudo hp b f
  | real edn =>
      have unbound := u.unbound scan hp hb
      exact m.strict_real hp (fun v => (unbound v).1) (fun v => (unbound v).2) f

/-- A keyword a scanned row has for a component is that of the fact. -/
theorem Uniform.component {p : Pattern} {rows : List Bindings} (u : m.Uniform p rows)
    (scan : joinVar rows p = none) {b : Bindings} (hb : b ∈ rows) {f : Fact} (mem : f ∈ m.facts) {v : Var}
    {k l : String} (component : (.var v, .keyword l) ∈ m.components f p)
    (bound : b.lookup (.var v) = some (.keyword k)) (matched : ∃ cand, m.matchFactAgainstPattern f p = some cand)
    (same : keywordId m.env k = keywordId m.env l) : k = l := by
  cases hp : p.attr with
  | pseudo q =>
      simp only [components, hp, List.mem_cons, Prod.mk.injEq, reduceCtorEq, and_false, false_or,
        List.not_mem_nil, or_false] at component
      exact absurd component.2.symm (m.ofFact_ne_keyword q f l)
  | real edn =>
      simp only [components, hp, List.mem_cons, Prod.mk.injEq, List.not_mem_nil, or_false] at component
      rcases component with ⟨-, no⟩ | ⟨here, attr⟩ | ⟨here, -⟩
      · cases no
      · cases attr
        exact u.apart scan b hb v k (by rw [hp, here]) bound f mem matched same
      · rw [(u.unbound scan hp hb v).2 here.symm] at bound
        cases bound

/-- Where the rows have a join variable, its value is there to probe with. -/
theorem Uniform.probe {p : Pattern} {rows : List Bindings} (u : m.Uniform p rows) {jvar : Key}
    (h : joinVar rows p = some jvar) {b : Bindings} (hb : b ∈ rows) :
    ∃ n x, jvar = .var (.named n) ∧ p.Mentions (.named n) ∧ b.lookup jvar = some x := by
  obtain ⟨v, rfl, mentions, c, hc, y, hy⟩ := joinVar_some h
  cases v with
  | anon n =>
      rw [u.named c hc n mentions] at hy
      cases hy
  | named n =>
      obtain ⟨x, hx⟩ := (u.same b hb c hc _ mentions).2 ⟨y, hy⟩
      exact ⟨n, x, rfl, mentions, hx⟩

/-- Each row of a join comes from a row by the pattern. -/
theorem Uniform.steps_of_mem {p : Pattern} {rows : List Bindings} (u : m.Uniform p rows) {b' : Bindings}
    (h : b' ∈ m.joinWithPattern rows p) : ∃ b ∈ rows, m.Steps p b b' := by
  unfold joinWithPattern at h
  split at h
  case h_1 scan =>
      obtain ⟨b, hb, h⟩ := List.mem_flatMap.1 h
      refine ⟨b, hb, ?_⟩
      unfold matchPatternWithBindings at h
      unfold Steps
      cases stored : m.storedValue p b with
      | some value =>
          simp only [stored] at h ⊢
          exact Option.mem_toList.1 h
      | none =>
          simp only [stored] at h ⊢
          exact m.joins_of_mem_scan (fun f _ => u.strict scan hb f) h
  case h_2 jvar join =>
      obtain ⟨b, hb, h⟩ := List.mem_flatMap.1 h
      refine ⟨b, hb, ?_⟩
      obtain ⟨n, x, rfl, mentions, hx⟩ := u.probe join hb
      unfold PatternMatcher.probe at h
      rw [hx] at h
      obtain ⟨cand, mem, merged⟩ := List.mem_filterMap.1 h
      obtain ⟨f, hf, matched⟩ := List.mem_filterMap.1 (List.mem_filter.1 mem).1
      obtain ⟨agrees, rfl⟩ := m.agrees_of_mergeCandidate merged
      cases hp : p.attr with
      | pseudo q =>
          rw [joinVar_pseudo hp] at join
          cases join
      | real edn =>
          rw [Steps, m.storedValue_real hp]
          exact ⟨f, hf, cand, matched, agrees, extends_merge b cand⟩

/-- And each row the pattern takes a row to is there. -/
theorem Uniform.mem_of_steps {p : Pattern} {rows : List Bindings} (u : m.Uniform p rows) {b b' : Bindings}
    (hb : b ∈ rows) (h : m.Steps p b b') : ∃ b'' ∈ m.joinWithPattern rows p, SameLookups b'' b' := by
  unfold joinWithPattern
  split
  case h_1 scan =>
      have found : ∃ b'' ∈ m.matchPatternWithBindings p b, SameLookups b'' b' := by
        unfold matchPatternWithBindings
        unfold Steps at h
        cases stored : m.storedValue p b with
        | some value =>
            simp only [stored] at h ⊢
            exact ⟨b', Option.mem_toList.2 h, fun _ => rfl⟩
        | none =>
            simp only [stored] at h ⊢
            obtain ⟨f, mem, joins⟩ := h
            exact m.mem_scan_of_joins mem (u.named b hb) (fun _ _ _ => u.component scan hb mem) joins
      obtain ⟨b'', mem, same⟩ := found
      exact ⟨b'', List.mem_flatMap.2 ⟨b, hb, mem⟩, same⟩
  case h_2 jvar join =>
      obtain ⟨n, x, rfl, mentions, hx⟩ := u.probe join hb
      cases hp : p.attr with
      | pseudo q =>
          rw [joinVar_pseudo hp] at join
          cases join
      | real edn =>
          rw [Steps, m.storedValue_real hp] at h
          obtain ⟨f, hf, cand, matched, agrees, ext⟩ := h
          obtain ⟨y, hy⟩ := (m.matchFact_bound matched (.named n)).2 ⟨n, rfl, mentions⟩
          refine ⟨cand.filter (·.1.isHidden) ++ b ++ cand, List.mem_flatMap.2 ⟨b, hb, ?_⟩,
            ext.sameLookups (extends_merge b cand)⟩
          unfold PatternMatcher.probe
          rw [hx]
          refine List.mem_filterMap.2 ⟨cand, List.mem_filter.2 ⟨?_, ?_⟩, m.mergeCandidate_eq matched agrees⟩
          · exact List.mem_filterMap.2 ⟨f, hf, matched⟩
          · have met := Meets.symm m.env (agrees _ x y hx hy)
            simp only [hy, Option.any_some, met]

/-! ## What a step keeps -/

/-- A hidden key that answers a pattern: its entity is known on the row. -/
theorem storedValue_some {p : Pattern} {b : Bindings} {value : Value} (h : m.storedValue p b = some value) :
    ∃ q id, p.attr = .pseudo q ∧ m.resolvedEntity b p.entity = some id ∧
      b.lookup (.hidden q id) = some value := by
  unfold storedValue at h
  split at h
  case h_1 => cases h
  case h_2 q _ hq =>
      obtain ⟨id, resolved, found⟩ := Option.bind_eq_some_iff.1 h
      exact ⟨q, id, hq, resolved, found⟩
  case h_3 => cases h

theorem resolvedEntity_var {b : Bindings} {v : Var} {id : EntityId}
    (h : m.resolvedEntity b (.var v) = some id) : ∃ x, b.lookup (.var v) = some x := by
  cases bound : b.lookup (.var v) with
  | some x => exact ⟨x, rfl⟩
  | none =>
      simp only [resolvedEntity, applyBindingToComponent, substituteWith, bound] at h
      cases h

theorem Steps.keeps {p : Pattern} {b b' : Bindings} (h : m.Steps p b b') {v : Var} {x : Value}
    (bound : b.lookup (.var v) = some x) : b'.lookup (.var v) = some x := by
  unfold Steps at h
  split at h
  case h_1 => exact m.matchComponent_keeps h bound
  case h_2 =>
      obtain ⟨f, -, cand, -, -, ext⟩ := h
      rw [ext.var, bound, Option.some_or]

/-- A step binds the named variables of its pattern. -/
theorem Steps.bound {p : Pattern} {b b' : Bindings} (h : m.Steps p b b') (v : Var) :
    (∃ x, b'.lookup (.var v) = some x) ↔
      (∃ x, b.lookup (.var v) = some x) ∨ ∃ n, v = .named n ∧ p.Mentions v := by
  unfold Steps at h
  split at h
  case h_1 value stored =>
      obtain ⟨q, id, attr, resolved, -⟩ := storedValue_some stored
      have whole : m.matchComponents [(p.value, value)] b = some b' := by
        simp only [matchComponents, h, Option.bind_some]
      rw [m.matchComponents_bound whole]
      constructor
      · rintro (bound | ⟨n, rfl, x, mem⟩)
        · exact .inl bound
        · exact .inr ⟨n, rfl, .inr (.inr (congrArg Prod.fst (List.mem_singleton.1 mem)).symm)⟩
      · rintro (bound | ⟨n, rfl, here | here | here⟩)
        · exact .inl bound
        · rw [here] at resolved
          exact .inl (resolvedEntity_var resolved)
        · rw [attr] at here
          cases here
        · exact .inr ⟨n, rfl, value, List.mem_singleton.2 (by rw [here])⟩
  case h_2 =>
      obtain ⟨f, -, cand, matched, -, ext⟩ := h
      rw [ext.var, ← m.matchFact_bound matched v]
      cases b.lookup (.var v) with
      | none => simp
      | some x => simp

/-- A keyword of the facts. -/
def KeywordOf (m : PatternMatcher) (k : String) : Prop :=
  ∃ f ∈ m.facts, f.attr = k ∨ f.value = .keyword k

/-- The keywords of a row come from the facts, and its hidden keys hold integers. -/
structure Sourced (m : PatternMatcher) (b : Bindings) : Prop where
  keyword : ∀ v k, b.lookup (.var v) = some (.keyword k) → m.KeywordOf k
  hidden : ∀ q id x, b.lookup (.hidden q id) = some x → ∃ i, x = .integer i

theorem sourced_nil : m.Sourced [] := ⟨(fun _ _ no => nomatch no), (fun _ _ _ no => nomatch no)⟩

theorem Sourced.attributeApart {b : Bindings} (h : m.Sourced b) (apart : NamesApart m.env m.KeywordOf)
    (p : Pattern) : m.AttributeApart p b :=
  fun v k _ bound f mem _ => apart k f.attr (h.keyword v k bound) ⟨f, mem, .inl rfl⟩

theorem sourced_of_matchFact {f : Fact} (mem : f ∈ m.facts) {p : Pattern} {cand : Bindings}
    (h : m.matchFactAgainstPattern f p = some cand) : m.Sourced cand where
  keyword v k bound := by
    have found := m.matchFact_value h bound
    rw [components] at found
    rcases List.mem_cons.1 found with no | found
    · cases congrArg Prod.snd no
    cases hp : p.attr with
    | real edn =>
        simp only [hp, List.mem_cons, Prod.mk.injEq, List.not_mem_nil, or_false] at found
        rcases found with ⟨-, same⟩ | ⟨-, same⟩
        · cases same
          exact ⟨f, mem, .inl rfl⟩
        · exact ⟨f, mem, .inr same.symm⟩
    | pseudo q =>
        simp only [hp, List.mem_singleton, Prod.mk.injEq] at found
        exact absurd found.2.symm (m.ofFact_ne_keyword q f k)
  hidden q id x bound := by
    rw [matchFactAgainstPattern_eq] at h
    obtain ⟨b, fits, rfl⟩ := Option.map_eq_some_iff.1 h
    have found := mem_of_lookup bound
    rcases List.mem_append.1 found with found | found
    · unfold leftBehind at found
      split at found
      · obtain ⟨q', among, same⟩ := List.mem_map.1 found
        cases same
        simp only [List.mem_cons, List.not_mem_nil, or_false] at among
        rcases among with rfl | rfl | rfl | rfl
        · exact ⟨_, rfl⟩
        · exact ⟨_, rfl⟩
        · exact ⟨_, rfl⟩
        · exact ⟨_, rfl⟩
      · cases found
    · have tidy := m.matchComponents_tidy (by intro _ _ no; cases no) fits _ x found
      rw [m.matchComponents_hidden fits] at tidy
      cases tidy

theorem Steps.sourced {p : Pattern} {b b' : Bindings} (h : m.Steps p b b') (src : m.Sourced b) :
    m.Sourced b' := by
  unfold Steps at h
  split at h
  case h_1 value stored =>
      obtain ⟨q, id, -, -, found⟩ := storedValue_some stored
      have whole : m.matchComponents [(p.value, value)] b = some b' := by
        simp only [matchComponents, h, Option.bind_some]
      refine ⟨fun v k bound => ?_, fun q id x bound => ?_⟩
      · rcases m.matchComponents_value whole bound with old | mem
        · exact src.keyword v k old
        · obtain ⟨i, rfl⟩ := src.hidden q id value found
          cases congrArg Prod.snd (List.mem_singleton.1 mem)
      · rw [m.matchComponents_hidden whole] at bound
        exact src.hidden q id x bound
  case h_2 =>
      obtain ⟨f, mem, cand, matched, -, ext⟩ := h
      have new := sourced_of_matchFact mem matched
      refine ⟨fun v k bound => ?_, fun q id x bound => ?_⟩
      · rw [ext.var] at bound
        rcases Option.or_eq_some_iff.1 bound with old | ⟨-, found⟩
        · exact src.keyword v k old
        · exact new.keyword v k found
      · rw [ext.hidden] at bound
        rcases Option.or_eq_some_iff.1 bound with found | ⟨-, old⟩
        · exact new.hidden q id x found
        · exact src.hidden q id x old

/-! ## Rows that look alike -/

theorem SameLookups_symm {b c : Bindings} (h : SameLookups b c) : SameLookups c b := fun key => (h key).symm

theorem mirrors_of_sameLookups {b c : Bindings} (h : SameLookups b c) : Mirrors [] b c :=
  ⟨fun _ _ => (h _).symm, (fun _ _ no => nomatch no), fun _ _ => (h _).symm⟩

theorem sameLookups_of_mirrors {b c : Bindings} (h : Mirrors [] b c) : SameLookups b c := by
  intro key
  cases key with
  | var v => exact (h.free v rfl).symm
  | hidden q id => exact (h.hidden q id).symm

theorem storedValue_congr {b c : Bindings} (same : SameLookups b c) (p : Pattern) :
    m.storedValue p c = m.storedValue p b := by
  have component : ∀ component, applyBindingToComponent c component = applyBindingToComponent b component := by
    intro component
    unfold applyBindingToComponent substituteWith
    split
    · rw [same]
    · rfl
  unfold storedValue resolvedEntity
  rw [component]
  split
  · rfl
  · simp only [same (.hidden _ _)]
  · rfl

/-- A step depends on what the row shows only. -/
theorem Steps.congr {p : Pattern} {b b' c : Bindings} (h : m.Steps p b b') (same : SameLookups b c) :
    ∃ c', m.Steps p c c' ∧ SameLookups b' c' := by
  unfold Steps at h ⊢
  rw [storedValue_congr same]
  split at h
  case h_1 =>
      obtain ⟨c', fits, mirror⟩ := m.matchComponent_mirror (mirrors_of_sameLookups same) (fun _ _ => rfl) h
      exact ⟨c', fits, sameLookups_of_mirrors mirror⟩
  case h_2 =>
      obtain ⟨f, mem, cand, matched, agrees, ext⟩ := h
      refine ⟨b', ⟨f, mem, cand, matched, ?_, ?_, ?_⟩, fun _ => rfl⟩
      · intro v x y bound
        rw [← same] at bound
        exact agrees v x y bound
      · intro v
        rw [ext.var, same]
      · intro q id
        rw [ext.hidden, same]

/-! ## Several patterns -/

/-- A list of patterns takes a row to another. -/
def Chain (m : PatternMatcher) : List Pattern → Bindings → Bindings → Prop
  | [], b, b' => SameLookups b b'
  | p :: ps, b, b' => ∃ b₁, m.Steps p b b₁ ∧ Chain m ps b₁ b'

theorem Chain.congr {ps : List Pattern} {b b' c : Bindings} (h : m.Chain ps b b') (same : SameLookups b c) :
    m.Chain ps c b' := by
  induction ps generalizing b c with
  | nil => exact fun key => (same key).symm.trans (h key)
  | cons p ps ih =>
      obtain ⟨b₁, step, rest⟩ := h
      obtain ⟨c₁, step', same₁⟩ := step.congr same
      exact ⟨c₁, step', ih rest same₁⟩

/-- A fact offers a value for a variable to some pattern. -/
def Offered (m : PatternMatcher) (ps : List Pattern) (v : Var) (x : Value) : Prop :=
  ∃ p ∈ ps, ∃ f ∈ m.facts, ∃ cand, m.matchFactAgainstPattern f p = some cand ∧ cand.lookup (.var v) = some x

/-- The entity or the value of the pattern is a variable outside `σ` that patterns before
bind, so that the pattern is joined by its value and not scanned for. -/
def Probed (σ : Bindings) (front : List Pattern) (p : Pattern) : Prop :=
  ∃ n, (p.entity = .var (.named n) ∨ p.value = .var (.named n)) ∧ σ.lookup (.var (.named n)) = none ∧
    ∃ q ∈ front, q.Mentions (.named n)

/-- A keyword that patterns before offer for the attribute of a pattern that is scanned for
is told apart from the attributes of the facts that match it. -/
def Discerned (m : PatternMatcher) (σ : Bindings) (ps : List Pattern) : Prop :=
  ∀ front p back, ps = front ++ p :: back → ¬ Probed σ front p → ∀ v k, p.attr = .real (.var v) →
    m.Offered front v (.keyword k) → ∀ f ∈ m.facts, (∃ cand, m.matchFactAgainstPattern f p = some cand) →
      keywordId m.env k = keywordId m.env f.attr → k = f.attr

theorem Discerned.free {σ : Bindings} {ps : List Pattern} (h : m.Discerned σ ps) : m.Discerned [] ps := by
  intro front p back same scanned
  refine h front p back same ?_
  rintro ⟨n, here, -, before⟩
  exact scanned ⟨n, here, rfl, before⟩

theorem discerned_of_namesApart (apart : NamesApart m.env m.KeywordOf) (ps : List Pattern) : m.Discerned [] ps := by
  rintro front p back - - v k - ⟨q, -, f, mem, cand, matched, found⟩ g hg -
  exact apart k g.attr ((sourced_of_matchFact mem matched).keyword v k found) ⟨g, hg, .inl rfl⟩

/-- Rows that have been through some patterns: they bind the named variables of these, a
keyword as a fact offers it. -/
structure Rows (m : PatternMatcher) (front : List Pattern) (rows : List Bindings) : Prop where
  bound : ∀ b ∈ rows, ∀ v, (∃ x, b.lookup (.var v) = some x) ↔ ∃ n, v = .named n ∧ ∃ q ∈ front, q.Mentions v
  sourced : ∀ b ∈ rows, m.Sourced b
  offered : ∀ b ∈ rows, ∀ v k, b.lookup (.var v) = some (.keyword k) → m.Offered front v (.keyword k)

theorem joinVar_of_bound {p : Pattern} {edn : EdnValue} (hp : p.attr = .real edn) {rows : List Bindings}
    {first : Bindings} (head : rows.head? = some first) {v : Var} {x : Value} (bound : first.lookup (.var v) = some x)
    (here : p.entity = .var v ∨ p.value = .var v) : joinVar rows p ≠ none := by
  intro none_
  have unbound := joinVar_none hp none_ head v
  rcases here with here | here
  · rw [unbound.1 here] at bound
    cases bound
  · rw [unbound.2 here] at bound
    cases bound

theorem Rows.uniform {front rest : List Pattern} {p : Pattern} {rows : List Bindings} (h : m.Rows front rows)
    (discerned : m.Discerned [] (front ++ p :: rest)) : m.Uniform p rows where
  same b hb c hc v _ := (h.bound b hb v).trans (h.bound c hc v).symm
  named b hb n _ := by
    cases bound : b.lookup (.var (.anon n)) with
    | none => rfl
    | some x =>
        obtain ⟨_, no, -⟩ := (h.bound b hb _).1 ⟨x, bound⟩
        cases no
  apart scan b hb v k attr bound := by
    refine discerned front p rest rfl ?_ v k attr (h.offered b hb v k bound)
    rintro ⟨n, here, -, before⟩
    cases rows with
    | nil => cases hb
    | cons first rows =>
        obtain ⟨x, found⟩ := (h.bound first List.mem_cons_self (.named n)).2 ⟨n, rfl, before⟩
        exact joinVar_of_bound attr rfl found here scan

/-- A keyword on a row was there before the step, or a fact offers it to the pattern. -/
theorem Steps.keyword {p : Pattern} {b b' : Bindings} (h : m.Steps p b b') (src : m.Sourced b) {v : Var}
    {k : String} (bound : b'.lookup (.var v) = some (.keyword k)) :
    b.lookup (.var v) = some (.keyword k) ∨ m.Offered [p] v (.keyword k) := by
  unfold Steps at h
  split at h
  case h_1 value stored =>
      obtain ⟨q, id, -, -, found⟩ := storedValue_some stored
      obtain ⟨i, rfl⟩ := src.hidden q id value found
      have whole : m.matchComponents [(p.value, .integer i)] b = some b' := by
        simp only [matchComponents, h, Option.bind_some]
      rcases m.matchComponents_value whole bound with old | mem
      · exact .inl old
      · cases congrArg Prod.snd (List.mem_singleton.1 mem)
  case h_2 =>
      obtain ⟨f, mem, cand, matched, -, ext⟩ := h
      rw [ext.var] at bound
      rcases Option.or_eq_some_iff.1 bound with old | ⟨-, found⟩
      · exact .inl old
      · exact .inr ⟨p, List.mem_singleton_self p, f, mem, cand, matched, found⟩

theorem Offered.mono {ps qs : List Pattern} (sub : ps ⊆ qs) {v : Var} {x : Value} (h : m.Offered ps v x) :
    m.Offered qs v x :=
  h.imp fun _ offers => ⟨sub offers.1, offers.2⟩

theorem Rows.join {front rest : List Pattern} {p : Pattern} {rows : List Bindings} (h : m.Rows front rows)
    (discerned : m.Discerned [] (front ++ p :: rest)) : m.Rows (front ++ [p]) (m.joinWithPattern rows p) where
  bound b' hb' v := by
    obtain ⟨b, hb, step⟩ := (h.uniform discerned).steps_of_mem hb'
    rw [step.bound, h.bound b hb]
    constructor
    · rintro (⟨n, rfl, q, hq, mentions⟩ | ⟨n, rfl, mentions⟩)
      · exact ⟨n, rfl, q, List.mem_append_left _ hq, mentions⟩
      · exact ⟨n, rfl, p, List.mem_append_right _ (List.mem_singleton_self p), mentions⟩
    · rintro ⟨n, rfl, q, hq, mentions⟩
      rcases List.mem_append.1 hq with hq | hq
      · exact .inl ⟨n, rfl, q, hq, mentions⟩
      · cases List.mem_singleton.1 hq
        exact .inr ⟨n, rfl, mentions⟩
  sourced b' hb' := by
    obtain ⟨b, hb, step⟩ := (h.uniform discerned).steps_of_mem hb'
    exact step.sourced (h.sourced b hb)
  offered b' hb' v k bound := by
    obtain ⟨b, hb, step⟩ := (h.uniform discerned).steps_of_mem hb'
    rcases step.keyword (h.sourced b hb) bound with old | new
    · exact (h.offered b hb v k old).mono (List.subset_append_left _ _)
    · exact new.mono (List.subset_append_right _ _)

/-- Joining pattern after pattern follows the chains from the rows. -/
theorem Rows.chain_of_mem {front : List Pattern} {rows : List Bindings} (h : m.Rows front rows)
    {ps : List Pattern} (discerned : m.Discerned [] (front ++ ps)) {b' : Bindings}
    (mem : b' ∈ ps.foldl m.joinWithPattern rows) : ∃ b ∈ rows, m.Chain ps b b' := by
  induction ps generalizing front rows with
  | nil => exact ⟨b', mem, fun _ => rfl⟩
  | cons p ps ih =>
      have discerned' : m.Discerned [] ((front ++ [p]) ++ ps) := by rwa [List.append_assoc]
      obtain ⟨b₁, mem₁, chain⟩ := ih (h.join discerned) discerned' mem
      obtain ⟨b, hb, step⟩ := (h.uniform discerned).steps_of_mem mem₁
      exact ⟨b, hb, b₁, step, chain⟩

theorem Rows.mem_of_chain {front : List Pattern} {rows : List Bindings} (h : m.Rows front rows)
    {ps : List Pattern} (discerned : m.Discerned [] (front ++ ps)) {b b' : Bindings} (hb : b ∈ rows)
    (chain : m.Chain ps b b') : ∃ b'' ∈ ps.foldl m.joinWithPattern rows, SameLookups b'' b' := by
  induction ps generalizing front rows b with
  | nil => exact ⟨b, hb, chain⟩
  | cons p ps ih =>
      have discerned' : m.Discerned [] ((front ++ [p]) ++ ps) := by rwa [List.append_assoc]
      obtain ⟨b₁, step, rest⟩ := chain
      obtain ⟨b₂, mem, same⟩ := (h.uniform discerned).mem_of_steps hb step
      exact ih (h.join discerned) discerned' mem (rest.congr (SameLookups_symm same))

/-- The matches of one pattern are what it makes of the empty row. -/
theorem steps_nil {p : Pattern} {b : Bindings} :
    m.Steps p [] b ↔ ∃ cand ∈ m.matchPattern p, SameLookups cand b := by
  have stored : m.storedValue p [] = none := by
    unfold storedValue
    split
    · rfl
    · cases m.resolvedEntity [] p.entity with
      | none => rfl
      | some id => rfl
    · rfl
  rw [Steps, stored]
  constructor
  · rintro ⟨f, mem, cand, matched, -, ext⟩
    refine ⟨cand, List.mem_filterMap.2 ⟨f, mem, matched⟩, fun key => ?_⟩
    cases key with
    | var v => rw [ext.var, List.lookup_nil, Option.none_or]
    | hidden q id => rw [ext.hidden, List.lookup_nil, Option.or_none]
  · rintro ⟨cand, found, same⟩
    obtain ⟨f, mem, matched⟩ := List.mem_filterMap.1 found
    refine ⟨f, mem, cand, matched, (fun _ _ _ no => nomatch no), ?_, ?_⟩
    · intro v
      rw [← same, List.lookup_nil, Option.none_or]
    · intro q id
      rw [← same, List.lookup_nil, Option.or_none]

theorem rows_matchPattern (p : Pattern) : m.Rows [p] (m.matchPattern p) where
  bound b hb v := by
    obtain ⟨f, mem, matched⟩ := List.mem_filterMap.1 hb
    rw [m.matchFact_bound matched v]
    simp
  sourced b hb := by
    obtain ⟨f, mem, matched⟩ := List.mem_filterMap.1 hb
    exact sourced_of_matchFact mem matched
  offered b hb v k bound := by
    obtain ⟨f, mem, matched⟩ := List.mem_filterMap.1 hb
    exact ⟨p, List.mem_singleton_self p, f, mem, b, matched, bound⟩

/-- The rows of several patterns are the chains from the empty row. -/
theorem chain_of_mem_matchPatterns {ps : List Pattern} (discerned : m.Discerned [] ps) {b : Bindings}
    (h : b ∈ m.matchPatterns ps) : m.Chain ps [] b := by
  cases ps with
  | nil =>
      cases List.mem_singleton.1 h
      exact fun _ => rfl
  | cons p ps =>
      obtain ⟨b₁, mem, chain⟩ := (rows_matchPattern p).chain_of_mem discerned h
      exact ⟨b₁, steps_nil.2 ⟨b₁, mem, fun _ => rfl⟩, chain⟩

theorem mem_matchPatterns_of_chain {ps : List Pattern} (discerned : m.Discerned [] ps) {b : Bindings}
    (h : m.Chain ps [] b) : ∃ b' ∈ m.matchPatterns ps, SameLookups b' b := by
  cases ps with
  | nil => exact ⟨[], List.mem_singleton_self _, h⟩
  | cons p ps =>
      obtain ⟨b₁, step, chain⟩ := h
      obtain ⟨cand, mem, same⟩ := steps_nil.1 step
      exact (rows_matchPattern p).mem_of_chain discerned mem (chain.congr (SameLookups_symm same))

end PatternMatcher
end Minigraf
