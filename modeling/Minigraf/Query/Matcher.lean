import Minigraf.Query.Expr

/-!
The pattern matcher of `src/query/datalog/matcher.rs` over a slice of facts. Its indexes
are empty there, so a hint never narrows a scan and is left out.
-/

namespace Minigraf

/-- A matcher over a slice: the facts, and the time `:db/valid-at` stands for, if any. -/
structure PatternMatcher where
  env : Env
  facts : List Fact
  validAt : Option Int64

/-- The value of `:db/valid-at`. -/
def PatternMatcher.validAtValue (m : PatternMatcher) : Value := m.validAt.elim .null .integer

/-- The value a pseudo-attribute reads off a fact. -/
def PseudoAttr.ofFact (validAtValue : Value) (f : Fact) : PseudoAttr → Value
  | .validFrom => .integer f.validFrom
  | .validTo => .integer f.validTo
  | .txCount => .integer f.txCount.toInt64
  | .txId => .integer f.txId.toInt64
  | .validAt => validAtValue

/-- `value_to_edn` of the matcher. -/
def valueToEdn : Value → EdnValue
  | .string s => .string s
  | .integer i => .integer i
  | .float f => .float f
  | .boolean b => .boolean b
  | .ref id => .uuid id
  | .keyword k => .keyword k
  | .null => .nil

/-- `edn_to_value`, without the text of its error. -/
def ednToValue : EdnValue → Option Value
  | .string s => some (.string s)
  | .integer i => some (.integer i)
  | .float f => some (.float f)
  | .boolean b => some (.boolean b)
  | .keyword k => some (.keyword k)
  | .uuid id => some (.ref id)
  | .nil => some .null
  | _ => none

/-- `edn_to_entity_id`, without the text of its error. -/
def ednToEntityId (env : Env) : EdnValue → Option EntityId
  | .keyword k => some (keywordId env k)
  | .uuid id => some id
  | _ => none

/-- A bound variable replaced by its value, anything else as it is. -/
def substituteWith (toEdn : Value → EdnValue) (bindings : Bindings) (component : EdnValue) : EdnValue :=
  match component with
  | .var v =>
      match bindings.lookup (.var v) with
      | some value => toEdn value
      | none => component
  | _ => component

def substitutePatternWith (toEdn : Value → EdnValue) (bindings : Bindings) (p : Pattern) : Pattern where
  entity := substituteWith toEdn bindings p.entity
  attr :=
    match p.attr with
    | .real edn => .real (substituteWith toEdn bindings edn)
    | .pseudo pseudo => .pseudo pseudo
  value := substituteWith toEdn bindings p.value

def applyBindingToComponent (bindings : Bindings) (component : EdnValue) : EdnValue :=
  substituteWith valueToEdn bindings component

def applyBindingsToPattern (bindings : Bindings) (p : Pattern) : Pattern :=
  substitutePatternWith valueToEdn bindings p

namespace PatternMatcher

variable (m : PatternMatcher)

/-- Whether a constant of a pattern stands for a value. -/
def constantMatches (component : EdnValue) (value : Value) : Bool :=
  match component, value with
  | .keyword k, .keyword fk => decide (k = fk)
  | .keyword k, .ref id => decide (keywordId m.env k = id)
  | .string s, .string fs => decide (s = fs)
  | .integer i, .integer fi => decide (i = fi)
  | .float f, .float ff => f.eq ff
  | .boolean b, .boolean fb => decide (b = fb)
  | .uuid u, .ref id => decide (u = id)
  | .uuid u, .keyword k => decide (u = keywordId m.env k)
  | .nil, .null => true
  | _, _ => false

def matchComponent (component : EdnValue) (value : Value) (bindings : Bindings) : Option Bindings :=
  match component with
  | .underscore => some bindings
  | .var (.anon _) => some bindings
  | .var v =>
      match bindings.lookup (.var v) with
      | some existing => if existing.eq value then some bindings else none
      | none => some ((.var v, value) :: bindings)
  | _ => if m.constantMatches component value then some bindings else none

/-- The hidden keys a matched fact leaves behind. -/
def hiddenKeys (f : Fact) : Bindings :=
  [.validFrom, .validTo, .txCount, .txId].map fun p =>
    (.hidden p f.entity, PseudoAttr.ofFact .null f p)

def matchFactAgainstPattern (f : Fact) (p : Pattern) : Option Bindings := do
  let bindings ← m.matchComponent p.entity (.ref f.entity) []
  match p.attr with
  | .real edn =>
      let bindings ← m.matchComponent edn (.keyword f.attr) bindings
      let bindings ← m.matchComponent p.value f.value bindings
      pure (hiddenKeys f ++ bindings)
  | .pseudo pseudo => m.matchComponent p.value (pseudo.ofFact m.validAtValue f) bindings

def matchPattern (p : Pattern) : List Bindings := m.facts.filterMap (m.matchFactAgainstPattern · p)

/-! ## Joining -/

/-- Visible bindings of the new fact that the row contradicts. -/
def scanConsistent (existing additional : Bindings) : Bool :=
  additional.all fun (key, value) =>
    key.isHidden || (existing.lookup key).all fun existingValue => existingValue.eq value

def matchPatternWithBindingsScan (p : Pattern) (existing : Bindings) : List Bindings :=
  m.facts.filterMap fun f => do
    let additional ← m.matchFactAgainstPattern f (applyBindingsToPattern existing p)
    if scanConsistent existing additional then some (additional ++ existing) else none

/-- The entity a component stands for on a row. -/
def resolvedEntity (existing : Bindings) (component : EdnValue) : Option EntityId :=
  match applyBindingToComponent existing component with
  | .uuid u => some u
  | .keyword k => some (keywordId m.env k)
  | _ => none

/-- What a per-fact pseudo-attribute reads off the hidden keys of a row: the fact the row
stands on, where there is one. -/
def storedValue (p : Pattern) (existing : Bindings) : Option Value :=
  match p.attr with
  | .pseudo .validAt => none
  | .pseudo pseudo => do
      let id ← m.resolvedEntity existing p.entity
      existing.lookup (.hidden pseudo id)
  | .real _ => none

def matchPatternWithBindings (p : Pattern) (existing : Bindings) : List Bindings :=
  match m.storedValue p existing with
  | some value => (m.matchComponent p.value value existing).toList
  | none => m.matchPatternWithBindingsScan p existing

/-- A variable component that a row binds. -/
def boundVariable (existing : Bindings) (component : EdnValue) : Option Key :=
  component.asVariable.bind fun v => if (existing.lookup (.var v)).isSome then some (.var v) else none

/-- The variable to join on, as the first row has it. -/
def joinVar (existingBindings : List Bindings) (p : Pattern) : Option Key :=
  match p.attr with
  | .pseudo _ => none
  | .real _ => do
      let first ← existingBindings.head?
      (boundVariable first p.entity).or (boundVariable first p.value)

/-- A row and a candidate that meet: the hidden keys are the candidate's, the rest stays
as the row has it. -/
def mergeCandidate (existing candidate : Bindings) : Option Bindings :=
  let consistent := candidate.all fun (key, value) =>
    key.isHidden || (existing.lookup key).all fun merged => Meets m.env merged value
  if consistent then some (candidate.filter (·.1.isHidden) ++ existing ++ candidate) else none

def probe (p : Pattern) (candidates : List Bindings) (jvar : Key) (existing : Bindings) : List Bindings :=
  match existing.lookup jvar with
  | none => m.matchPatternWithBindings p existing
  | some probeVal =>
      (candidates.filter fun candidate => (candidate.lookup jvar).any fun value =>
        Meets m.env value probeVal).filterMap (m.mergeCandidate existing)

def joinWithPattern (existingBindings : List Bindings) (p : Pattern) : List Bindings :=
  match joinVar existingBindings p with
  | none => existingBindings.flatMap (m.matchPatternWithBindings p)
  | some jvar => existingBindings.flatMap (m.probe p (m.matchPattern p) jvar)

def matchPatterns : List Pattern → List Bindings
  | [] => [[]]
  | first :: rest => rest.foldl m.joinWithPattern (m.matchPattern first)

def matchPatternsSeeded (patterns : List Pattern) (seed : List Bindings) : List Bindings :=
  patterns.foldl m.joinWithPattern seed

/-- `match_with_hint_seeded`: one empty row is the start of a plan. -/
def matchWithHintSeeded (seed : List Bindings) (p : Pattern) : List Bindings :=
  if seed = [[]] then m.matchPattern p else m.joinWithPattern seed p

end PatternMatcher
end Minigraf
