import Minigraf.Query.Lexemes

/-!
`parse_edn` of `src/query/datalog/parser.rs`: the tokens of a text, and the value they are
read as. A value is read with a budget of levels, which is what `depth` leaves of
`MAX_RECURSION_DEPTH`.
-/

namespace Minigraf

def maxRecursionDepth : Nat := 100

theorem except_bind_ok {ε α β : Type} {x : Except ε α} {f : α → Except ε β} {b : β} (run : x >>= f = .ok b) :
    ∃ a, x = .ok a ∧ f a = .ok b := by
  cases x with
  | error e => cases run
  | ok a => exact ⟨a, rfl, run⟩

/-! ## Tokens -/

def tokenReader (env : ReaderEnv) : Reader ReadError Char (Option Token) where
  read := readToken env
  leaves := readToken_leaves

def tokenize (env : ReaderEnv) (input : List Char) : Except ReadError (List Token) := do
  let (tokens, _) ← (tokenReader env).loop (fun _ => false) none input
  pure tokens.reduceOption

/-! ## Values -/

/-- A symbol, kept apart by its first characters. -/
def symbolValue (s : String) : EdnValue :=
  match s.toList with
  | '?' :: '_' :: name => .var (.anon (.ofList name))
  | '?' :: name => .var (.named (.ofList name))
  | ['_'] => .underscore
  | _ => .symbol s

/-- The values that are one token. -/
def atomValue : Token → Option EdnValue
  | .keyword k => some (.keyword k)
  | .symbol s => some (symbolValue s)
  | .string s => some (.string s)
  | .integer i => some (.integer i)
  | .float f => some (.float f)
  | .boolean b => some (.boolean b)
  | .nil => some .nil
  | .bindSlot name => some (.bindSlot name)
  | _ => none

def parseNext (value : Reader ReadError Token EdnValue) : List Token → Except ReadError (EdnValue × List Token)
  | [] => .error .prs001
  | t :: rest => value.read t rest

def parseEntry (value : Reader ReadError Token EdnValue) (t : Token) (rest : List Token) :
    Except ReadError ((EdnValue × EdnValue) × List Token) := do
  let (key, rest) ← value.read t rest
  let (val, rest) ← parseNext value rest
  pure ((key, val), rest)

theorem parseEntry_ok {value : Reader ReadError Token EdnValue} {t : Token} {rest left : List Token}
    {entry : EdnValue × EdnValue} (run : parseEntry value t rest = .ok (entry, left)) :
    ∃ t' rest', value.read t rest = .ok (entry.1, t' :: rest') ∧ value.read t' rest' = .ok (entry.2, left) := by
  obtain ⟨⟨key, mid⟩, first, run⟩ := except_bind_ok run
  obtain ⟨⟨val, last⟩, second, run⟩ := except_bind_ok run
  cases run
  cases mid with
  | nil => cases second
  | cons t' rest' => exact ⟨t', rest', first, second⟩

theorem parseEntry_of_read {value : Reader ReadError Token EdnValue} {t t' : Token} {rest rest' left : List Token}
    {key val : EdnValue} (first : value.read t rest = .ok (key, t' :: rest')) (second : value.read t' rest' = .ok (val, left)) :
    parseEntry value t rest = .ok ((key, val), left) := by
  rw [parseEntry, first]
  simp only [bind, Except.bind, parseNext, second]
  rfl

def entryReader (value : Reader ReadError Token EdnValue) : Reader ReadError Token (EdnValue × EdnValue) where
  read := parseEntry value
  leaves run := by
    obtain ⟨t', rest', first, second⟩ := parseEntry_ok run
    exact ((value.leaves second).trans (List.suffix_cons t' rest')).trans (value.leaves first)

def parseTagged (env : ReaderEnv) (tag : String) (rest : List Token) : Except ReadError (EdnValue × List Token) :=
  if tag = "uuid" then
    match rest with
    | .string uuidStr :: rest =>
        match env.parseUuid uuidStr with
        | some id => .ok (.uuid id, rest)
        | none => .error .prs072
    | _ => .error .prs071
  else .error (.prs073 tag)

def parseValueInner (env : ReaderEnv) (value : Reader ReadError Token EdnValue) (t : Token) (rest : List Token) :
    Except ReadError (EdnValue × List Token) :=
  match t with
  | .leftParen => do
      let (elements, rest) ← value.loop (fun t => decide (t = .rightParen)) (some .prs005) rest
      pure (.list elements, rest)
  | .leftBracket => do
      let (elements, rest) ← value.loop (fun t => decide (t = .rightBracket)) (some .prs004) rest
      pure (.vector elements, rest)
  | .leftBrace => do
      let (pairs, rest) ← (entryReader value).loop (fun t => decide (t = .rightBrace)) (some .prs006) rest
      pure (.map pairs, rest)
  | .taggedLiteral tag => parseTagged env tag rest
  | t =>
      match atomValue t with
      | some v => .ok (v, rest)
      | none => .error (.prs003 t)

/-- What a value is read from. -/
inductive ReadsValue (env : ReaderEnv) (value : Reader ReadError Token EdnValue) : Token → List Token → EdnValue → List Token → Prop
  | atom {t : Token} {rest : List Token} {v : EdnValue} : atomValue t = some v → ReadsValue env value t rest v rest
  | uuid {s : String} {rest : List Token} {id : EntityId} : env.parseUuid s = some id →
      ReadsValue env value (.taggedLiteral "uuid") (.string s :: rest) (.uuid id) rest
  | list {rest left : List Token} {elements : List EdnValue} :
      value.Loop (fun t => decide (t = .rightParen)) (some .prs005) rest elements left →
        ReadsValue env value .leftParen rest (.list elements) left
  | vector {rest left : List Token} {elements : List EdnValue} :
      value.Loop (fun t => decide (t = .rightBracket)) (some .prs004) rest elements left →
        ReadsValue env value .leftBracket rest (.vector elements) left
  | map {rest left : List Token} {pairs : List (EdnValue × EdnValue)} :
      (entryReader value).Loop (fun t => decide (t = .rightBrace)) (some .prs006) rest pairs left →
        ReadsValue env value .leftBrace rest (.map pairs) left

section

variable {env : ReaderEnv} {value : Reader ReadError Token EdnValue} {t : Token} {rest left : List Token} {v : EdnValue}

theorem parseValueInner_ok (run : parseValueInner env value t rest = .ok (v, left)) : ReadsValue env value t rest v left := by
  cases t with
  | leftParen =>
      obtain ⟨⟨elements, last⟩, loop, run⟩ := except_bind_ok run
      cases run
      exact .list (Reader.loop_ok loop)
  | leftBracket =>
      obtain ⟨⟨elements, last⟩, loop, run⟩ := except_bind_ok run
      cases run
      exact .vector (Reader.loop_ok loop)
  | leftBrace =>
      obtain ⟨⟨pairs, last⟩, loop, run⟩ := except_bind_ok run
      cases run
      exact .map (Reader.loop_ok loop)
  | taggedLiteral tag =>
      change parseTagged env tag rest = _ at run
      unfold parseTagged at run
      by_cases known : tag = "uuid"
      · rw [if_pos known] at run
        rw [known]
        split at run
        · next s rest' =>
            cases id : env.parseUuid s with
            | none =>
                rw [id] at run
                cases run
            | some id' =>
                rw [id] at run
                cases run
                exact .uuid id
        · cases run
      · rw [if_neg known] at run
        cases run
  | rightParen | rightBracket | rightBrace => cases run
  | keyword k | symbol s | string s | integer i | float f | boolean b | nil | bindSlot name =>
      cases run
      exact .atom rfl

theorem ReadsValue.run (parsed : ReadsValue env value t rest v left) : parseValueInner env value t rest = .ok (v, left) := by
  cases parsed with
  | atom own =>
      cases t with
      | keyword _ | symbol _ | string _ | integer _ | float _ | boolean _ | nil | bindSlot _ =>
          cases own
          rfl
      | leftParen | rightParen | leftBracket | rightBracket | leftBrace | rightBrace | taggedLiteral _ => cases own
  | @uuid s _ id' id =>
      have tagged : parseTagged env "uuid" (.string s :: left) = .ok (.uuid id', left) := by
        rw [parseTagged, if_pos rfl, id]
      exact tagged
  | list loop =>
      rw [parseValueInner, loop.run]
      rfl
  | vector loop =>
      rw [parseValueInner, loop.run]
      rfl
  | map loop =>
      rw [parseValueInner, loop.run]
      rfl

theorem parseValueInner_leaves (run : parseValueInner env value t rest = .ok (v, left)) : left <:+ rest := by
  cases parseValueInner_ok run with
  | atom => exact List.suffix_refl _
  | uuid => exact List.suffix_cons _ _
  | list loop | vector loop => exact loop.leaves
  | map loop => exact loop.leaves

end

/-- A value of at most so many levels. -/
def parseValue (env : ReaderEnv) : Nat → Reader ReadError Token EdnValue
  | 0 => ⟨fun _ _ => .error (.int010 maxRecursionDepth), nofun⟩
  | depth + 1 => ⟨parseValueInner env (parseValue env depth), parseValueInner_leaves⟩

def parseEdn (env : ReaderEnv) (input : List Char) : Except ReadError EdnValue := do
  let tokens ← tokenize env input
  let (value, rest) ← parseNext (parseValue env maxRecursionDepth) tokens
  match rest with
  | [] => pure value
  | token :: _ => .error (.prs077 token)

theorem parseValue_ok_iff {env : ReaderEnv} {depth : Nat} {t : Token} {rest left : List Token} {v : EdnValue} :
    (parseValue env depth).read t rest = .ok (v, left) ↔
      ∃ below, depth = below + 1 ∧ ReadsValue env (parseValue env below) t rest v left := by
  cases depth with
  | zero =>
      constructor
      · intro run
        cases run
      · intro ⟨_, none_, _⟩
        cases none_
  | succ below =>
      constructor
      · intro run
        exact ⟨below, rfl, parseValueInner_ok run⟩
      · intro ⟨_, same, parsed⟩
        cases same
        exact parsed.run

theorem parseEdn_ok_iff {env : ReaderEnv} {input : List Char} {v : EdnValue} :
    parseEdn env input = .ok v ↔
      ∃ t rest, tokenize env input = .ok (t :: rest) ∧ (parseValue env maxRecursionDepth).read t rest = .ok (v, []) := by
  constructor
  · intro run
    obtain ⟨tokens, lexed, run⟩ := except_bind_ok run
    obtain ⟨⟨v', left⟩, parsed, run⟩ := except_bind_ok run
    cases tokens with
    | nil => cases parsed
    | cons t rest =>
        cases left with
        | nil =>
            cases run
            exact ⟨t, rest, lexed, parsed⟩
        | cons _ _ => cases run
  · intro ⟨t, rest, lexed, parsed⟩
    rw [parseEdn, lexed]
    simp only [bind, Except.bind, parseNext, parsed]
    rfl

end Minigraf
