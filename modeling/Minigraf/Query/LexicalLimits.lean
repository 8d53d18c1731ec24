import Minigraf.Query.Truncation

/-!
The limits of the reader, which hold of all it accepts but for three gaps: a string goes on
behind its limit with escapes, a character of several bytes is taken where one byte is left,
and a string is closed by the end of the input.
-/

namespace Minigraf

/-! ## What a value holds -/

mutual

def EdnValue.depth : EdnValue → Nat
  | .vector items | .list items => EdnValue.depthItems items + 1
  | .map entries => EdnValue.depthEntries entries + 1
  | _ => 1

def EdnValue.depthItems : List EdnValue → Nat
  | [] => 0
  | v :: vs => max v.depth (EdnValue.depthItems vs)

def EdnValue.depthEntries : List (EdnValue × EdnValue) → Nat
  | [] => 0
  | (k, v) :: es => max (max k.depth v.depth) (EdnValue.depthEntries es)

end

/-- The strings and names in a value, as tokens. -/
def EdnValue.atomWords (v : EdnValue) : List Token :=
  match v.asSymbol with
  | some s => [.symbol s]
  | none =>
      match v with
      | .keyword k => [.keyword k]
      | .string s => [.string s]
      | .bindSlot name => [.bindSlot name]
      | _ => []

mutual

def EdnValue.words : EdnValue → List Token
  | .vector items | .list items => EdnValue.wordsItems items
  | .map entries => EdnValue.wordsEntries entries
  | v => v.atomWords

def EdnValue.wordsItems : List EdnValue → List Token
  | [] => []
  | v :: vs => v.words ++ EdnValue.wordsItems vs

def EdnValue.wordsEntries : List (EdnValue × EdnValue) → List Token
  | [] => []
  | (k, v) :: es => k.words ++ v.words ++ EdnValue.wordsEntries es

end

def Token.Within : Token → Prop
  | .string s => s.utf8ByteSize ≤ maxStringLength
  | .keyword k => k.utf8ByteSize ≤ maxKeywordLength
  | .symbol s => s.utf8ByteSize ≤ maxSymbolLength
  | .taggedLiteral tag => tag.utf8ByteSize ≤ maxSymbolLength
  | .bindSlot name => name.utf8ByteSize ≤ maxSymbolLength
  | _ => True

/-! ## What a text holds -/

/-- A turn of `tokenize` begins here. -/
inductive At (env : ReaderEnv) : List Char → List Char → Prop
  | here {input : List Char} : At env input input
  | later {c : Char} {rest left place : List Char} {t : Option Token} : readToken env c rest = .ok (t, left) → At env left place →
      At env (c :: rest) place

/-- The pieces of a literal behind its opening quote. -/
def literalPieces : List Char → List Piece
  | [] => []
  | c :: rest =>
      if c = '"' then []
      else if c = '\\' then
        match rest with
        | [] => []
        | escaped :: rest => .escape escaped :: literalPieces rest
      else .plain c :: literalPieces rest

/-- Behind its opening quote a literal comes to a quote of its own. -/
def isClosed : List Char → Bool
  | [] => false
  | c :: rest =>
      if c = '"' then true
      else if c = '\\' then
        match rest with
        | [] => false
        | _ :: rest => isClosed rest
      else isClosed rest

def LiteralsClosed (env : ReaderEnv) (input : List Char) : Prop :=
  ∀ c rest, At env input (c :: rest) → charClass env c = .quote → isClosed rest = true

/-- What is claimed of an input that is read as this value. -/
structure WithinLimits (env : ReaderEnv) (input : List Char) (v : EdnValue) : Prop where
  words : ∀ t ∈ v.words, t.Within
  tags : ∀ tokens, tokenize env input = .ok tokens → ∀ tag, .taggedLiteral tag ∈ tokens → (Token.taggedLiteral tag).Within
  depth : v.depth ≤ maxRecursionDepth
  closed : LiteralsClosed env input

/-! ## The gaps -/

def Piece.isEscape : Piece → Bool
  | .plain _ => false
  | .escape _ => true

/-- An escape, or a character of several bytes, ends behind the limit. -/
def OverrunsString (rest : List Char) : Prop :=
  ∃ front piece back, literalPieces rest = front ++ piece :: back ∧ (piece.isEscape = true ∨ 1 < piece.value.utf8Size) ∧
    maxStringLength < byteLength (front.map Piece.value) + piece.value.utf8Size

/-- The last character of a name has several bytes and stands across the limit. -/
def Straddles (limit : Nat) (lead name : List Char) : Prop :=
  ∃ front c, name = front ++ [c] ∧ 1 < c.utf8Size ∧ byteLength (lead ++ front) < limit ∧
    limit < byteLength (lead ++ front) + c.utf8Size

def OverrunsAt (env : ReaderEnv) (c : Char) (rest : List Char) : Prop :=
  match charClass env c with
  | .quote => isClosed rest = false ∨ OverrunsString rest
  | .colon => Straddles maxKeywordLength [':'] (rest.takeWhile (keywordPart env))
  | .hash => Straddles maxSymbolLength [] (rest.takeWhile (tagPart env))
  | .minus => Stops env.isNumeric rest ∧ Straddles maxSymbolLength ['-'] (rest.takeWhile (symbolPart env))
  | .symbol => Straddles maxSymbolLength [] ((c :: rest).takeWhile (symbolPart env))
  | .dollar => Straddles maxSymbolLength [] (rest.takeWhile (slotPart env))
  | _ => False

def Overruns (env : ReaderEnv) (input : List Char) : Prop := ∃ c rest, At env input (c :: rest) ∧ OverrunsAt env c rest

/-! ## Lengths -/

theorem byteLength_append (cs cs' : List Char) : byteLength (cs ++ cs') = byteLength cs + byteLength cs' := by
  rw [byteLength, List.map_append, List.sum_append]
  rfl

theorem byteLength_cons (c : Char) (cs : List Char) : byteLength (c :: cs) = c.utf8Size + byteLength cs := List.sum_cons

theorem utf8ByteSize_ofList (cs : List Char) : (String.ofList cs).utf8ByteSize = byteLength cs := by
  induction cs using List.reverseRecOn with
  | nil => rfl
  | append_singleton cs c ih =>
      have push : String.ofList (cs ++ [c]) = (String.ofList cs).push c := by
        apply String.toList_injective
        simp
      rw [push, String.utf8ByteSize_push, ih, byteLength_append]
      rfl

theorem Straddles.over {limit : Nat} {lead name : List Char} (straddles : Straddles limit lead name) :
    limit < byteLength (lead ++ name) := by
  obtain ⟨front, c, rfl, _, _, past⟩ := straddles
  rw [← List.append_assoc, byteLength_append]
  exact past

theorem TakesName.over_iff {part : Char → Bool} {limit : Nat} {lead name : List Char} (takes : TakesName part limit lead name)
    (fits : byteLength lead ≤ limit) : limit < byteLength (lead ++ name) ↔ Straddles limit lead name := by
  refine ⟨?_, Straddles.over⟩
  intro past
  induction name generalizing lead with
  | nil =>
      rw [List.append_nil] at past
      omega
  | cons c name ih =>
      obtain ⟨_, short, takes⟩ := takes
      have split : lead ++ c :: name = lead ++ [c] ++ name := List.append_cons lead c name
      by_cases still : byteLength (lead ++ [c]) ≤ limit
      · rw [split] at past
        obtain ⟨front, d, same, wide, before, across⟩ := ih takes still past
        refine ⟨c :: front, d, ?_, wide, ?_, ?_⟩
        · rw [same]
          rfl
        · rwa [List.append_cons]
        · rwa [List.append_cons]
      · have none_ : name = [] := by
          cases name with
          | nil => rfl
          | cons d name => exact absurd takes.2.1 (by omega)
        have one : byteLength (lead ++ [c]) = byteLength lead + c.utf8Size := byteLength_append lead [c]
        refine ⟨[], c, ?_, ?_, ?_, ?_⟩
        · rw [none_]
          rfl
        · omega
        · rwa [List.append_nil]
        · rw [List.append_nil]
          omega

theorem TakesName.takeWhile {part : Char → Bool} {limit : Nat} {lead name rest : List Char} (takes : TakesName part limit lead name)
    (stops : Stops part rest) : (name ++ rest).takeWhile part = name := by
  induction name generalizing lead with
  | nil =>
      cases rest with
      | nil => rfl
      | cons c rest => exact List.takeWhile_cons_of_neg (Bool.eq_false_iff.mp (stops_cons.mp stops))
  | cons c name ih => rw [List.cons_append, List.takeWhile_cons_of_pos takes.1, ih takes.2.2]

/-! ## Strings -/

theorem literal_of_takes {string : List Char} {pieces : List Piece} (takes : TakesString string pieces) {tail rest : List Char}
    (ends : EndsLiteral tail rest) : literalPieces (pieces.flatMap Piece.text ++ tail) = pieces ∧
      (isClosed (pieces.flatMap Piece.text ++ tail) = true ↔ tail = '"' :: rest) := by
  induction pieces generalizing string with
  | nil =>
      rw [List.flatMap_nil, List.nil_append]
      obtain closed | ⟨_, none_ | cut⟩ := ends
      · rw [closed]
        exact ⟨by rw [literalPieces.eq_def]; exact if_pos rfl, iff_of_true (by rw [isClosed.eq_def]; exact if_pos rfl) rfl⟩
      · rw [none_]
        exact ⟨rfl, iff_of_false nofun nofun⟩
      · rw [cut]
        exact ⟨rfl, iff_of_false nofun nofun⟩
  | cons piece pieces ih =>
      cases piece with
      | plain c =>
          obtain ⟨notQuote, notBackslash, _, takes⟩ := takes
          have ⟨same, closed⟩ := ih takes
          have text : (Piece.plain c :: pieces).flatMap Piece.text ++ tail = c :: (pieces.flatMap Piece.text ++ tail) := rfl
          rw [text, literalPieces.eq_def, isClosed.eq_def]
          simp only [notQuote, notBackslash, if_false]
          exact ⟨congrArg _ same, closed⟩
      | escape c =>
          have ⟨same, closed⟩ := ih takes
          have text : (Piece.escape c :: pieces).flatMap Piece.text ++ tail =
              '\\' :: c :: (pieces.flatMap Piece.text ++ tail) := rfl
          rw [text, literalPieces.eq_def, isClosed.eq_def]
          exact ⟨congrArg (Piece.escape c :: ·) same, closed⟩

theorem TakesString.over_iff {string : List Char} {pieces : List Piece} (takes : TakesString string pieces)
    (fits : byteLength string ≤ maxStringLength) : maxStringLength < byteLength (string ++ pieces.map Piece.value) ↔
      ∃ front piece back, pieces = front ++ piece :: back ∧ (piece.isEscape = true ∨ 1 < piece.value.utf8Size) ∧
        maxStringLength < byteLength (string ++ front.map Piece.value) + piece.value.utf8Size := by
  constructor
  · intro past
    induction pieces generalizing string with
    | nil =>
        rw [List.map_nil, List.append_nil] at past
        omega
    | cons piece pieces ih =>
        have split : string ++ (piece :: pieces).map Piece.value = string ++ [piece.value] ++ pieces.map Piece.value :=
          List.append_cons _ _ _
        have one : byteLength (string ++ [piece.value]) = byteLength string + piece.value.utf8Size := byteLength_append _ _
        by_cases still : byteLength (string ++ [piece.value]) ≤ maxStringLength
        · rw [split] at past
          have later : TakesString (string ++ [piece.value]) pieces := by
            cases piece with
            | plain c => exact takes.2.2.2
            | escape c => exact takes
          obtain ⟨front, p, back, same, kind, across⟩ := ih later still past
          refine ⟨piece :: front, p, back, congrArg (piece :: ·) same, kind, ?_⟩
          rwa [List.map_cons, List.append_cons]
        · refine ⟨[], piece, pieces, rfl, ?_, ?_⟩
          · cases piece with
            | plain c =>
                have short := takes.2.2.1
                have size : (Piece.plain c).value.utf8Size = c.utf8Size := rfl
                refine .inr ?_
                omega
            | escape c => exact .inl rfl
          · rw [List.map_nil, List.append_nil]
            omega
  · intro ⟨front, piece, back, same, _, across⟩
    rw [same, List.map_append, List.map_cons, byteLength_append, byteLength_append, byteLength_cons]
    rw [byteLength_append] at across
    omega

/-! ## One turn -/

section

variable {env : ReaderEnv}

/-- The turns that read a name or a string. -/
def CharClass.isLimited : CharClass → Bool
  | .quote | .colon | .hash | .minus | .symbol | .dollar => true
  | _ => false

theorem overrunsAt_unlimited {c : Char} {cls : CharClass} (own : charClass env c = cls) (unlimited : cls.isLimited = false)
    (rest : List Char) : ¬ OverrunsAt env c rest := by
  unfold OverrunsAt
  rw [own]
  cases cls with
  | quote | colon | hash | minus | symbol | dollar => cases unlimited
  | blank | bracket _ | digit | operator | bang | semicolon | other => exact id

theorem ofList_within {limit : Nat} {lead name : List Char} {straddles : Prop} (past : limit < byteLength (lead ++ name) ↔ straddles) :
    (String.ofList (lead ++ name)).utf8ByteSize ≤ limit ↔ ¬ straddles := by
  rw [utf8ByteSize_ofList, ← past, Nat.not_lt]

theorem symbolToken_within (name : List Char) :
    (symbolToken name).Within ↔ (String.ofList name).utf8ByteSize ≤ maxSymbolLength := by
  have short : ∀ word : List Char, byteLength word ≤ 5 → name = word → (String.ofList name).utf8ByteSize ≤ maxSymbolLength := by
    intro word few same
    rw [utf8ByteSize_ofList, same]
    exact Nat.le_trans few (by decide)
  unfold symbolToken
  split
  · next same => exact iff_of_true trivial (short _ (by decide) same)
  · split
    · next same => exact iff_of_true trivial (short _ (by decide) same)
    · split
      · next same => exact iff_of_true trivial (short _ (by decide) same)
      · exact Iff.rfl

theorem number_within {isFloat : Bool} {num : List Char} {token : Token} (run : numberToken env isFloat num = .ok token) :
    token.Within := by
  obtain ⟨_, rfl⟩ | ⟨_, rfl⟩ := numberToken_cases run
  · trivial
  · trivial

theorem operator_within (cs : List Char) (few : cs.length ≤ 2) : (Token.symbol (.ofList cs)).Within := by
  change (String.ofList cs).utf8ByteSize ≤ maxSymbolLength
  rw [utf8ByteSize_ofList]
  have bytes : ∀ ds : List Char, byteLength ds ≤ 4 * ds.length := by
    intro ds
    induction ds with
    | nil => exact Nat.le_refl 0
    | cons d ds ih =>
        have size := d.utf8Size_le_four
        rw [byteLength_cons, List.length_cons]
        omega
  have limit : maxSymbolLength = 1024 := rfl
  have own := bytes cs
  omega

theorem charClass_bracket {c : Char} {token : Token} (own : charClass env c = .bracket token) :
    (c, token) ∈ [('(', Token.leftParen), (')', .rightParen), ('[', .leftBracket), (']', .rightBracket), ('{', .leftBrace),
      ('}', .rightBrace)] := by
  by_cases paren : c = '('
  · cases paren
    cases own
    decide
  · by_cases paren' : c = ')'
    · cases paren'
      cases own
      decide
    · by_cases bracket : c = '['
      · cases bracket
        cases own
        decide
      · by_cases bracket' : c = ']'
        · cases bracket'
          cases own
          decide
        · by_cases brace : c = '{'
          · cases brace
            cases own
            decide
          · by_cases brace' : c = '}'
            · cases brace'
              cases own
              decide
            · unfold charClass at own
              replace own := else_of_ne own nofun
              rw [if_neg paren, if_neg paren', if_neg bracket, if_neg bracket', if_neg brace, if_neg brace'] at own
              iterate 10 replace own := else_of_ne own nofun
              cases own

theorem bracket_within {c : Char} {token : Token} (own : charClass env c = .bracket token) : token.Within := by
  have known := charClass_bracket own
  simp only [List.mem_cons, Prod.mk.injEq, List.not_mem_nil, or_false] at known
  obtain ⟨_, rfl⟩ | ⟨_, rfl⟩ | ⟨_, rfl⟩ | ⟨_, rfl⟩ | ⟨_, rfl⟩ | ⟨_, rfl⟩ := known <;> trivial

/-- A turn is right if the token stays within its limit and a string is closed. -/
def TurnWithin (env : ReaderEnv) (c : Char) (rest : List Char) (t : Option Token) : Prop :=
  (∀ w ∈ t, w.Within) ∧ (charClass env c = .quote → isClosed rest = true)

theorem turnWithin_unlimited {c : Char} {cls : CharClass} (own : charClass env c = cls) (unlimited : cls.isLimited = false)
    {t : Option Token} (within : ∀ w ∈ t, w.Within) (rest : List Char) : TurnWithin env c rest t ↔ ¬ OverrunsAt env c rest := by
  refine iff_of_true ⟨within, ?_⟩ (overrunsAt_unlimited own unlimited rest)
  intro quote
  rw [← own, quote] at unlimited
  cases unlimited

theorem turnWithin_name {c : Char} {cls : CharClass} (own : charClass env c = cls) (name : cls ≠ .quote) {t : Token}
    {rest : List Char} (within : t.Within ↔ ¬ OverrunsAt env c rest) : TurnWithin env c rest (some t) ↔ ¬ OverrunsAt env c rest := by
  rw [← within]
  constructor
  · intro turn
    exact turn.1 t rfl
  · intro fits
    refine ⟨fun w mem => Option.some.inj mem ▸ fits, ?_⟩
    intro quote
    exact absurd (own.symm.trans quote) name

theorem turnWithin_string {c : Char} (own : charClass env c = .quote) {pieces : List Piece} (takes : TakesString [] pieces)
    {tail left : List Char} (ends : EndsLiteral tail left) :
    TurnWithin env c (pieces.flatMap Piece.text ++ tail) (some (.string (.ofList (pieces.map Piece.value)))) ↔
      ¬ OverrunsAt env c (pieces.flatMap Piece.text ++ tail) := by
  have ⟨same, _⟩ := literal_of_takes takes ends
  have past := takes.over_iff (Nat.zero_le _)
  have within := ofList_within past
  simp only [List.nil_append] at within
  unfold OverrunsAt
  rw [own]
  simp only [OverrunsString, same]
  rw [not_or, Bool.not_eq_false, ← within]
  constructor
  · intro turn
    exact ⟨turn.2 own, turn.1 _ rfl⟩
  · intro ⟨closed, fits⟩
    exact ⟨fun w mem => Option.some.inj mem ▸ fits, fun _ => closed⟩

/-- A turn stays within the limits if and only if it meets none of the gaps. -/
theorem Lexeme.turnWithin_iff {u left : List Char} {t : Option Token} {p : Char → Bool} (lexeme : Lexeme env u t p)
    (stops : Stops p left) {c : Char} {rest : List Char} (split : c :: rest = u ++ left) :
    TurnWithin env c rest t ↔ ¬ OverrunsAt env c rest := by
  cases lexeme with
  | blank own | comment own =>
      cases (List.cons.inj split).1
      apply turnWithin_unlimited own rfl
      simp
  | bracket own =>
      cases (List.cons.inj split).1
      apply turnWithin_unlimited own rfl
      intro w mem
      cases mem
      exact bracket_within own
  | string own takes =>
      rw [List.cons_append, List.append_assoc] at split
      obtain ⟨rfl, rfl⟩ := List.cons.inj split
      exact turnWithin_string own takes (.inl rfl)
  | openString own takes open_ =>
      rw [stops_always.mp stops, List.append_nil] at split
      obtain ⟨rfl, rfl⟩ := List.cons.inj split
      exact turnWithin_string own takes (.inr ⟨rfl, open_⟩)
  | keyword own takes =>
      rw [List.cons_append] at split
      obtain ⟨rfl, rfl⟩ := List.cons.inj split
      apply turnWithin_name own (by simp)
      rw [OverrunsAt, own]
      simp only [takes.takeWhile stops]
      exact ofList_within (takes.over_iff (by decide))
  | tag own takes =>
      rw [List.cons_append] at split
      obtain ⟨rfl, rfl⟩ := List.cons.inj split
      apply turnWithin_name own (by simp)
      rw [OverrunsAt, own]
      simp only [takes.takeWhile stops]
      exact ofList_within (takes.over_iff (by decide))
  | @minus _ name own other takes =>
      rw [List.cons_append] at split
      obtain ⟨rfl, rfl⟩ := List.cons.inj split
      apply turnWithin_name own (by simp)
      have stops' : Stops env.isNumeric (name ++ left) := by
        cases name with
        | nil => exact stops.mono fun c numeric => by rw [symbolPart, ReaderEnv.isAlphanumeric, numeric, Bool.or_true]; rfl
        | cons d name => exact stops_cons.mpr (stops_cons.mp other)
      rw [OverrunsAt, own]
      simp only [takes.takeWhile stops, stops', true_and]
      exact ofList_within (takes.over_iff (by decide))
  | negative own numeric _ converts =>
      rw [List.cons_append, List.cons_append] at split
      obtain ⟨rfl, rfl⟩ := List.cons.inj split
      apply turnWithin_name own (by simp)
      refine iff_of_true (number_within converts) ?_
      rw [OverrunsAt, own]
      rintro ⟨stops', _⟩
      have none_ := stops_cons.mp stops'
      rw [numeric] at none_
      cases none_
  | number own _ converts =>
      cases (List.cons.inj split).1
      apply turnWithin_unlimited own rfl
      intro w mem
      cases mem
      exact number_within converts
  | symbol own takes =>
      rw [List.cons_append] at split
      obtain ⟨rfl, rfl⟩ := List.cons.inj split
      apply turnWithin_name own (by simp)
      rw [symbolToken_within, OverrunsAt, own]
      rw [← List.cons_append, takes.takeWhile stops]
      exact ofList_within (takes.over_iff (by decide))
  | operator own =>
      cases (List.cons.inj split).1
      apply turnWithin_unlimited own rfl
      intro w mem
      cases mem
      exact operator_within [_] (Nat.le_succ 1)
  | comparison own _ =>
      cases (List.cons.inj split).1
      apply turnWithin_unlimited own rfl
      intro w mem
      cases mem
      exact operator_within [_, '='] (Nat.le_refl 2)
  | bang own =>
      cases (List.cons.inj split).1
      apply turnWithin_unlimited own rfl
      intro w mem
      cases mem
      exact operator_within ['!', '='] (by decide)
  | slot own takes _ =>
      rw [List.cons_append] at split
      obtain ⟨rfl, rfl⟩ := List.cons.inj split
      apply turnWithin_name own (by simp)
      rw [OverrunsAt, own]
      simp only [takes.takeWhile stops]
      exact ofList_within (takes.over_iff (by decide))

/-! ## All turns -/

theorem at_nil_iff {place : List Char} : At env [] place ↔ place = [] := by
  constructor
  · intro reached
    cases reached
    rfl
  · intro none_
    rw [none_]
    exact .here

theorem at_cons_iff {c : Char} {rest left place : List Char} {t : Option Token} (run : readToken env c rest = .ok (t, left)) :
    At env (c :: rest) place ↔ place = c :: rest ∨ At env left place := by
  constructor
  · intro reached
    cases reached with
    | here => exact .inl rfl
    | later run' reached =>
        rw [run] at run'
        cases run'
        exact .inr reached
  · intro either
    obtain same | reached := either
    · rw [same]
      exact .here
    · exact .later run reached

theorem lexed_within_iff {input : List Char} {read : List (Option Token)} (lexed : Lexed env input read) :
    (∀ t ∈ read.reduceOption, t.Within) ∧ LiteralsClosed env input ↔ ¬ Overruns env input := by
  induction len : input.length using Nat.strongRecOn generalizing input read with
  | ind n ih =>
      cases input with
      | nil =>
          cases lexed_nil_iff.mp lexed
          refine iff_of_true ⟨nofun, ?_⟩ ?_
          · intro c rest reached
            cases at_nil_iff.mp reached
          · intro ⟨c, rest, reached, _⟩
            cases at_nil_iff.mp reached
      | cons c rest =>
          obtain ⟨t, left, later, rfl, run, behind⟩ := lexed_cons_iff.mp lexed
          obtain ⟨u, p, split, lexeme, stops⟩ := readToken_ok run
          have turn := lexeme.turnWithin_iff stops split
          have shorter : left.length < n := by
            rw [← len]
            exact Nat.lt_succ_of_le (readToken_leaves run).length_le
          have rest_ := ih left.length shorter behind rfl
          have overruns : Overruns env (c :: rest) ↔ OverrunsAt env c rest ∨ Overruns env left := by
            constructor
            · intro ⟨d, place, reached, past⟩
              obtain same | reached := (at_cons_iff run).mp reached
              · cases same
                exact .inl past
              · exact .inr ⟨d, place, reached, past⟩
            · intro either
              obtain past | ⟨d, place, reached, past⟩ := either
              · exact ⟨c, rest, .here, past⟩
              · exact ⟨d, place, .later run reached, past⟩
          have closed : LiteralsClosed env (c :: rest) ↔
              (charClass env c = .quote → isClosed rest = true) ∧ LiteralsClosed env left := by
            constructor
            · intro all
              exact ⟨all c rest .here, fun d place reached => all d place (.later run reached)⟩
            · intro ⟨first, all⟩ d place reached
              obtain same | reached := (at_cons_iff run).mp reached
              · cases same
                exact first
              · exact all d place reached
          have tokens : (∀ w ∈ (t :: later).reduceOption, w.Within) ↔
              (∀ w ∈ t, w.Within) ∧ ∀ w ∈ later.reduceOption, w.Within := by
            cases t with
            | none =>
                rw [List.reduceOption_cons_of_none]
                exact (and_iff_right nofun).symm
            | some t =>
                rw [List.reduceOption_cons_of_some, List.forall_mem_cons]
                exact and_congr_left fun _ => ⟨fun own w mem => Option.some.inj mem ▸ own, fun all => all t rfl⟩
          rw [overruns, not_or, ← turn, ← rest_, closed, tokens, TurnWithin]
          exact ⟨fun ⟨⟨a, b⟩, c, d⟩ => ⟨⟨a, c⟩, b, d⟩, fun ⟨⟨a, c⟩, b, d⟩ => ⟨⟨a, b⟩, c, d⟩⟩

/-! ## The value -/

theorem symbolValue_asSymbol (s : String) : (symbolValue s).asSymbol = some s := by
  have text : ∀ {cs : List Char}, s.toList = cs → String.ofList cs = s := by
    intro cs same
    rw [← same, String.ofList_toList]
  unfold symbolValue
  split
  · next name same =>
      refine congrArg some (Eq.trans ?_ (text same))
      apply String.toList_injective
      simp
  · next name _ same =>
      refine congrArg some (Eq.trans ?_ (text same))
      apply String.toList_injective
      simp
  · next same => exact congrArg some (text same)
  · rfl

theorem EdnValue.words_of_asSymbol {v : EdnValue} {s : String} (symbol : v.asSymbol = some s) : v.words = [.symbol s] := by
  cases v with
  | var _ | underscore | symbol _ => simp only [words, atomWords, symbol]
  | keyword _ | string _ | integer _ | float _ | boolean _ | uuid _ | vector _ | list _ | map _ | nil | bindSlot _ => cases symbol

theorem EdnValue.depth_of_asSymbol {v : EdnValue} {s : String} (symbol : v.asSymbol = some s) : v.depth = 1 := by
  cases v with
  | var _ | underscore | symbol _ => rfl
  | keyword _ | string _ | integer _ | float _ | boolean _ | uuid _ | vector _ | list _ | map _ | nil | bindSlot _ => cases symbol

theorem EdnValue.wordsItems_eq (vs : List EdnValue) : EdnValue.wordsItems vs = vs.flatMap EdnValue.words := by
  induction vs with
  | nil => rfl
  | cons v vs ih => rw [wordsItems, ih, List.flatMap_cons]

theorem EdnValue.wordsEntries_eq (es : List (EdnValue × EdnValue)) :
    EdnValue.wordsEntries es = es.flatMap fun e => e.1.words ++ e.2.words := by
  induction es with
  | nil => rfl
  | cons e es ih => rw [wordsEntries, ih, List.flatMap_cons]

theorem EdnValue.depthItems_le {vs : List EdnValue} {n : Nat} (all : ∀ v ∈ vs, v.depth ≤ n) : EdnValue.depthItems vs ≤ n := by
  induction vs with
  | nil => exact Nat.zero_le n
  | cons v vs ih => exact Nat.max_le.mpr ⟨all v List.mem_cons_self, ih fun w mem => all w (List.mem_cons_of_mem _ mem)⟩

theorem EdnValue.depthEntries_le {es : List (EdnValue × EdnValue)} {n : Nat} (all : ∀ e ∈ es, e.1.depth ≤ n ∧ e.2.depth ≤ n) :
    EdnValue.depthEntries es ≤ n := by
  induction es with
  | nil => exact Nat.zero_le n
  | cons e es ih =>
      have own := all e List.mem_cons_self
      exact Nat.max_le.mpr ⟨Nat.max_le.mpr own, ih fun w mem => all w (List.mem_cons_of_mem _ mem)⟩

/-- The words are of the input, and what of the input is neither a word nor left is within
its limit. -/
structure Accounts (input ws left : List Token) : Prop where
  words : ∀ w ∈ ws, w ∈ input
  others : ∀ w ∈ input, w ∈ ws ∨ w.Within ∨ w ∈ left

theorem Accounts.trans {input mid left ws ws' : List Token} (first : Accounts input ws mid) (second : Accounts mid ws' left)
    (leaves : mid <:+ input) : Accounts input (ws ++ ws') left where
  words w mem := by
    obtain own | later := List.mem_append.mp mem
    · exact first.words w own
    · exact leaves.subset (second.words w later)
  others w mem := by
    obtain own | within | later := first.others w mem
    · exact .inl (List.mem_append_left _ own)
    · exact .inr (.inl within)
    · obtain own | within | last := second.others w later
      · exact .inl (List.mem_append_right _ own)
      · exact .inr (.inl within)
      · exact .inr (.inr last)

theorem Accounts.cons {t : Token} {input ws left : List Token} (accounts : Accounts input ws left) (within : t.Within) :
    Accounts (t :: input) ws left where
  words w mem := List.mem_cons_of_mem t (accounts.words w mem)
  others w mem := by
    obtain rfl | later := List.mem_cons.mp mem
    · exact .inr (.inl within)
    · exact accounts.others w later

theorem accounts_loop {β : Type} {reader : Reader ReadError Token β} {words : β → List Token} {good : β → Prop}
    (step : ∀ {t : Token} {rest left : List Token} {b : β}, reader.read t rest = .ok (b, left) →
      Accounts (t :: rest) (words b) left ∧ good b)
    {close : Token} {e : ReadError} {input left : List Token} {bs : List β}
    (loop : reader.Loop (fun t => decide (t = close)) (some e) input bs left) (within : close.Within) :
    Accounts input (bs.flatMap words) left ∧ ∀ b ∈ bs, good b := by
  induction loop with
  | nil open_ => cases open_
  | @close a rest closes =>
      refine ⟨⟨nofun, ?_⟩, nofun⟩
      intro w mem
      obtain rfl | later := List.mem_cons.mp mem
      · rw [of_decide_eq_true closes]
        exact .inr (.inl within)
      · exact .inr (.inr later)
  | cons _ run _ ih =>
      have ⟨first, own⟩ := step run
      refine ⟨first.trans ih.1 ((reader.leaves run).trans (List.suffix_cons _ _)), ?_⟩
      exact List.forall_mem_cons.mpr ⟨own, ih.2⟩

theorem accounts_atom {t : Token} {v : EdnValue} (own : atomValue t = some v) (rest : List Token) :
    Accounts (t :: rest) v.words rest ∧ v.depth = 1 := by
  have word : ∀ {v : EdnValue}, v.words = [t] → Accounts (t :: rest) v.words rest := by
    intro v same
    rw [same]
    refine ⟨fun w mem => List.mem_singleton.mp mem ▸ List.mem_cons_self, ?_⟩
    intro w mem
    obtain rfl | later := List.mem_cons.mp mem
    · exact .inl List.mem_cons_self
    · exact .inr (.inr later)
  have other : ∀ {v : EdnValue}, v.words = [] → t.Within → Accounts (t :: rest) v.words rest := by
    intro v same within
    rw [same]
    refine ⟨nofun, ?_⟩
    intro w mem
    obtain rfl | later := List.mem_cons.mp mem
    · exact .inr (.inl within)
    · exact .inr (.inr later)
  cases t with
  | keyword k | string s | bindSlot name =>
      cases own
      exact ⟨word rfl, rfl⟩
  | symbol s =>
      cases own
      have symbol := symbolValue_asSymbol s
      exact ⟨word (EdnValue.words_of_asSymbol symbol), EdnValue.depth_of_asSymbol symbol⟩
  | integer i | float f | boolean b | nil =>
      cases own
      exact ⟨other rfl trivial, rfl⟩
  | leftParen | rightParen | leftBracket | rightBracket | leftBrace | rightBrace | taggedLiteral _ => cases own

/-- The texts that are UUIDs are short. -/
def ShortUuids (env : ReaderEnv) : Prop := ∀ s id, env.parseUuid s = some id → s.utf8ByteSize ≤ 45

theorem accounts_value (uuids : ShortUuids env) {depth : Nat} {t : Token} {rest left : List Token} {v : EdnValue}
    (run : (parseValue env depth).read t rest = .ok (v, left)) : Accounts (t :: rest) v.words left ∧ v.depth ≤ depth := by
  induction depth generalizing t rest left v with
  | zero => cases run
  | succ depth ih =>
      obtain ⟨_, same, reads⟩ := parseValue_ok_iff.mp run
      cases same
      cases reads with
      | atom own =>
          have ⟨accounts, levels⟩ := accounts_atom own rest
          exact ⟨accounts, by omega⟩
      | @uuid s _ id parsed =>
          have short : (Token.string s).Within := Nat.le_trans (uuids s id parsed) (by decide)
          have own : Accounts left [] left := ⟨nofun, fun w mem => .inr (.inr mem)⟩
          exact ⟨(own.cons short).cons (by decide : "uuid".utf8ByteSize ≤ maxSymbolLength), Nat.le_add_left 1 depth⟩
      | list loop | vector loop =>
          have ⟨accounts, levels⟩ := accounts_loop ih loop trivial
          rw [← EdnValue.wordsItems_eq] at accounts
          exact ⟨accounts.cons trivial, Nat.succ_le_succ (EdnValue.depthItems_le levels)⟩
      | map loop =>
          have step : ∀ {t : Token} {rest left : List Token} {e : EdnValue × EdnValue},
              (entryReader (parseValue env depth)).read t rest = .ok (e, left) →
                Accounts (t :: rest) (e.1.words ++ e.2.words) left ∧ e.1.depth ≤ depth ∧ e.2.depth ≤ depth := by
            intro t rest left e run
            obtain ⟨t', rest', first, second⟩ := parseEntry_ok run
            have ⟨key, keyDepth⟩ := ih first
            have ⟨val, valDepth⟩ := ih second
            exact ⟨key.trans val (((parseValue env depth).leaves first).trans (List.suffix_cons _ _)), keyDepth, valDepth⟩
          have ⟨accounts, levels⟩ := accounts_loop step loop trivial
          rw [← EdnValue.wordsEntries_eq] at accounts
          exact ⟨accounts.cons trivial, Nat.succ_le_succ (EdnValue.depthEntries_le levels)⟩

/-- What is read stays within the limits if and only if its text meets none of the gaps. -/
theorem parseEdn_withinLimits_iff (uuids : ShortUuids env) {input : List Char} {v : EdnValue} (accepted : parseEdn env input = .ok v) :
    WithinLimits env input v ↔ ¬ Overruns env input := by
  obtain ⟨t, rest, tokens, run⟩ := parseEdn_ok_iff.mp accepted
  obtain ⟨read, lexed, same⟩ := tokenize_ok_iff.mp tokens
  have ⟨accounts, levels⟩ := accounts_value uuids run
  have all := lexed_within_iff lexed
  rw [same] at all
  rw [← all]
  constructor
  · intro within
    refine ⟨?_, within.closed⟩
    intro w mem
    obtain own | short | none_ := accounts.others w mem
    · exact within.words w own
    · exact short
    · cases none_
  · intro ⟨short, closed⟩
    refine ⟨fun w mem => short w (accounts.words w mem), ?_, levels, closed⟩
    intro tokens' tokenized tag mem
    rw [tokens] at tokenized
    cases tokenized
    exact short _ mem

/-- A vector of a keyword, a list, a map and a slot, with an escaped string and a comment. -/
theorem parseEdn_withinLimits_vector :
    WithinLimits .ascii "[:a (b -12) ; c\n \x7b:d \"e\\\"\"\x7d $g]".toList
        (.vector [.keyword ":a", .list [.symbol "b", .integer (-12)], .map [(.keyword ":d", .string "e\"")],
          .bindSlot "g"]) ↔
      ¬ Overruns .ascii "[:a (b -12) ; c\n \x7b:d \"e\\\"\"\x7d $g]".toList :=
  parseEdn_withinLimits_iff (fun _ _ none_ => by cases none_) (by decide +kernel)

/-- A text that ends inside a string is accepted. -/
theorem parseEdn_not_withinLimits :
    ¬ ∀ input v, parseEdn .ascii input = .ok v → WithinLimits .ascii input v := by
  intro within
  have limits := within ['"', 'a', 'b', 'c'] (.string "abc") (by decide +kernel)
  have closed := limits.closed '"' ['a', 'b', 'c'] .here rfl
  cases closed

end
end Minigraf
