import Minigraf.Query.Tokens

/-!
The texts a turn of `tokenize` can take off its input, and what may not stand behind each:
a turn succeeds exactly on such a text followed by something else.
-/

namespace Minigraf

/-- What follows does not begin with a character of the kind. -/
def Stops (part : Char → Bool) (rest : List Char) : Prop := ∀ c ∈ rest.head?, part c = false

theorem Stops.nil (part : Char → Bool) : Stops part [] := nofun

theorem stops_cons {part : Char → Bool} {c : Char} {rest : List Char} : Stops part (c :: rest) ↔ part c = false := by
  constructor
  · intro stops
    exact stops c rfl
  · intro other c' mem
    cases mem
    exact other

theorem Stops.mono {part part' : Char → Bool} {rest : List Char} (stops : Stops part rest)
    (fewer : ∀ c, part' c = true → part c = true) : Stops part' rest := by
  intro c mem
  have other := stops c mem
  cases own : part' c with
  | false => rfl
  | true =>
      rw [fewer c own] at other
      cases other

/-! ## Names -/

/-- Characters that the loop of a name takes. -/
def TakesName (part : Char → Bool) (limit : Nat) (lead : List Char) : List Char → Prop
  | [] => True
  | c :: name => part c = true ∧ byteLength lead < limit ∧ TakesName part limit (lead ++ [c]) name

theorem takeName_ok_iff {part : Char → Bool} {limit : Nat} {error : ReadError} {lead cs full rest : List Char} :
    takeName part limit error lead cs = .ok (full, rest) ↔
      ∃ name, cs = name ++ rest ∧ full = lead ++ name ∧ TakesName part limit lead name ∧ Stops part rest := by
  induction cs generalizing lead with
  | nil =>
      constructor
      · intro run
        cases run
        exact ⟨[], rfl, (List.append_nil _).symm, trivial, Stops.nil part⟩
      · intro ⟨name, split, all, _⟩
        have ⟨noName, noRest⟩ := List.append_eq_nil_iff.mp split.symm
        rw [takeName, all, noName, noRest, List.append_nil]
  | cons c cs ih =>
      rw [takeName]
      cases own : part c with
      | false =>
          rw [if_neg Bool.false_ne_true]
          constructor
          · intro run
            cases run
            exact ⟨[], rfl, (List.append_nil _).symm, trivial, stops_cons.mpr own⟩
          · intro ⟨name, split, all, fits, _⟩
            cases name with
            | nil => rw [all, ← show c :: cs = rest from split, List.append_nil]
            | cons d name =>
                cases (List.cons.inj split).1
                rw [fits.1] at own
                cases own
      | true =>
          rw [if_pos rfl]
          by_cases far : limit ≤ byteLength lead
          · rw [if_pos far]
            constructor
            · intro run
              cases run
            · intro ⟨name, split, _, fits, stops⟩
              cases name with
              | nil =>
                  rw [← show c :: cs = rest from split, stops_cons, own] at stops
                  cases stops
              | cons d name => exact absurd fits.2.1 (Nat.not_lt.mpr far)
          · rw [if_neg far, ih]
            constructor
            · intro ⟨name, split, all, fits, stops⟩
              refine ⟨c :: name, congrArg (c :: ·) split, ?_, ⟨own, Nat.not_le.mp far, fits⟩, stops⟩
              rw [all, List.append_assoc]
              rfl
            · intro ⟨name, split, all, fits, stops⟩
              cases name with
              | nil =>
                  rw [← show c :: cs = rest from split, stops_cons, own] at stops
                  cases stops
              | cons d name =>
                  obtain ⟨head, tail⟩ := List.cons.inj split
                  cases head
                  refine ⟨name, tail, ?_, fits.2.2, stops⟩
                  rw [all, List.append_assoc]
                  rfl

/-! ## Strings -/

/-- A character of a string literal, as it stands or behind a backslash. -/
inductive Piece where
  | plain (c : Char)
  | escape (c : Char)
  deriving DecidableEq, Repr

def Piece.text : Piece → List Char
  | .plain c => [c]
  | .escape c => ['\\', c]

def Piece.value : Piece → Char
  | .plain c => c
  | .escape c => unescape c

/-- Pieces that the loop of a string takes. -/
def TakesString (string : List Char) : List Piece → Prop
  | [] => True
  | .plain c :: pieces => c ≠ '"' ∧ c ≠ '\\' ∧ byteLength string < maxStringLength ∧ TakesString (string ++ [c]) pieces
  | .escape c :: pieces => TakesString (string ++ [unescape c]) pieces

/-- The ends of a literal, its own quote or the end of the input. -/
def EndsLiteral (tail rest : List Char) : Prop := tail = '"' :: rest ∨ rest = [] ∧ (tail = [] ∨ tail = ['\\'])

theorem takeString_ok {string cs full rest : List Char} (run : takeString string cs = .ok (full, rest)) :
    ∃ pieces tail, cs = pieces.flatMap Piece.text ++ tail ∧ full = string ++ pieces.map Piece.value ∧
      TakesString string pieces ∧ EndsLiteral tail rest := by
  fun_induction takeString string cs with
  | case1 string =>
      cases run
      exact ⟨[], [], rfl, (List.append_nil _).symm, trivial, .inr ⟨rfl, .inl rfl⟩⟩
  | case2 string left =>
      cases run
      exact ⟨[], '"' :: rest, rfl, (List.append_nil _).symm, trivial, .inl rfl⟩
  | case3 string _ =>
      cases run
      exact ⟨[], ['\\'], rfl, (List.append_nil _).symm, trivial, .inr ⟨rfl, .inr rfl⟩⟩
  | case4 string escaped left _ ih =>
      obtain ⟨pieces, tail, split, all, fits, ends⟩ := ih run
      refine ⟨.escape escaped :: pieces, tail, ?_, ?_, fits, ends⟩
      · rw [split]
        rfl
      · rw [all, List.append_assoc]
        rfl
  | case5 => cases run
  | case6 string c left notQuote notBackslash short ih =>
      obtain ⟨pieces, tail, split, all, fits, ends⟩ := ih run
      refine ⟨.plain c :: pieces, tail, ?_, ?_, ⟨notQuote, notBackslash, Nat.not_le.mp short, fits⟩, ends⟩
      · rw [split]
        rfl
      · rw [all, List.append_assoc]
        rfl

theorem takeString_escape (string : List Char) (c : Char) (cs : List Char) :
    takeString string ('\\' :: c :: cs) = takeString (string ++ [unescape c]) cs := by
  rw [takeString.eq_def]
  rfl

theorem takeString_of_fits {string : List Char} {pieces : List Piece} (fits : TakesString string pieces) {tail rest : List Char}
    (ends : EndsLiteral tail rest) :
    takeString string (pieces.flatMap Piece.text ++ tail) = .ok (string ++ pieces.map Piece.value, rest) := by
  induction pieces generalizing string with
  | nil =>
      rw [List.map_nil, List.append_nil, List.flatMap_nil, List.nil_append]
      obtain closed | ⟨last, none_ | cut⟩ := ends
      · rw [closed, takeString.eq_def]
        exact if_pos rfl
      · rw [none_, last]
        rfl
      · rw [cut, last]
        rfl
  | cons piece pieces ih =>
      cases piece with
      | plain c =>
          obtain ⟨notQuote, notBackslash, short, fits⟩ := fits
          have run := ih fits
          rw [List.append_assoc] at run
          change takeString string (c :: (pieces.flatMap Piece.text ++ tail)) = _
          rw [takeString.eq_def]
          simp only [notQuote, notBackslash, Nat.not_le.mpr short, if_false, run]
          rfl
      | escape c =>
          have run := ih fits
          rw [List.append_assoc] at run
          exact (takeString_escape string c _).trans run

/-! ## Numbers -/

section

variable (env : ReaderEnv)

def numberPart (isFloat : Bool) (c : Char) : Bool := env.isNumeric c || (c == '.' && !isFloat)

/-- Characters that the loop of a number takes, until the number is a float or is none. -/
def IsNumber (isFloat : Bool) (isFloat' : Bool) : List Char → Prop
  | [] => isFloat = isFloat'
  | c :: num => numberPart env isFloat c = true ∧ IsNumber (isFloat || !env.isNumeric c) isFloat' num

variable {env}

theorem parseNumber_eq_iff {isFloat isFloat' : Bool} {lead cs full rest : List Char} :
    parseNumber env isFloat lead cs = ((isFloat', full), rest) ↔
      ∃ num, cs = num ++ rest ∧ full = lead ++ num ∧ IsNumber env isFloat isFloat' num ∧ Stops (numberPart env isFloat') rest := by
  induction cs generalizing isFloat lead with
  | nil =>
      constructor
      · intro run
        cases run
        exact ⟨[], rfl, (List.append_nil _).symm, rfl, Stops.nil _⟩
      · intro ⟨num, split, all, number, _⟩
        have ⟨noNum, noRest⟩ := List.append_eq_nil_iff.mp split.symm
        rw [noNum] at number all
        rw [parseNumber, all, noRest, List.append_nil, show isFloat = isFloat' from number]
  | cons c cs ih =>
      have here : numberPart env isFloat c = false →
          (((isFloat, lead), c :: cs) = ((isFloat', full), rest) ↔
            ∃ num, c :: cs = num ++ rest ∧ full = lead ++ num ∧ IsNumber env isFloat isFloat' num ∧
              Stops (numberPart env isFloat') rest) := by
        intro other
        constructor
        · intro run
          cases run
          exact ⟨[], rfl, (List.append_nil _).symm, rfl, stops_cons.mpr other⟩
        · intro ⟨num, split, all, number, _⟩
          cases num with
          | nil => rw [all, ← show c :: cs = rest from split, List.append_nil, show isFloat = isFloat' from number]
          | cons d num =>
              cases (List.cons.inj split).1
              rw [number.1] at other
              cases other
      have later : numberPart env isFloat c = true →
          (parseNumber env (isFloat || !env.isNumeric c) (lead ++ [c]) cs = ((isFloat', full), rest) ↔
            ∃ num, c :: cs = num ++ rest ∧ full = lead ++ num ∧ IsNumber env isFloat isFloat' num ∧
              Stops (numberPart env isFloat') rest) := by
        intro own
        rw [ih]
        constructor
        · intro ⟨num, split, all, number, stops⟩
          refine ⟨c :: num, congrArg (c :: ·) split, ?_, ⟨own, number⟩, stops⟩
          rw [all, List.append_assoc]
          rfl
        · intro ⟨num, split, all, number, stops⟩
          cases num with
          | nil =>
              rw [← show c :: cs = rest from split, stops_cons, ← show isFloat = isFloat' from number, own] at stops
              cases stops
          | cons d num =>
              obtain ⟨head, tail⟩ := List.cons.inj split
              cases head
              refine ⟨num, tail, ?_, number.2, stops⟩
              rw [all, List.append_assoc]
              rfl
      rw [parseNumber]
      cases numeric : env.isNumeric c with
      | true =>
          rw [if_pos rfl]
          have own : numberPart env isFloat c = true := by rw [numberPart, numeric, Bool.true_or]
          have run := later own
          rw [numeric, Bool.not_true, Bool.or_false] at run
          exact run
      | false =>
          rw [if_neg Bool.false_ne_true]
          by_cases dot : c = '.' ∧ isFloat = false
          · rw [if_pos dot]
            have own : numberPart env isFloat c = true := by
              rw [numberPart, dot.1, dot.2]
              exact Bool.or_true _
            have run := later own
            rw [numeric, Bool.not_false, Bool.or_true] at run
            exact run
          · rw [if_neg dot]
            apply here
            rw [numberPart, numeric, Bool.false_or]
            cases isFloat with
            | true => exact Bool.and_false _
            | false =>
                rw [Bool.not_false, Bool.and_true, beq_eq_false_iff_ne]
                exact fun point => dot ⟨point, rfl⟩

end

theorem skipComment_eq_iff {cs rest : List Char} :
    skipComment cs = rest ↔ ∃ text, cs = text ++ rest ∧ '\n' ∉ text ∧ Stops (fun c => c != '\n') rest := by
  induction cs with
  | nil =>
      constructor
      · intro run
        cases run
        exact ⟨[], rfl, nofun, Stops.nil _⟩
      · intro ⟨text, split, _⟩
        exact (List.append_eq_nil_iff.mp split.symm).2.symm
  | cons c cs ih =>
      rw [skipComment]
      by_cases newline : c = '\n'
      · rw [if_pos newline]
        constructor
        · intro run
          cases run
          refine ⟨[], rfl, nofun, stops_cons.mpr ?_⟩
          rw [newline]
          rfl
        · intro ⟨text, split, inside, _⟩
          cases text with
          | nil => exact split
          | cons d text =>
              rw [← (List.cons.inj split).1, newline] at inside
              exact absurd List.mem_cons_self inside
      · rw [if_neg newline, ih]
        constructor
        · intro ⟨text, split, inside, stops⟩
          refine ⟨c :: text, congrArg (c :: ·) split, ?_, stops⟩
          intro mem
          obtain own | later := List.mem_cons.mp mem
          · exact newline own.symm
          · exact inside later
        · intro ⟨text, split, inside, stops⟩
          cases text with
          | nil =>
              rw [← show c :: cs = rest from split, stops_cons, bne_eq_false_iff_eq] at stops
              exact absurd stops newline
          | cons d text =>
              exact ⟨text, (List.cons.inj split).2, fun mem => inside (List.mem_cons_of_mem _ mem), stops⟩

/-! ## Lexemes -/

/-- A text a turn takes, the token it stands for, and the characters it would go on with. -/
inductive Lexeme (env : ReaderEnv) : List Char → Option Token → (Char → Bool) → Prop
  | blank {c : Char} : charClass env c = .blank → Lexeme env [c] none fun _ => false
  | bracket {c : Char} {token : Token} : charClass env c = .bracket token → Lexeme env [c] (some token) fun _ => false
  | string {c : Char} {pieces : List Piece} : charClass env c = .quote → TakesString [] pieces →
      Lexeme env (c :: (pieces.flatMap Piece.text ++ ['"'])) (some (.string (.ofList (pieces.map Piece.value)))) fun _ => false
  | openString {c : Char} {pieces : List Piece} {tail : List Char} : charClass env c = .quote → TakesString [] pieces →
      tail = [] ∨ tail = ['\\'] →
      Lexeme env (c :: (pieces.flatMap Piece.text ++ tail)) (some (.string (.ofList (pieces.map Piece.value)))) fun _ => true
  | keyword {c : Char} {name : List Char} : charClass env c = .colon → TakesName (keywordPart env) maxKeywordLength [':'] name →
      Lexeme env (c :: name) (some (.keyword (.ofList (':' :: name)))) (keywordPart env)
  | tag {c : Char} {name : List Char} : charClass env c = .hash → TakesName (tagPart env) maxSymbolLength [] name →
      Lexeme env (c :: name) (some (.taggedLiteral (.ofList name))) (tagPart env)
  | minus {c : Char} {name : List Char} : charClass env c = .minus → Stops env.isNumeric name →
      TakesName (symbolPart env) maxSymbolLength ['-'] name →
      Lexeme env (c :: name) (some (.symbol (.ofList ('-' :: name)))) (symbolPart env)
  | negative {c d : Char} {num : List Char} {isFloat : Bool} {token : Token} : charClass env c = .minus →
      env.isNumeric d = true → IsNumber env false isFloat (d :: num) → numberToken env isFloat ('-' :: d :: num) = .ok token →
      Lexeme env (c :: d :: num) (some token) (numberPart env isFloat)
  | number {c : Char} {num : List Char} {isFloat : Bool} {token : Token} : charClass env c = .digit →
      IsNumber env false isFloat (c :: num) → numberToken env isFloat (c :: num) = .ok token →
      Lexeme env (c :: num) (some token) (numberPart env isFloat)
  | symbol {c : Char} {name : List Char} : charClass env c = .symbol → TakesName (symbolPart env) maxSymbolLength [] (c :: name) →
      Lexeme env (c :: name) (some (symbolToken (c :: name))) (symbolPart env)
  | operator {c : Char} : charClass env c = .operator →
      Lexeme env [c] (some (.symbol (.ofList [c]))) fun x => x == '=' && (c == '<' || c == '>')
  | comparison {c : Char} : charClass env c = .operator → c = '<' ∨ c = '>' →
      Lexeme env [c, '='] (some (.symbol (.ofList [c, '=']))) fun _ => false
  | bang {c : Char} : charClass env c = .bang → Lexeme env [c, '='] (some (.symbol "!=")) fun _ => false
  | comment {c : Char} {text : List Char} : charClass env c = .semicolon → '\n' ∉ text →
      Lexeme env (c :: text) none fun x => x != '\n'
  | slot {c : Char} {name : List Char} : charClass env c = .dollar → TakesName (slotPart env) maxSymbolLength [] name → name ≠ [] →
      Lexeme env (c :: name) (some (.bindSlot (.ofList name))) (slotPart env)

section

variable {env : ReaderEnv}

theorem Stops.never (rest : List Char) : Stops (fun _ => false) rest := fun _ _ => rfl

theorem stops_always {rest : List Char} : Stops (fun _ => true) rest ↔ rest = [] := by
  constructor
  · intro stops
    cases rest with
    | nil => rfl
    | cons c rest => cases stops_cons.mp stops
  · intro none_
    rw [none_]
    exact Stops.nil _

theorem readName_ok_iff {part : Char → Bool} {limit : Nat} {error : ReadError} {lead cs rest : List Char} {t : Option Token}
    (token : List Char → Token) :
    (takeName part limit error lead cs >>= fun result => pure (some (token result.1), result.2)) = .ok (t, rest) ↔
      ∃ name, cs = name ++ rest ∧ t = some (token (lead ++ name)) ∧ TakesName part limit lead name ∧ Stops part rest := by
  constructor
  · intro run
    cases taken : takeName part limit error lead cs with
    | error e =>
        rw [taken] at run
        cases run
    | ok result =>
        rw [taken] at run
        cases run
        obtain ⟨name, split, all, fits, stops⟩ := takeName_ok_iff.mp taken
        exact ⟨name, split, by rw [all], fits, stops⟩
  · intro ⟨name, split, own, fits, stops⟩
    rw [takeName_ok_iff.mpr ⟨name, split, rfl, fits, stops⟩, own]
    rfl

theorem readNumber_ok_iff {lead cs rest : List Char} {t : Option Token} :
    readNumber env lead cs = .ok (t, rest) ↔ ∃ num isFloat token, cs = num ++ rest ∧ t = some token ∧
      IsNumber env false isFloat num ∧ numberToken env isFloat (lead ++ num) = .ok token ∧
        Stops (numberPart env isFloat) rest := by
  constructor
  · intro run
    rw [readNumber] at run
    rcases result : parseNumber env false lead cs with ⟨⟨isFloat, full⟩, left⟩
    rw [result] at run
    obtain ⟨num, split, all, number, stops⟩ := parseNumber_eq_iff.mp result
    cases own : numberToken env isFloat full with
    | error e =>
        simp only [own] at run
        cases run
    | ok token =>
        simp only [own] at run
        cases run
        rw [all] at own
        exact ⟨num, isFloat, token, split, rfl, number, own, stops⟩
  · intro ⟨num, isFloat, token, split, own, number, converts, stops⟩
    rw [readNumber, parseNumber_eq_iff.mpr ⟨num, split, rfl, number, stops⟩, own]
    simp only [converts]
    rfl

theorem charClass_ne {c : Char} {cls : CharClass} (own : charClass env c = cls) {d : Char}
    (other : charClass env d ≠ cls) : c ≠ d := by
  rintro rfl
  exact other own

theorem else_of_ne {p : Prop} [Decidable p] {a b x : CharClass} (own : (if p then a else b) = x) (other : a ≠ x) : b = x := by
  by_cases here : p
  · rw [if_pos here] at own
    exact absurd own other
  · rwa [if_neg here] at own

theorem digit_isNumeric {c : Char} (digit : charClass env c = .digit) : env.isNumeric c = true := by
  have range : '0' ≤ c ∧ c ≤ '9' := by
    by_contra outside
    unfold charClass at digit
    iterate 11 replace digit := else_of_ne digit nofun
    rw [if_neg outside] at digit
    iterate 5 replace digit := else_of_ne digit nofun
    cases digit
  have low : 48 ≤ c.toNat := range.1
  have high : c.toNat ≤ 57 := range.2
  rw [env.numeric_ascii c (by omega)]
  simp only [Char.isDigit, ge_iff_le, Bool.and_eq_true, decide_eq_true_eq]
  exact range

theorem symbol_isPart {c : Char} (symbol : charClass env c = .symbol) : symbolPart env c = true := by
  have start : env.isAlphabetic c = true ∨ c = '?' ∨ c = '_' := by
    by_contra outside
    unfold charClass at symbol
    iterate 12 replace symbol := else_of_ne symbol nofun
    rw [if_neg outside] at symbol
    iterate 4 replace symbol := else_of_ne symbol nofun
    cases symbol
  obtain letter | rfl | rfl := start
  · simp [symbolPart, ReaderEnv.isAlphanumeric, letter]
  · simp [symbolPart]
  · simp [symbolPart]

theorem readToken_ok {c : Char} {rest left : List Char} {t : Option Token} (run : readToken env c rest = .ok (t, left)) :
    ∃ u p, c :: rest = u ++ left ∧ Lexeme env u t p ∧ Stops p left := by
  rw [readToken] at run
  cases own : charClass env c with
  | blank =>
      rw [own] at run
      cases run
      exact ⟨[c], _, rfl, .blank own, Stops.never _⟩
  | bracket token =>
      rw [own] at run
      cases run
      exact ⟨[c], _, rfl, .bracket own, Stops.never _⟩
  | quote =>
      rw [own] at run
      cases taken : takeString [] rest with
      | error e =>
          simp only [taken] at run
          cases run
      | ok result =>
          simp only [taken] at run
          cases run
          obtain ⟨pieces, tail, split, all, fits, ends⟩ := takeString_ok taken
          rw [List.nil_append] at all
          rw [all, split]
          obtain closed | ⟨last, open_⟩ := ends
          · refine ⟨_, _, ?_, .string own fits, Stops.never _⟩
            rw [closed, List.cons_append, List.append_assoc]
            rfl
          · refine ⟨_, _, ?_, .openString own fits open_, stops_always.mpr last⟩
            rw [last, List.append_nil]
  | colon =>
      rw [own] at run
      obtain ⟨name, split, token, fits, stops⟩ := (readName_ok_iff fun name => .keyword (.ofList name)).mp run
      exact ⟨c :: name, _, congrArg (c :: ·) split, token ▸ .keyword own fits, stops⟩
  | hash =>
      rw [own] at run
      obtain ⟨name, split, token, fits, stops⟩ := (readName_ok_iff fun name => .taggedLiteral (.ofList name)).mp run
      exact ⟨c :: name, _, congrArg (c :: ·) split, token ▸ .tag own fits, stops⟩
  | minus =>
      rw [own] at run
      cases rest with
      | nil =>
          cases run
          exact ⟨[c], _, rfl, .minus own (Stops.nil _) trivial, Stops.nil _⟩
      | cons d rest =>
          change readMinus env (d :: rest) = _ at run
          rw [readMinus] at run
          cases numeric : env.isNumeric d with
          | true =>
              rw [numeric, if_pos rfl] at run
              obtain ⟨num, isFloat, token, split, same, number, converts, stops⟩ := readNumber_ok_iff.mp run
              cases num with
              | nil =>
                  rw [← show d :: rest = left from split, stops_cons, numberPart, numeric] at stops
                  cases stops
              | cons e num =>
                  cases (List.cons.inj split).1
                  exact ⟨c :: d :: num, _, congrArg (c :: ·) split, same ▸ .negative own numeric number converts, stops⟩
          | false =>
              rw [numeric, if_neg Bool.false_ne_true] at run
              obtain ⟨name, split, token, fits, stops⟩ := (readName_ok_iff fun name => .symbol (.ofList name)).mp run
              refine ⟨c :: name, _, congrArg (c :: ·) split, token ▸ .minus own ?_ fits, stops⟩
              cases name with
              | nil => exact Stops.nil _
              | cons e name =>
                  rw [stops_cons, ← (List.cons.inj split).1]
                  exact numeric
  | digit =>
      rw [own] at run
      obtain ⟨num, isFloat, token, split, same, number, converts, stops⟩ := readNumber_ok_iff.mp run
      cases num with
      | nil =>
          rw [← show c :: rest = left from split, stops_cons, numberPart, digit_isNumeric own] at stops
          cases stops
      | cons d num =>
          cases (List.cons.inj split).1
          exact ⟨c :: num, _, split, same ▸ .number own number converts, stops⟩
  | symbol =>
      rw [own] at run
      obtain ⟨name, split, token, fits, stops⟩ := (readName_ok_iff symbolToken).mp run
      cases name with
      | nil =>
          rw [← show c :: rest = left from split, stops_cons, symbol_isPart own] at stops
          cases stops
      | cons d name =>
          cases (List.cons.inj split).1
          exact ⟨c :: name, _, split, token ▸ .symbol own fits, stops⟩
  | operator =>
      rw [own] at run
      have result := Except.ok.inj run
      cases rest with
      | nil =>
          cases result
          exact ⟨[c], _, rfl, .operator own, Stops.nil _⟩
      | cons d rest =>
          by_cases equals : d = '='
          · rw [equals, readOperator] at result
            by_cases angle : c = '<' ∨ c = '>'
            · rw [if_pos angle] at result
              cases result
              exact ⟨[c, '='], _, by rw [equals]; rfl, .comparison own angle, Stops.never _⟩
            · rw [if_neg angle] at result
              cases result
              refine ⟨[c], _, by rw [equals]; rfl, .operator own, stops_cons.mpr ?_⟩
              simp only [beq_self_eq_true, Bool.true_and, Bool.or_eq_false_iff, beq_eq_false_iff_ne]
              exact not_or.mp angle
          · rw [readOperator] at result
            · cases result
              refine ⟨[c], _, rfl, .operator own, stops_cons.mpr ?_⟩
              rw [beq_eq_false_iff_ne.mpr equals, Bool.false_and]
            · intro rest' head
              exact equals (List.cons.inj head).1
  | bang =>
      rw [own] at run
      have run : readBang rest = .ok (t, left) := run
      unfold readBang at run
      split at run
      · cases run
        exact ⟨[c, '='], _, rfl, .bang own, Stops.never _⟩
      · cases run
  | semicolon =>
      rw [own] at run
      cases run
      obtain ⟨text, split, inside, stops⟩ := skipComment_eq_iff.mp (rfl : skipComment rest = skipComment rest)
      exact ⟨c :: text, _, congrArg (c :: ·) split, .comment own inside, stops⟩
  | dollar =>
      rw [own] at run
      have run : readBindSlot env rest = .ok (t, left) := run
      rw [readBindSlot] at run
      cases taken : takeName (slotPart env) maxSymbolLength (.prs074 maxSymbolLength) [] rest with
      | error e =>
          simp only [taken] at run
          cases run
      | ok result =>
          obtain ⟨name, split, all, fits, stops⟩ := takeName_ok_iff.mp taken
          rw [taken] at run
          by_cases empty : result.1 = []
          · simp only [bind, Except.bind, empty, if_pos] at run
            cases run
          · simp only [bind, Except.bind, empty, if_false] at run
            cases run
            rw [all] at empty ⊢
            exact ⟨c :: name, _, congrArg (c :: ·) split, .slot own fits empty, stops⟩
  | other =>
      rw [own] at run
      cases run

/-- A turn takes a lexeme off the input that does not go on with it. -/
theorem Lexeme.read {u left : List Char} {t : Option Token} {p : Char → Bool} (lexeme : Lexeme env u t p)
    (stops : Stops p left) {c : Char} {rest : List Char} (split : c :: rest = u ++ left) :
    readToken env c rest = .ok (t, left) := by
  cases lexeme with
  | blank own | bracket own =>
      obtain ⟨rfl, rfl⟩ := List.cons.inj split
      rw [readToken, own]
  | string own fits =>
      rw [List.cons_append, List.append_assoc] at split
      obtain ⟨rfl, rfl⟩ := List.cons.inj split
      rw [readToken, own]
      simp only [takeString_of_fits fits (show EndsLiteral (['"'] ++ left) left from .inl rfl)]
      rfl
  | openString own fits open_ =>
      have last := stops_always.mp stops
      rw [last, List.append_nil] at split
      rw [last]
      obtain ⟨rfl, rfl⟩ := List.cons.inj split
      rw [readToken, own]
      simp only [takeString_of_fits fits (.inr ⟨rfl, open_⟩)]
      rfl
  | @keyword c name own fits =>
      obtain ⟨rfl, rfl⟩ := List.cons.inj split
      rw [readToken, own]
      exact (readName_ok_iff fun name => .keyword (.ofList name)).mpr ⟨name, rfl, rfl, fits, stops⟩
  | @tag c name own fits =>
      obtain ⟨rfl, rfl⟩ := List.cons.inj split
      rw [readToken, own]
      exact (readName_ok_iff fun name => .taggedLiteral (.ofList name)).mpr ⟨name, rfl, rfl, fits, stops⟩
  | @minus c name own other fits =>
      obtain ⟨rfl, rfl⟩ := List.cons.inj split
      rw [readToken, own]
      change readMinus env (name ++ left) = _
      have symbol := (@readName_ok_iff _ _ (.int009 maxSymbolLength) _ _ _ _ fun name => .symbol (.ofList name)).mpr
        ⟨name, rfl, rfl, fits, stops⟩
      cases all : name ++ left with
      | nil =>
          have ⟨noName, noLeft⟩ := List.append_eq_nil_iff.mp all
          rw [noName, noLeft]
          rfl
      | cons d rest =>
          have notNumeric : env.isNumeric d = false := by
            cases name with
            | nil =>
                have part := stops d (by rw [← List.nil_append left, all]; rfl)
                cases numeric : env.isNumeric d with
                | false => rfl
                | true =>
                    rw [symbolPart, ReaderEnv.isAlphanumeric, numeric, Bool.or_true] at part
                    cases part
            | cons e name =>
                cases (List.cons.inj all).1
                exact other _ rfl
          rw [readMinus, notNumeric, if_neg Bool.false_ne_true, ← all]
          exact symbol
  | @negative c d num isFloat token own numeric number converts =>
      obtain ⟨rfl, rfl⟩ := List.cons.inj split
      rw [readToken, own]
      change readMinus env (d :: (num ++ left)) = _
      rw [readMinus, numeric, if_pos rfl]
      exact readNumber_ok_iff.mpr ⟨d :: num, isFloat, token, rfl, rfl, number, converts, stops⟩
  | @number c num isFloat token own number converts =>
      obtain ⟨rfl, rfl⟩ := List.cons.inj split
      rw [readToken, own]
      exact readNumber_ok_iff.mpr ⟨_ :: num, isFloat, token, rfl, rfl, number, converts, stops⟩
  | @symbol c name own fits =>
      obtain ⟨rfl, rfl⟩ := List.cons.inj split
      rw [readToken, own]
      exact (readName_ok_iff symbolToken).mpr ⟨_ :: name, rfl, rfl, fits, stops⟩
  | @operator c own =>
      obtain ⟨rfl, rfl⟩ := List.cons.inj split
      rw [readToken, own]
      apply congrArg Except.ok
      unfold readOperator
      split
      · next rest =>
          have plain := stops_cons.mp stops
          rw [beq_self_eq_true, Bool.true_and, Bool.or_eq_false_iff, beq_eq_false_iff_ne, beq_eq_false_iff_ne] at plain
          rw [if_neg (not_or.mpr plain)]
      · rfl
  | comparison own angle =>
      obtain ⟨rfl, rfl⟩ := List.cons.inj split
      rw [readToken, own]
      exact congrArg Except.ok (if_pos angle)
  | bang own =>
      obtain ⟨rfl, rfl⟩ := List.cons.inj split
      rw [readToken, own]
      rfl
  | @comment c text own inside =>
      obtain ⟨rfl, rfl⟩ := List.cons.inj split
      rw [readToken, own]
      exact congrArg (fun left => Except.ok (none, left)) (skipComment_eq_iff.mpr ⟨text, rfl, inside, stops⟩)
  | @slot c name own fits nonempty =>
      obtain ⟨rfl, rfl⟩ := List.cons.inj split
      rw [readToken, own]
      change readBindSlot env (name ++ left) = _
      rw [readBindSlot, takeName_ok_iff.mpr ⟨name, rfl, rfl, fits, stops⟩]
      exact if_neg nonempty

theorem Lexeme.ne_nil {u : List Char} {t : Option Token} {p : Char → Bool} (lexeme : Lexeme env u t p) : u ≠ [] := by
  cases lexeme <;> exact List.cons_ne_nil _ _

theorem readToken_leaves {c : Char} {rest left : List Char} {t : Option Token} (run : readToken env c rest = .ok (t, left)) :
    left <:+ rest := by
  obtain ⟨u, p, split, lexeme, _⟩ := readToken_ok run
  cases u with
  | nil => exact absurd rfl lexeme.ne_nil
  | cons d u => exact ⟨u, (List.cons.inj split).2.symm⟩

end
end Minigraf
