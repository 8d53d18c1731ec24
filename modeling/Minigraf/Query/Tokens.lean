import Minigraf.Lib.Readers
import Minigraf.Query.Edn

/-!
`tokenize` of `src/query/datalog/parser.rs`: one turn of its loop as a reader of the
characters, with the loops inside it.

What is asked of Unicode, and of other packages, is a parameter: which characters are
letters, numbers or white space, the float and the UUID of a text.
-/

namespace Minigraf

def maxStringLength : Nat := 1024 * 1024

def maxKeywordLength : Nat := 1024

def maxSymbolLength : Nat := 1024

/-- The properties of characters, as they are of ASCII. -/
structure Unicode where
  isAlphabetic : Char → Bool
  isNumeric : Char → Bool
  isWhitespace : Char → Bool
  alphabetic_ascii : ∀ c : Char, c.toNat < 128 → isAlphabetic c = c.isAlpha
  numeric_ascii : ∀ c : Char, c.toNat < 128 → isNumeric c = c.isDigit
  whitespace_ascii : ∀ c : Char, c.toNat < 128 → isWhitespace c = decide (c = ' ' ∨ 9 ≤ c.toNat ∧ c.toNat ≤ 13)
  whitespace_apart : ∀ c, isWhitespace c = true → isAlphabetic c = false ∧ isNumeric c = false

/-- Unicode as far as ASCII goes. -/
def Unicode.ascii : Unicode where
  isAlphabetic c := c.isAlpha
  isNumeric c := c.isDigit
  isWhitespace c := decide (c = ' ' ∨ 9 ≤ c.toNat ∧ c.toNat ≤ 13)
  alphabetic_ascii _ _ := rfl
  numeric_ascii _ _ := rfl
  whitespace_ascii _ _ := rfl
  whitespace_apart c white := by
    obtain rfl | range := of_decide_eq_true white
    · decide
    · have few : ∀ n : Fin 14, (Char.ofNat n).isAlpha = false ∧ (Char.ofNat n).isDigit = false := by decide
      have own := few ⟨c.toNat, by omega⟩
      rwa [Char.ofNat_toNat] at own

structure ReaderEnv extends Unicode where
  parseF64 : String → Option F64
  parseUuid : String → Option EntityId

/-- A reader of ASCII, to which no text is a float or a UUID. -/
def ReaderEnv.ascii : ReaderEnv := ⟨.ascii, fun _ => none, fun _ => none⟩

inductive Token where
  | leftParen
  | rightParen
  | leftBracket
  | rightBracket
  | leftBrace
  | rightBrace
  | keyword (k : String)
  | symbol (s : String)
  | string (s : String)
  | integer (i : Int64)
  | float (f : F64)
  | boolean (b : Bool)
  | taggedLiteral (tag : String)
  | nil
  | bindSlot (name : String)
  deriving DecidableEq, Repr

/-- The errors of reading, with what their messages name. -/
inductive ReadError where
  | prs001
  | prs002 (c : Char)
  | prs003 (got : Token)
  | prs004
  | prs005
  | prs006
  | prs007 (limit : Nat)
  | prs008 (limit : Nat)
  | prs009 (limit : Nat)
  | prs071
  | prs072
  | prs073 (tag : String)
  | prs074 (limit : Nat)
  | prs077 (got : Token)
  | int007 (text : String)
  | int008 (text : String)
  | int009 (limit : Nat)
  | int010 (limit : Nat)
  | int019 (message : String)
  deriving DecidableEq, Repr

def byteLength (cs : List Char) : Nat := (cs.map Char.utf8Size).sum

/-! ## Loops inside a token -/

/-- The characters of a keyword, tag, symbol or slot after those already taken. -/
def takeName (part : Char → Bool) (limit : Nat) (error : ReadError) (name : List Char) :
    List Char → Except ReadError (List Char × List Char)
  | [] => .ok (name, [])
  | c :: rest =>
      if part c then
        if limit ≤ byteLength name then .error error else takeName part limit error (name ++ [c]) rest
      else .ok (name, c :: rest)

def unescape (c : Char) : Char :=
  if c = 'n' then '\n' else if c = 't' then '\t' else if c = 'r' then '\r' else c

/-- A string after its opening quote: the end of the input ends it too. -/
def takeString (string : List Char) : List Char → Except ReadError (List Char × List Char)
  | [] => .ok (string, [])
  | c :: rest =>
      if c = '"' then .ok (string, rest)
      else if c = '\\' then
        match rest with
        | [] => .ok (string, [])
        | escaped :: rest => takeString (string ++ [unescape escaped]) rest
      else if maxStringLength ≤ byteLength string then .error (.prs007 maxStringLength)
      else takeString (string ++ [c]) rest

/-- What is left of a comment, from the newline on. -/
def skipComment : List Char → List Char
  | [] => []
  | c :: rest => if c = '\n' then c :: rest else skipComment rest

def digitsValue : List Char → Option Nat
  | [] => none
  | cs => cs.foldlM (fun n c => if c.isDigit then some (10 * n + (c.toNat - 48)) else none) 0

/-- `str::parse::<i64>`. -/
def parseI64 : List Char → Option Int64
  | '-' :: digits => (digitsValue digits).bind fun n => if n ≤ 2 ^ 63 then some (.ofInt (-n)) else none
  | '+' :: digits | digits => (digitsValue digits).bind fun n => if n < 2 ^ 63 then some (.ofInt n) else none

section

variable (env : ReaderEnv)

def ReaderEnv.isAlphanumeric (c : Char) : Bool := env.isAlphabetic c || env.isNumeric c

def keywordPart (c : Char) : Bool := env.isAlphanumeric c || c == '/' || c == '-' || c == '_' || c == '?'

def tagPart (c : Char) : Bool := env.isAlphanumeric c || c == '-'

def symbolPart (c : Char) : Bool := env.isAlphanumeric c || c == '?' || c == '_' || c == '-' || c == '/'

def slotPart (c : Char) : Bool := env.isAlphanumeric c || c == '_' || c == '-'

def parseNumber (isFloat : Bool) (num : List Char) : List Char → (Bool × List Char) × List Char
  | [] => ((isFloat, num), [])
  | c :: rest =>
      if env.isNumeric c then parseNumber isFloat (num ++ [c]) rest
      else if c = '.' ∧ isFloat = false then parseNumber true (num ++ [c]) rest
      else ((isFloat, num), c :: rest)

def numberToken (isFloat : Bool) (num : List Char) : Except ReadError Token :=
  if isFloat then
    match env.parseF64 (.ofList num) with
    | some f => .ok (.float f)
    | none => .error (.int007 (.ofList num))
  else
    match parseI64 num with
    | some i => .ok (.integer i)
    | none => .error (.int008 (.ofList num))

def symbolToken (symbol : List Char) : Token :=
  if symbol = "true".toList then .boolean true
  else if symbol = "false".toList then .boolean false
  else if symbol = "nil".toList then .nil
  else .symbol (.ofList symbol)

/-! ## One turn -/

/-- The arms of the `match` on the next character. -/
inductive CharClass where
  | blank
  | bracket (token : Token)
  | quote
  | colon
  | hash
  | minus
  | digit
  | symbol
  | operator
  | bang
  | semicolon
  | dollar
  | other

def charClass (c : Char) : CharClass :=
  if c = ' ' ∨ c = '\t' ∨ c = '\n' ∨ c = '\r' ∨ c = ',' then .blank
  else if c = '(' then .bracket .leftParen
  else if c = ')' then .bracket .rightParen
  else if c = '[' then .bracket .leftBracket
  else if c = ']' then .bracket .rightBracket
  else if c = '{' then .bracket .leftBrace
  else if c = '}' then .bracket .rightBrace
  else if c = '"' then .quote
  else if c = ':' then .colon
  else if c = '#' then .hash
  else if c = '-' then .minus
  else if '0' ≤ c ∧ c ≤ '9' then .digit
  else if env.isAlphabetic c ∨ c = '?' ∨ c = '_' then .symbol
  else if c = '<' ∨ c = '>' ∨ c = '=' ∨ c = '+' ∨ c = '*' ∨ c = '/' then .operator
  else if c = '!' then .bang
  else if c = ';' then .semicolon
  else if c = '$' then .dollar
  else .other

def readNumber (num cs : List Char) : Except ReadError (Option Token × List Char) := do
  let ((isFloat, num), rest) := parseNumber env false num cs
  let token ← numberToken env isFloat num
  pure (some token, rest)

/-- A minus sign, of a number or of a symbol. -/
def readMinus : List Char → Except ReadError (Option Token × List Char)
  | [] => .ok (some (.symbol "-"), [])
  | c :: rest =>
      if env.isNumeric c then readNumber env ['-'] (c :: rest)
      else do
        let (symbol, rest) ← takeName (symbolPart env) maxSymbolLength (.int009 maxSymbolLength) ['-'] (c :: rest)
        pure (some (.symbol (.ofList symbol)), rest)

def readOperator (c : Char) : List Char → Option Token × List Char
  | '=' :: rest =>
      if c = '<' ∨ c = '>' then (some (.symbol (.ofList [c, '='])), rest) else (some (.symbol (.ofList [c])), '=' :: rest)
  | rest => (some (.symbol (.ofList [c])), rest)

def readBang : List Char → Except ReadError (Option Token × List Char)
  | '=' :: rest => .ok (some (.symbol "!="), rest)
  | _ => .error (.prs002 '!')

def readBindSlot (cs : List Char) : Except ReadError (Option Token × List Char) := do
  let (name, rest) ← takeName (slotPart env) maxSymbolLength (.prs074 maxSymbolLength) [] cs
  if name = [] then .error (.int019 "Bind slot '$' must be followed by an identifier (e.g. $entity)")
  else pure (some (.bindSlot (.ofList name)), rest)

def readToken (c : Char) (rest : List Char) : Except ReadError (Option Token × List Char) :=
  match charClass env c with
  | .blank => .ok (none, rest)
  | .bracket token => .ok (some token, rest)
  | .quote => do
      let (string, rest) ← takeString [] rest
      pure (some (.string (.ofList string)), rest)
  | .colon => do
      let (keyword, rest) ← takeName (keywordPart env) maxKeywordLength (.prs008 maxKeywordLength) [':'] rest
      pure (some (.keyword (.ofList keyword)), rest)
  | .hash => do
      let (tag, rest) ← takeName (tagPart env) maxSymbolLength (.prs009 maxSymbolLength) [] rest
      pure (some (.taggedLiteral (.ofList tag)), rest)
  | .minus => readMinus env rest
  | .digit => readNumber env [] (c :: rest)
  | .symbol => do
      let (symbol, rest) ← takeName (symbolPart env) maxSymbolLength (.int009 maxSymbolLength) [] (c :: rest)
      pure (some (symbolToken symbol), rest)
  | .operator => .ok (readOperator c rest)
  | .bang => readBang rest
  | .semicolon => .ok (none, skipComment rest)
  | .dollar => readBindSlot env rest
  | .other => .error (.prs002 c)

end
end Minigraf
