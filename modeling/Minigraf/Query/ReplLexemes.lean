import Minigraf.Query.ReplLayout

/-!
Lexemes as the loop meets them: white space, which it may trim, comments, strings, and solid
ones, which stand on one line and which its scanner counts as it should.
-/

namespace Minigraf

/-- A lexeme without white space. -/
structure Solid (env : ReaderEnv) (u : List Char) (t : Option Token) (p : Char → Bool) : Prop where
  dark : ∀ c ∈ u, env.isWhitespace c = false
  scans : Scan.start.run u = ⟨parenDepth t.toList, false, false⟩
  comma : t = none → u = [',']
  paren : t = some .leftParen → '(' ∈ u
  newline : p '\n' = false
  semicolon : u.head? ≠ some ';'

inductive LoopKind (env : ReaderEnv) : List Char → Option Token → (Char → Bool) → Prop
  | white {c : Char} : env.isWhitespace c = true → LoopKind env [c] none fun _ => false
  | comment {text : List Char} : '\n' ∉ text → LoopKind env (';' :: text) none fun x => x != '\n'
  | string {pieces : List Piece} {s : String} : TakesString [] pieces →
      LoopKind env ('"' :: (pieces.flatMap Piece.text ++ ['"'])) (some (.string s)) fun _ => false
  | openString {u : List Char} {s : String} : LoopKind env u (some (.string s)) fun _ => true
  | solid {u : List Char} {t : Option Token} {p : Char → Bool} : Solid env u t p → LoopKind env u t p

section

variable {env : ReaderEnv}

/-! ## White space -/

theorem ne_of_white {c : Char} (white : env.isWhitespace c = true) (d : Char) (ascii : d.toNat < 128)
    (dark : decide (d = ' ' ∨ 9 ≤ d.toNat ∧ d.toNat ≤ 13) = false) : c ≠ d := by
  rintro rfl
  rw [env.whitespace_ascii c ascii, dark] at white
  cases white

theorem charClass_white {c : Char} (white : env.isWhitespace c = true) : charClass env c = .blank ∨ charClass env c = .other := by
  by_cases blank : c = ' ' ∨ c = '\t' ∨ c = '\n' ∨ c = '\r' ∨ c = ','
  · exact .inl (if_pos blank)
  · have ne : ∀ d : Char, d.toNat < 128 → decide (d = ' ' ∨ 9 ≤ d.toNat ∧ d.toNat ≤ 13) = false → c ≠ d := ne_of_white white
    have digit : ¬ ('0' ≤ c ∧ c ≤ '9') := by
      intro range
      have low : 48 ≤ c.toNat := range.1
      have high : c.toNat ≤ 57 := range.2
      refine ne c (by omega) ?_ rfl
      rw [decide_eq_false_iff_not, not_or]
      refine ⟨?_, by omega⟩
      rintro rfl
      exact absurd low (by decide)
    have symbol : ¬ (env.isAlphabetic c = true ∨ c = '?' ∨ c = '_') := by
      rw [(env.whitespace_apart c white).1]
      simp [ne '?' (by decide) (by decide), ne '_' (by decide) (by decide)]
    have operator : ¬ (c = '<' ∨ c = '>' ∨ c = '=' ∨ c = '+' ∨ c = '*' ∨ c = '/') := by
      simp [ne '<' (by decide) (by decide), ne '>' (by decide) (by decide), ne '=' (by decide) (by decide),
        ne '+' (by decide) (by decide), ne '*' (by decide) (by decide), ne '/' (by decide) (by decide)]
    right
    unfold charClass
    rw [if_neg blank, if_neg (ne '(' (by decide) (by decide)), if_neg (ne ')' (by decide) (by decide)),
      if_neg (ne '[' (by decide) (by decide)), if_neg (ne ']' (by decide) (by decide)), if_neg (ne '{' (by decide) (by decide)),
      if_neg (ne '}' (by decide) (by decide)), if_neg (ne '"' (by decide) (by decide)), if_neg (ne ':' (by decide) (by decide)),
      if_neg (ne '#' (by decide) (by decide)), if_neg (ne '-' (by decide) (by decide)), if_neg digit, if_neg symbol,
      if_neg operator, if_neg (ne '!' (by decide) (by decide)), if_neg (ne ';' (by decide) (by decide)),
      if_neg (ne '$' (by decide) (by decide))]

theorem charClass_dark {c : Char} {cls : CharClass} (own : charClass env c = cls) (blank : cls ≠ .blank) (other : cls ≠ .other) :
    env.isWhitespace c = false := by
  cases white : env.isWhitespace c with
  | false => rfl
  | true =>
      obtain first | second := charClass_white white
      · exact absurd (own.symm.trans first) blank
      · exact absurd (own.symm.trans second) other

/-- The characters of names and numbers are no white space. -/
def Dark (env : ReaderEnv) (part : Char → Bool) : Prop := ∀ c, part c = true → env.isWhitespace c = false

theorem dark_of {part : Char → Bool} (all : ∀ c, env.isWhitespace c = true → part c = false) : Dark env part := by
  intro c own
  cases white : env.isWhitespace c with
  | false => rfl
  | true =>
      rw [all c white] at own
      cases own

theorem parts_dark (env : ReaderEnv) :
    Dark env (keywordPart env) ∧ Dark env (tagPart env) ∧ Dark env (symbolPart env) ∧ Dark env (slotPart env) ∧
      Dark env (numberPart env false) := by
  have letters : ∀ c, env.isWhitespace c = true → env.isAlphanumeric c = false := by
    intro c white
    have apart := env.whitespace_apart c white
    rw [ReaderEnv.isAlphanumeric, apart.1, apart.2]
    rfl
  have ne : ∀ c, env.isWhitespace c = true → c ≠ '/' ∧ c ≠ '-' ∧ c ≠ '_' ∧ c ≠ '?' ∧ c ≠ '.' := by
    intro c white
    have ne := ne_of_white white
    exact ⟨ne '/' (by decide) (by decide), ne '-' (by decide) (by decide), ne '_' (by decide) (by decide),
      ne '?' (by decide) (by decide), ne '.' (by decide) (by decide)⟩
  refine ⟨?_, ?_, ?_, ?_, ?_⟩ <;> apply dark_of <;> intro c white <;>
    obtain ⟨slash, minus, under, question, dot⟩ := ne c white
  · simp [keywordPart, letters c white, slash, minus, under, question]
  · simp [tagPart, letters c white, minus]
  · simp [symbolPart, letters c white, slash, minus, under, question]
  · simp [slotPart, letters c white, minus, under]
  · simp [numberPart, (env.whitespace_apart c white).2, dot]

theorem part_newline {part : Char → Bool} (dark : Dark env part) : part '\n' = false := by
  cases own : part '\n' with
  | false => rfl
  | true =>
      have white := env.whitespace_ascii '\n' (by decide)
      rw [dark '\n' own] at white
      exact absurd white (by decide)

/-! ## Solid lexemes -/

theorem semicolon_charClass : charClass env ';' = .semicolon := by
  have letter : env.isAlphabetic ';' = false := env.alphabetic_ascii ';' (by decide)
  unfold charClass
  simp [letter]

/-- The turns that read a name, a number or an operator. -/
def CharClass.isWord : CharClass → Bool
  | .colon | .hash | .minus | .digit | .symbol | .operator | .bang | .dollar => true
  | _ => false

/-- A lexeme that is a character and more characters of its kind. -/
theorem solid_name {c : Char} {cls : CharClass} (own : charClass env c = cls) {part : Char → Bool} (dark : Dark env part)
    (quiet : Quiet part) {name : List Char} (all : ∀ c ∈ name, part c = true) {t : Token} (delta : t.delta = 0)
    {p : Char → Bool} (newline : p '\n' = false)
    (kind : cls.isWord = true) :
    Solid env (c :: name) (some t) p where
  dark := by
    refine List.forall_mem_cons.mpr ⟨charClass_dark own ?_ ?_, fun d mem => dark d (all d mem)⟩
    · rintro rfl
      cases kind
    · rintro rfl
      cases kind
  scans := by
    rw [scan_cons (charClass_quiet own ?_ ?_ ?_) (scan_names quiet all)]
    · rw [Option.toList_some, parenDepth_cons, delta]
      rfl
    · rintro rfl
      cases kind
    · rintro rfl
      cases kind
    · rintro rfl
      cases kind
  comma := nofun
  paren same := by
    cases same
    cases delta
  newline := newline
  semicolon := by
    have ne : c ≠ ';' := by
      apply charClass_ne own
      intro same
      rw [← same, semicolon_charClass] at kind
      cases kind
    intro same
    exact ne (Option.some.inj same)

theorem symbolToken_delta (symbol : List Char) : (symbolToken symbol).delta = 0 := by
  unfold symbolToken
  repeat
    split
    · rfl
  rfl

theorem numberToken_delta {isFloat : Bool} {num : List Char} {token : Token} (run : numberToken env isFloat num = .ok token) :
    token.delta = 0 := by
  obtain ⟨_, rfl⟩ | ⟨_, rfl⟩ := numberToken_cases run
  · rfl
  · rfl

theorem solid_bracket {c : Char} {token : Token} (own : charClass env c = .bracket token) :
    Solid env [c] (some token) fun _ => false := by
  have dark := charClass_dark own nofun nofun
  have known := charClass_bracket own
  simp only [List.mem_cons, Prod.mk.injEq, List.not_mem_nil, or_false] at known
  refine ⟨List.forall_mem_singleton.mpr dark, ?_, nofun, ?_, rfl, ?_⟩
  · obtain ⟨rfl, rfl⟩ | ⟨rfl, rfl⟩ | ⟨rfl, rfl⟩ | ⟨rfl, rfl⟩ | ⟨rfl, rfl⟩ | ⟨rfl, rfl⟩ := known <;> rfl
  · intro paren
    cases paren
    obtain ⟨rfl, _⟩ | ⟨_, no⟩ | ⟨_, no⟩ | ⟨_, no⟩ | ⟨_, no⟩ | ⟨_, no⟩ := known
    · exact List.mem_cons_self
    · cases no
    · cases no
    · cases no
    · cases no
    · cases no
  · intro same
    rw [Option.some.inj same, semicolon_charClass] at own
    cases own

theorem dark_equals : Dark env fun c => c == '=' := by
  apply dark_of
  intro c white
  exact beq_eq_false_iff_ne.mpr (ne_of_white white '=' (by decide) (by decide))

theorem quiet_equals : Quiet fun c => c == '=' := ⟨rfl, rfl, rfl⟩

theorem Lexeme.loopKind {u : List Char} {t : Option Token} {p : Char → Bool} (lexeme : Lexeme env u t p) : LoopKind env u t p := by
  obtain ⟨darkKeyword, darkTag, darkSymbol, darkSlot, darkNumber⟩ := parts_dark env
  obtain ⟨quietKeyword, quietTag, quietSymbol, quietSlot, quietNumber⟩ := parts_quiet env
  have number_newline : ∀ isFloat, numberPart env isFloat '\n' = false := by
    intro isFloat
    cases own : numberPart env isFloat '\n' with
    | false => rfl
    | true =>
        have more : numberPart env false '\n' = true := by
          rw [numberPart, Bool.or_eq_true, Bool.and_eq_true] at own ⊢
          exact own.imp_right fun dot => ⟨dot.1, rfl⟩
        rw [part_newline darkNumber] at more
        cases more
  cases lexeme with
  | blank own =>
      obtain rfl | rfl | rfl | rfl | rfl := charClass_blank own
      · exact .white (env.whitespace_ascii ' ' (by decide))
      · exact .white (env.whitespace_ascii '\t' (by decide))
      · exact .white (env.whitespace_ascii '\n' (by decide))
      · exact .white (env.whitespace_ascii '\r' (by decide))
      · exact .solid ⟨List.forall_mem_singleton.mpr (env.whitespace_ascii ',' (by decide)), rfl, fun _ => rfl, by simp, rfl, by simp⟩
  | bracket own => exact .solid (solid_bracket own)
  | string own takes =>
      rw [charClass_quote own]
      exact .string takes
  | openString => exact .openString
  | keyword own takes => exact .solid (solid_name own darkKeyword quietKeyword takes.all rfl (part_newline darkKeyword) rfl)
  | tag own takes => exact .solid (solid_name own darkTag quietTag takes.all rfl (part_newline darkTag) rfl)
  | minus own _ takes => exact .solid (solid_name own darkSymbol quietSymbol takes.all rfl (part_newline darkSymbol) rfl)
  | negative own _ number converts =>
      exact .solid (solid_name own darkNumber quietNumber number.all (numberToken_delta converts) (number_newline _) rfl)
  | number own number converts =>
      exact .solid (solid_name own darkNumber quietNumber (fun d mem => number.all d (List.mem_cons_of_mem _ mem))
        (numberToken_delta converts) (number_newline _) rfl)
  | symbol own takes =>
      exact .solid (solid_name own darkSymbol quietSymbol (fun d mem => takes.all d (List.mem_cons_of_mem _ mem))
        (symbolToken_delta _) (part_newline darkSymbol) rfl)
  | operator own => exact .solid (solid_name own darkSymbol quietSymbol (List.forall_mem_nil _) rfl rfl rfl)
  | comparison own _ | bang own => exact .solid (solid_name own dark_equals quiet_equals (by simp) rfl rfl rfl)
  | comment own inside =>
      rw [charClass_semicolon own]
      exact .comment inside
  | slot own takes _ => exact .solid (solid_name own darkSlot quietSlot takes.all rfl (part_newline darkSlot) rfl)

end
end Minigraf
