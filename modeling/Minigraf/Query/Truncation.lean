import Mathlib.Data.List.ReduceOption
import Minigraf.Query.Commands

/-!
A command that is cut off: where the part that is left is accepted as well, only blanks and
comments were cut, for a command ends in a parenthesis, which no more text can change.
-/

namespace Minigraf

/-- Whitespace, commas and comments. -/
inductive Blank : List Char → Prop
  | nil : Blank []
  | blank {c : Char} {cs : List Char} : c = ' ' ∨ c = '\t' ∨ c = '\n' ∨ c = '\r' ∨ c = ',' → Blank cs → Blank (c :: cs)
  | comment {text cs : List Char} : '\n' ∉ text → cs.head?.all (· == '\n') = true → Blank cs → Blank (';' :: (text ++ cs))

/-- Nothing, or a comment that the end of the text cuts off. -/
def CommentBegun (b : List Char) : Prop := b = [] ∨ ∃ text, b = ';' :: text ∧ '\n' ∉ text

section

variable {env : ReaderEnv}

/-- The text is read as these tokens. -/
def Lexed (env : ReaderEnv) (input : List Char) (tokens : List (Option Token)) : Prop :=
  (tokenReader env).Loop (fun _ => false) none input tokens []

theorem tokenize_ok_iff {input : List Char} {tokens : List Token} :
    tokenize env input = .ok tokens ↔ ∃ read, Lexed env input read ∧ read.reduceOption = tokens := by
  constructor
  · intro run
    obtain ⟨⟨read, left⟩, loop, run⟩ := except_bind_ok run
    cases run
    have ran := Reader.loop_ok loop
    rw [ran.all] at ran
    exact ⟨read, ran, rfl⟩
  · intro ⟨read, lexed, same⟩
    rw [tokenize, lexed.run, ← same]
    rfl

theorem lexed_cons_iff {c : Char} {rest : List Char} {tokens : List (Option Token)} :
    Lexed env (c :: rest) tokens ↔ ∃ t left later, tokens = t :: later ∧ readToken env c rest = .ok (t, left) ∧ Lexed env left later := by
  constructor
  · intro lexed
    cases lexed with
    | close never => cases never
    | cons _ run later => exact ⟨_, _, _, rfl, run, later⟩
  · intro ⟨t, left, later, same, run, lexed⟩
    rw [same]
    exact .cons rfl run lexed

theorem lexed_nil_iff {tokens : List (Option Token)} : Lexed env [] tokens ↔ tokens = [] := by
  constructor
  · intro lexed
    cases lexed
    rfl
  · intro none_
    rw [none_]
    exact .nil rfl

/-- A lexeme and what follows it. -/
theorem Lexeme.lexed {u left : List Char} {t : Option Token} {p : Char → Bool} {later : List (Option Token)}
    (lexeme : Lexeme env u t p) (stops : Stops p left) (lexed : Lexed env left later) : Lexed env (u ++ left) (t :: later) := by
  cases split : u ++ left with
  | nil => exact absurd (List.append_eq_nil_iff.mp split).1 lexeme.ne_nil
  | cons c rest => exact lexed_cons_iff.mpr ⟨t, left, later, rfl, lexeme.read stops split.symm, lexed⟩

theorem Lexeme.of_lexed {u left : List Char} {t : Option Token} {p : Char → Bool} {tokens : List (Option Token)}
    (lexeme : Lexeme env u t p) (stops : Stops p left) (lexed : Lexed env (u ++ left) tokens) :
    ∃ later, tokens = t :: later ∧ Lexed env left later := by
  cases split : u ++ left with
  | nil => exact absurd (List.append_eq_nil_iff.mp split).1 lexeme.ne_nil
  | cons c rest =>
      rw [split] at lexed
      obtain ⟨t', left', later, same, run, lexed⟩ := lexed_cons_iff.mp lexed
      rw [lexeme.read stops split.symm] at run
      cases run
      exact ⟨later, same, lexed⟩

theorem lexed_cases {input : List Char} {tokens : List (Option Token)} (lexed : Lexed env input tokens) :
    input = [] ∧ tokens = [] ∨ ∃ u t p left later, input = u ++ left ∧ tokens = t :: later ∧ Lexeme env u t p ∧ Stops p left ∧
      Lexed env left later := by
  cases input with
  | nil => exact .inl ⟨rfl, lexed_nil_iff.mp lexed⟩
  | cons c rest =>
      obtain ⟨t, left, later, same, run, lexed⟩ := lexed_cons_iff.mp lexed
      obtain ⟨u, p, split, lexeme, stops⟩ := readToken_ok run
      exact .inr ⟨u, t, p, left, later, split, same, lexeme, stops, lexed⟩

/-! ## Blanks -/

theorem charClass_blank {c : Char} (own : charClass env c = .blank) : c = ' ' ∨ c = '\t' ∨ c = '\n' ∨ c = '\r' ∨ c = ',' := by
  by_contra other
  unfold charClass at own
  rw [if_neg other] at own
  iterate 16 replace own := else_of_ne own nofun
  cases own

theorem charClass_semicolon {c : Char} (own : charClass env c = .semicolon) : c = ';' := by
  by_contra other
  unfold charClass at own
  iterate 15 replace own := else_of_ne own nofun
  rw [if_neg other] at own
  replace own := else_of_ne own nofun
  cases own

/-- A lexeme without a token is a blank or a comment. -/
theorem Lexeme.none_cases {u : List Char} {p : Char → Bool} (lexeme : Lexeme env u none p) :
    (∃ c, u = [c] ∧ (c = ' ' ∨ c = '\t' ∨ c = '\n' ∨ c = '\r' ∨ c = ',') ∧ p = fun _ => false) ∨
      ∃ text, u = ';' :: text ∧ '\n' ∉ text ∧ p = fun x => x != '\n' := by
  cases lexeme with
  | blank own => exact .inl ⟨_, rfl, charClass_blank own, rfl⟩
  | comment own inside =>
      rw [charClass_semicolon own]
      exact .inr ⟨_, rfl, inside, rfl⟩

theorem blank_of_lexed {input : List Char} {tokens : List (Option Token)} (lexed : Lexed env input tokens)
    (none_ : tokens.reduceOption = []) : Blank input := by
  induction len : input.length using Nat.strongRecOn generalizing input tokens with
  | ind n ih =>
      obtain ⟨rfl, _⟩ | ⟨u, t, p, left, later, rfl, rfl, lexeme, stops, behind⟩ := lexed_cases lexed
      · exact .nil
      · cases t with
        | some t =>
            rw [List.reduceOption_cons_of_some] at none_
            cases none_
        | none =>
            rw [List.reduceOption_cons_of_none] at none_
            have shorter : left.length < n := by
              have some_ := List.length_pos_iff.mpr lexeme.ne_nil
              rw [List.length_append] at len
              omega
            have blank := ih left.length shorter behind none_ rfl
            obtain ⟨c, rfl, own, _⟩ | ⟨text, rfl, inside, rfl⟩ := lexeme.none_cases
            · exact .blank own blank
            · refine .comment inside ?_ blank
              cases left with
              | nil => rfl
              | cons d left => simpa using stops_cons.mp stops

/-! ## More text -/

theorem Stops.append {p : Char → Bool} {left : List Char} (stops : Stops p left) (some_ : left ≠ []) (more : List Char) :
    Stops p (left ++ more) := by
  cases left with
  | nil => exact absurd rfl some_
  | cons c left => exact stops_cons.mpr (stops_cons.mp stops)

theorem numberToken_cases {isFloat : Bool} {num : List Char} {token : Token} (run : numberToken env isFloat num = .ok token) :
    (∃ i, token = .integer i) ∨ ∃ f, token = .float f := by
  unfold numberToken at run
  split at run
  · split at run
    · cases run
      exact .inr ⟨_, rfl⟩
    · cases run
  · split at run
    · cases run
      exact .inl ⟨_, rfl⟩
    · cases run

theorem symbolToken_ne (symbol : List Char) : symbolToken symbol ≠ .rightParen := by
  unfold symbolToken
  repeat
    split
    · nofun
  nofun

theorem Lexeme.rightParen {u : List Char} {p : Char → Bool} (lexeme : Lexeme env u (some .rightParen) p) :
    p = fun _ => false := by
  generalize same : some Token.rightParen = t at lexeme
  cases lexeme with
  | bracket own => rfl
  | negative _ _ _ converts | number _ _ converts =>
      obtain ⟨_, rfl⟩ | ⟨_, rfl⟩ := numberToken_cases converts
      · cases same
      · cases same
  | symbol _ _ =>
      cases (symbolToken_ne _) (Option.some.inj same).symm
  | blank | comment | string | openString | keyword | tag | minus | operator | comparison | bang | slot => cases same

/-- What was read before the text ends is read of a longer text too, but for a comment that
the end cut off. -/
structure CutOff (env : ReaderEnv) (input : List Char) (tokens : List Token) (q b : List Char) : Prop where
  split : input = q ++ b
  begun : CommentBegun b
  lexed : ∃ read, Lexed env q read ∧ read.reduceOption = tokens
  longer : ∀ more read, Lexed env (input ++ more) read → ∃ later, Lexed env (b ++ more) later ∧
    read.reduceOption = tokens ++ later.reduceOption

theorem CutOff.nil : CutOff env [] [] [] [] where
  split := rfl
  begun := .inl rfl
  lexed := ⟨[], lexed_nil_iff.mpr rfl, rfl⟩
  longer _ read lexed := ⟨read, lexed, rfl⟩

theorem CutOff.cons {u left q b : List Char} {t : Option Token} {p : Char → Bool} {tokens : List Token} (lexeme : Lexeme env u t p)
    (stops : ∀ more, Stops p (left ++ more)) (cut : CutOff env left tokens q b) :
    CutOff env (u ++ left) (t.toList ++ tokens) (u ++ q) b where
  split := by rw [cut.split, List.append_assoc]
  begun := cut.begun
  lexed := by
    obtain ⟨read, lexed, same⟩ := cut.lexed
    have stops' : Stops p q := by
      cases q with
      | nil => exact Stops.nil p
      | cons c q =>
          have own := stops []
          rw [cut.split] at own
          exact stops_cons.mpr (stops_cons.mp own)
    refine ⟨t :: read, lexeme.lexed stops' lexed, ?_⟩
    rw [← same]
    cases t with
    | none => exact List.reduceOption_cons_of_none _
    | some t => exact List.reduceOption_cons_of_some _ _
  longer more read lexed := by
    rw [List.append_assoc] at lexed
    obtain ⟨later, rfl, behind⟩ := lexeme.of_lexed (stops more) lexed
    obtain ⟨last, rest, same⟩ := cut.longer more later behind
    refine ⟨last, rest, ?_⟩
    rw [List.append_assoc, ← same]
    cases t with
    | none => exact List.reduceOption_cons_of_none _
    | some t => exact List.reduceOption_cons_of_some _ _

/-- A text whose last token is a parenthesis. -/
theorem exists_cut {input : List Char} {read : List (Option Token)} (lexed : Lexed env input read)
    (last : ∀ t ∈ read.reduceOption.getLast?, t = .rightParen) : ∃ q b, CutOff env input read.reduceOption q b := by
  induction len : input.length using Nat.strongRecOn generalizing input read with
  | ind n ih =>
      obtain ⟨rfl, rfl⟩ | ⟨u, t, p, left, later, rfl, rfl, lexeme, stops, behind⟩ := lexed_cases lexed
      · exact ⟨[], [], .nil⟩
      · have all : (t :: later).reduceOption = t.toList ++ later.reduceOption := by
          cases t with
          | none => exact List.reduceOption_cons_of_none _
          | some t => exact List.reduceOption_cons_of_some _ _
        rw [all] at last ⊢
        by_cases more : left = []
        · rw [more] at behind ⊢
          cases lexed_nil_iff.mp behind
          cases t with
          | some t =>
              have paren := last t rfl
              rw [paren] at lexeme ⊢
              have stops' : ∀ more, Stops p ([] ++ more) := by
                rw [lexeme.rightParen]
                exact fun more => Stops.never _
              exact ⟨_, _, CutOff.cons lexeme stops' .nil⟩
          | none =>
              obtain ⟨c, rfl, _, rfl⟩ | ⟨text, rfl, inside, _⟩ := lexeme.none_cases
              · exact ⟨_, _, CutOff.cons lexeme (fun more => Stops.never _) .nil⟩
              · refine ⟨[], ';' :: text, List.append_nil _, .inr ⟨text, rfl, inside⟩, ⟨[], lexed_nil_iff.mpr rfl, rfl⟩, ?_⟩
                intro more read longer
                rw [List.append_nil] at longer
                exact ⟨read, longer, rfl⟩
        · have shorter : left.length < n := by
            have some_ := List.length_pos_iff.mpr lexeme.ne_nil
            rw [List.length_append] at len
            omega
          have last' : ∀ t ∈ later.reduceOption.getLast?, t = .rightParen := by
            intro t' mem
            apply last t'
            rw [List.getLast?_append, mem]
            rfl
          obtain ⟨q, b, cut⟩ := ih left.length shorter behind last' rfl
          exact ⟨u ++ q, b, CutOff.cons lexeme (fun rest => stops.append more rest) cut⟩

/-! ## More tokens -/

theorem parseEntry_append {value : Reader ReadError Token EdnValue} (more : List Token)
    (goes : ∀ {t : Token} {rest left : List Token} {v : EdnValue}, value.read t rest = .ok (v, left) →
      value.read t (rest ++ more) = .ok (v, left ++ more))
    {t : Token} {rest left : List Token} {entry : EdnValue × EdnValue} (run : parseEntry value t rest = .ok (entry, left)) :
    parseEntry value t (rest ++ more) = .ok (entry, left ++ more) := by
  obtain ⟨t', rest', first, second⟩ := parseEntry_ok run
  exact parseEntry_of_read (goes first) (goes second)

theorem parseValue_append (depth : Nat) (more : List Token) {t : Token} {rest left : List Token} {v : EdnValue}
    (run : (parseValue env depth).read t rest = .ok (v, left)) :
    (parseValue env depth).read t (rest ++ more) = .ok (v, left ++ more) := by
  induction depth generalizing t rest left v with
  | zero => cases run
  | succ depth ih =>
      obtain ⟨_, same, reads⟩ := parseValue_ok_iff.mp run
      cases same
      apply parseValue_ok_iff.mpr
      refine ⟨depth, rfl, ?_⟩
      cases reads with
      | atom own => exact .atom own
      | uuid id => exact .uuid id
      | list loop => exact .list (loop.append more ih)
      | vector loop => exact .vector (loop.append more ih)
      | map loop => exact .map (loop.append more (parseEntry_append more ih))

theorem atomValue_ne_list (t : Token) (elements : List EdnValue) : atomValue t ≠ some (.list elements) := by
  intro own
  cases t with
  | symbol s =>
      have value := Option.some.inj own
      unfold symbolValue at value
      split at value <;> cases value
  | _ => cases own

/-- A list ends in its parenthesis. -/
theorem list_getLast {depth : Nat} {t : Token} {rest : List Token} {elements : List EdnValue}
    (run : (parseValue env depth).read t rest = .ok (.list elements, [])) : (t :: rest).getLast? = some .rightParen := by
  obtain ⟨_, _, reads⟩ := parseValue_ok_iff.mp run
  generalize same : EdnValue.list elements = v at reads
  generalize none_ : ([] : List Token) = left at reads
  cases reads with
  | list loop =>
      obtain ⟨front, last, split, closes⟩ := loop.closed
      rw [split, ← none_, of_decide_eq_true closes]
      exact List.getLast?_concat (l := .leftParen :: front)
  | atom own =>
      rw [← same] at own
      exact absurd own (atomValue_ne_list t elements)
  | uuid | vector | map => cases same

end

/-- A command that is accepted, and accepted as well with more text behind it, is the same
command, and what stands behind it is blank. -/
theorem parseDatalogCommand_cut {env : ParserEnv} {reader : ReaderEnv} {p r : List Char} {command command' : DatalogCommand}
    (cut : parseDatalogCommand env reader p = .ok command) (whole : parseDatalogCommand env reader (p ++ r) = .ok command') :
    command' = command ∧ ∃ q b, p = q ++ b ∧ CommentBegun b ∧ parseDatalogCommand env reader q = .ok command ∧ Blank (b ++ r) := by
  obtain ⟨elements, edn, parsed⟩ := parseDatalogCommand_ok_iff.mp cut
  obtain ⟨elements', edn', parsed'⟩ := parseDatalogCommand_ok_iff.mp whole
  obtain ⟨t, rest, tokens, value⟩ := parseEdn_ok_iff.mp edn
  obtain ⟨t', rest', tokens', value'⟩ := parseEdn_ok_iff.mp edn'
  obtain ⟨read, lexed, same⟩ := tokenize_ok_iff.mp tokens
  obtain ⟨read', lexed', same'⟩ := tokenize_ok_iff.mp tokens'
  have last : ∀ t ∈ read.reduceOption.getLast?, t = .rightParen := by
    intro t'' mem
    rw [same, list_getLast value] at mem
    exact (Option.some.inj mem).symm
  obtain ⟨q, b, kept⟩ := exists_cut lexed last
  rw [same] at kept
  obtain ⟨later, behind, more⟩ := kept.longer r read' lexed'
  rw [same'] at more
  obtain ⟨rfl, rfl⟩ := List.cons.inj more
  have longer := parseValue_append maxRecursionDepth later.reduceOption value
  have results := Prod.mk.inj (Except.ok.inj (value'.symm.trans longer))
  have none_ : later.reduceOption = [] := results.2.symm
  rw [show elements' = elements from EdnValue.list.inj results.1] at parsed'
  refine ⟨Except.ok.inj (parsed'.symm.trans parsed), q, b, kept.split, kept.begun, ?_, blank_of_lexed behind none_⟩
  exact parseDatalogCommand_ok_iff.mpr ⟨elements, parseEdn_ok_iff.mpr ⟨t', rest, tokenize_ok_iff.mpr kept.lexed, value⟩, parsed⟩

theorem parseDatalogCommand_cut_retract :
    DatalogCommand.retract ⟨[], none, none⟩ = .retract ⟨[], none, none⟩ ∧ ∃ q b, "(retract []) ;".toList = q ++ b ∧ CommentBegun b ∧
      parseDatalogCommand ⟨.error, fun _ => .ok ()⟩ .ascii q = .ok (.retract ⟨[], none, none⟩) ∧ Blank (b ++ " none".toList) := by
  apply parseDatalogCommand_cut
  · exact parseDatalogCommand_ok_iff.mpr ⟨[.symbol "retract", .vector []], by decide +kernel, rfl⟩
  · exact parseDatalogCommand_ok_iff.mpr ⟨[.symbol "retract", .vector []], by decide +kernel, rfl⟩

end Minigraf
