import Minigraf.Query.ReplLines
import Minigraf.Query.ReplNesting

/-!
The layouts the loop reads as the parser does, and what it holds of a command so far: a text
that reads as the same tokens, though lines are trimmed and left out.
-/

namespace Minigraf

/-! ## Layouts -/

/-- A comment that leaves the count of parentheses as it was. -/
def Neutral (text : List Char) : Prop := Scan.start.run text = Scan.start

/-- White space and commas. -/
def isGap (env : ReplEnv) (cs : List Char) : Bool := cs.all fun c => env.isWhitespace c || c == ','

/-- No line of a string begins or ends with white space, and none begins as a comment does. -/
def KeepsBreaks (env : ReplEnv) (u : List Char) : Prop := ∀ front c d back, u = front ++ c :: '\n' :: d :: back →
  env.isWhitespace c = false ∧ env.isWhitespace d = false ∧ d ≠ '#' ∧ d ≠ ';'

/-- A turn whose text the loop takes as `tokenize` does, behind the text before it on its
line and with so many parentheses open: a tag does not stand first on its line, and a comment
that does not stand first on its line leaves the count of parentheses, and has no
parenthesis where none was open on its line. -/
def TurnPlain (env : ReplEnv) (line : List Char) (depth : Int) (c : Char) (u : List Char) : Prop :=
  match charClass env.toReaderEnv c with
  | .quote => KeepsBreaks env u
  | .hash => isWhite env line = false
  | .semicolon => isWhite env line = true ∨ Neutral u ∧ ('(' ∈ u → 0 < depth ∨ isGap env line = false)
  | _ => True

def lineAfter (line u : List Char) : List Char := (line ++ u).rtakeWhile fun c => c != '\n'

inductive PlainFrom (env : ReplEnv) : List Char → Int → List Char → Prop
  | nil {line : List Char} {depth : Int} : PlainFrom env line depth []
  | turn {line : List Char} {depth : Int} {c : Char} {rest u left : List Char} {t : Option Token} :
      readToken env.toReaderEnv c rest = .ok (t, left) → c :: rest = u ++ left → TurnPlain env line depth c u →
        PlainFrom env (lineAfter line u) (depth + parenDepth t.toList) left → PlainFrom env line depth (c :: rest)

/-- A command whose every turn is so. -/
def PlainCommand (env : ReplEnv) (command : List Char) : Prop := PlainFrom env [] 0 command

section

variable {env : ReplEnv}

theorem plainFrom_iff {line u left : List Char} {depth : Int} {t : Option Token} {p : Char → Bool}
    (lexeme : Lexeme env.toReaderEnv u t p) (stops : Stops p left) (plain : PlainFrom env line depth (u ++ left)) :
    (∃ c rest, u = c :: rest ∧ TurnPlain env line depth c u) ∧ PlainFrom env (lineAfter line u) (depth + parenDepth t.toList) left := by
  cases u with
  | nil => exact absurd rfl lexeme.ne_nil
  | cons c u =>
      have run := lexeme.read stops (show c :: (u ++ left) = c :: u ++ left from rfl)
      rw [List.cons_append] at plain
      cases plain with
      | @turn _ _ _ _ u' left' _ run' split turn later =>
          rw [run] at run'
          cases run'
          have same : c :: u = u' := List.append_cancel_right ((List.cons_append).trans split)
          rw [← same] at turn later
          exact ⟨⟨c, u, rfl, turn⟩, later⟩

theorem lineAfter_inside {line u : List Char} (inside : '\n' ∉ line ++ u) : lineAfter line u = line ++ u := by
  rw [lineAfter, List.rtakeWhile_eq_self_iff]
  intro c mem
  rw [bne_iff_ne]
  exact fun newline => inside (newline ▸ mem)

/-! ## The buffer -/

/-- The buffer and the newline that `pushLine` puts behind it. -/
def lead (buffer : List Char) : List Char := if buffer = [] then [] else buffer ++ ['\n']

theorem pushLine_eq (buffer line : List Char) : pushLine buffer line = lead buffer ++ line := by
  unfold pushLine lead
  split
  · rfl
  · rw [List.append_assoc]
    rfl

/-- A text that reads as these tokens, by whatever it is followed that does not go on with
its last lexeme. -/
structure HoldsTokens (env : ReplEnv) (text : List Char) (p : Char → Bool) (tokens : List Token) : Prop where
  reads : ∀ rest later, Stops p rest → Lexed env.toReaderEnv rest later →
    ∃ read, Lexed env.toReaderEnv (text ++ rest) read ∧ read.reduceOption = tokens ++ later.reduceOption
  scans : Scan.start.run text = ⟨parenDepth tokens, false, false⟩
  none_ : tokens = [] → '(' ∉ text
  some_ : Token.leftParen ∈ tokens → '(' ∈ text

theorem HoldsTokens.nil : HoldsTokens env [] (fun _ => false) [] where
  reads _ later _ lexed := ⟨later, lexed, rfl⟩
  scans := rfl
  none_ _ := nofun
  some_ := nofun

theorem Scan.run_shift (s : Scan) (d : Int) (cs : List Char) :
    (⟨s.depth + d, s.inString, s.escapeNext⟩ : Scan).run cs =
      ⟨(s.run cs).depth + d, (s.run cs).inString, (s.run cs).escapeNext⟩ := by
  induction cs generalizing s with
  | nil => rfl
  | cons c cs ih =>
      rw [run_cons, run_cons, ← ih]
      congr 1
      unfold step
      split
      · rfl
      · split
        · rfl
        · split
          · rfl
          · split
            · simp only [Scan.mk.injEq, and_true]
              omega
            · split
              · simp only [Scan.mk.injEq, and_true]
                omega
              · rfl

/-- The scanner from outside of a string. -/
theorem Scan.run_outside (d : Int) (cs : List Char) :
    (⟨d, false, false⟩ : Scan).run cs =
      ⟨(Scan.start.run cs).depth + d, (Scan.start.run cs).inString, (Scan.start.run cs).escapeNext⟩ := by
  have shift := Scan.run_shift Scan.start d cs
  rwa [show Scan.start.depth + d = d from Int.zero_add d] at shift

theorem HoldsTokens.append {text u : List Char} {p p' : Char → Bool} {tokens : List Token} {t : Option Token} (holds : HoldsTokens env text p tokens)
    (lexeme : Lexeme env.toReaderEnv u t p') (stops : ∀ rest, Stops p (u ++ rest))
    (scans : Scan.start.run u = ⟨parenDepth t.toList, false, false⟩) (quiet : tokens = [] → t = none → '(' ∉ u) (paren : t = some .leftParen → '(' ∈ u) :
    HoldsTokens env (text ++ u) p' (tokens ++ t.toList) where
  reads rest later ends lexed := by
    obtain ⟨read, all, same⟩ := holds.reads (u ++ rest) (t :: later) (stops rest) (lexeme.lexed ends lexed)
    refine ⟨read, by rw [List.append_assoc]; exact all, ?_⟩
    rw [same, List.append_assoc]
    cases t with
    | none => rw [List.reduceOption_cons_of_none]; rfl
    | some t => rw [List.reduceOption_cons_of_some]; rfl
  scans := by
    rw [Scan.run_append, holds.scans, Scan.run_outside, scans, parenDepth_append, Int.add_comm]
  none_ empty := by
    have ⟨first, second⟩ := List.append_eq_nil_iff.mp empty
    have none_ : t = none := by
      cases t with
      | none => rfl
      | some t => cases second
    rw [List.mem_append, not_or]
    exact ⟨holds.none_ first, quiet first none_⟩
  some_ mem := by
    rw [List.mem_append]
    obtain own | later := List.mem_append.mp mem
    · exact .inl (holds.some_ own)
    · refine .inr (paren ?_)
      cases t with
      | none => cases later
      | some t => rw [List.mem_singleton.mp later]

/-! ## Lexemes -/

theorem part_quiet {part : Char → Bool} {c : Char} (own : part c = true)
    (others : part '(' = false ∧ part ')' = false ∧ part '"' = false) : c ≠ '(' ∧ c ≠ ')' ∧ c ≠ '"' := by
  refine ⟨?_, ?_, ?_⟩
  · rintro rfl
    rw [others.1] at own
    cases own
  · rintro rfl
    rw [others.2.1] at own
    cases own
  · rintro rfl
    rw [others.2.2] at own
    cases own

def Quiet (part : Char → Bool) : Prop := part '(' = false ∧ part ')' = false ∧ part '"' = false

theorem parts_quiet (env : ReaderEnv) :
    Quiet (keywordPart env) ∧ Quiet (tagPart env) ∧ Quiet (symbolPart env) ∧ Quiet (slotPart env) ∧ Quiet (numberPart env false) := by
  have letters : Quiet env.isAlphabetic := by
    refine ⟨?_, ?_, ?_⟩ <;> exact (env.alphabetic_ascii _ (by decide)).trans (by decide)
  have digits : Quiet env.isNumeric := by
    refine ⟨?_, ?_, ?_⟩ <;> exact (env.numeric_ascii _ (by decide)).trans (by decide)
  have either : Quiet env.isAlphanumeric := by
    simp only [Quiet, ReaderEnv.isAlphanumeric, letters.1, letters.2.1, letters.2.2, digits.1, digits.2.1, digits.2.2, Bool.or_self,
      and_self]
  refine ⟨?_, ?_, ?_, ?_, ?_⟩
  · simp [Quiet, keywordPart, either.1, either.2.1, either.2.2]
  · simp [Quiet, tagPart, either.1, either.2.1, either.2.2]
  · simp [Quiet, symbolPart, either.1, either.2.1, either.2.2]
  · simp [Quiet, slotPart, either.1, either.2.1, either.2.2]
  · simp [Quiet, numberPart, digits.1, digits.2.1, digits.2.2]

theorem TakesName.all {part : Char → Bool} {limit : Nat} {front name : List Char} (takes : TakesName part limit front name) :
    ∀ c ∈ name, part c = true := by
  induction name generalizing front with
  | nil => nofun
  | cons c name ih => exact List.forall_mem_cons.mpr ⟨takes.1, ih takes.2.2⟩

theorem IsNumber.all {env : ReaderEnv} {isFloat isFloat' : Bool} {num : List Char} (number : IsNumber env isFloat isFloat' num) :
    ∀ c ∈ num, numberPart env false c = true := by
  induction num generalizing isFloat with
  | nil => nofun
  | cons c num ih =>
      refine List.forall_mem_cons.mpr ⟨?_, ih number.2⟩
      have own := number.1
      rw [numberPart, Bool.or_eq_true, Bool.and_eq_true] at own ⊢
      exact own.imp_right fun dot => ⟨dot.1, rfl⟩

theorem scan_names {part : Char → Bool} (quiet : Quiet part) {name : List Char} (all : ∀ c ∈ name, part c = true) :
    Scan.start.run name = Scan.start :=
  Scan.run_quiet (fun c mem => part_quiet (all c mem) quiet) 0

theorem scan_cons {c : Char} (quiet : c ≠ '(' ∧ c ≠ ')' ∧ c ≠ '"') {cs : List Char} (rest : Scan.start.run cs = Scan.start) :
    Scan.start.run (c :: cs) = Scan.start := by
  rw [Scan.run_cons, show Scan.start.step c = Scan.start from Scan.step_quiet quiet 0]
  exact rest

theorem charClass_quiet {env : ReaderEnv} {c : Char} {cls : CharClass} (own : charClass env c = cls)
    (paren : cls ≠ .bracket .leftParen) (paren' : cls ≠ .bracket .rightParen) (quote : cls ≠ .quote) :
    c ≠ '(' ∧ c ≠ ')' ∧ c ≠ '"' :=
  ⟨charClass_ne own paren.symm, charClass_ne own paren'.symm, charClass_ne own quote.symm⟩

theorem charClass_quote {env : ReaderEnv} {c : Char} (own : charClass env c = .quote) : c = '"' := by
  by_contra other
  unfold charClass at own
  iterate 7 replace own := else_of_ne own nofun
  rw [if_neg other] at own
  iterate 9 replace own := else_of_ne own nofun
  cases own

end
end Minigraf
