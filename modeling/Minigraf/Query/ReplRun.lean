import Minigraf.Query.ReplLexemes

/-!
What the loop executes: of every command laid out plainly, one text that reads as the same
tokens.
-/

namespace Minigraf

/-! ## In the middle of a command -/

/-- The tokens read of the command so far, from the buffer and the line up to here: nothing
but white space stands on the line, or a text that is not left out. -/
inductive Mid (env : ReplEnv) (command : List Token) (buffer line left : List Char) (tokens : List Token) : Prop
  | start : isWhite env line = true → tokens ≠ command → HoldsTokens env (lead buffer) (fun _ => false) tokens →
      Mid env command buffer line left tokens
  | text {front body back : List Char} {p p' : Char → Bool} : line = front ++ body ++ back → isWhite env front = true →
      isWhite env back = true → body ≠ [] → Tight env body → isSkipped body = false → HoldsTokens env (lead buffer ++ body) p tokens →
      p '\n' = false → HoldsTokens env (lead buffer ++ body ++ back) p' tokens → Stops p' left → (tokens = [] → isGap env line = true) →
      Mid env command buffer line left tokens

/-- The same at the end of the line. -/
inductive Ended (env : ReplEnv) (command : List Token) (buffer line : List Char) (tokens : List Token) : Prop
  | skipped : isSkipped (trim env line) = true → tokens ≠ command → HoldsTokens env (lead buffer) (fun _ => false) tokens →
      Ended env command buffer line tokens
  | kept {p : Char → Bool} : isSkipped (trim env line) = false → HoldsTokens env (lead buffer ++ trim env line) p tokens → p '\n' = false →
      Ended env command buffer line tokens

section

variable {env : ReplEnv} {command tokens : List Token} {buffer line left : List Char}

theorem trim_white (white : isWhite env line = true) : trim env line = [] := by
  have own := @trim_eq env line [] [] white rfl ⟨nofun, nofun⟩
  rwa [List.append_nil, List.append_nil] at own

theorem Mid.ended (mid : Mid env command buffer line left tokens) : Ended env command buffer line tokens := by
  cases mid with
  | start white open_ holds =>
      refine .skipped ?_ open_ holds
      rw [trim_white white]
      rfl
  | text split white white' _ tight kept holds newline _ _ _ =>
      have own := trim_eq white white' tight
      rw [← split] at own
      rw [← own] at kept holds
      exact .kept kept holds newline

/-! ## The end of a line -/

theorem newline_lexeme : Lexeme env.toReaderEnv ['\n'] none fun _ => false := .blank (if_pos (by decide))

theorem HoldsTokens.newline {text : List Char} {p : Char → Bool} (holds : HoldsTokens env text p tokens) (newline : p '\n' = false) :
    HoldsTokens env (text ++ ['\n']) (fun _ => false) tokens := by
  have more := holds.append newline_lexeme (fun _ => stops_cons.mpr newline) rfl (fun _ _ => by decide) nofun
  rwa [Option.toList_none, List.append_nil] at more

theorem lead_of_ne_nil (some_ : buffer ≠ []) : lead buffer = buffer ++ ['\n'] := if_neg some_

theorem isCommandComplete_eq_false {text : List Char} (deep : (Scan.start.run text).depth % 2 ^ 32 ≠ 0) :
    isCommandComplete text = false := by
  rw [isCommandComplete, decide_eq_false deep, Bool.false_and]

/-- Between the first token of a command and the last a parenthesis is open. -/
theorem deep_of_inside (own : CommandTokens command) {front back : List Token} (split : command = front ++ back) (some_ : front ≠ [])
    (more : back ≠ []) : parenDepth front % 2 ^ 32 ≠ 0 := by
  have ⟨low, high⟩ := own.inside front back split some_ more
  have limit : (maxRecursionDepth : Int) = 100 := rfl
  omega

theorem CommandTokens.leftParen_mem (own : CommandTokens command) : .leftParen ∈ command := List.mem_of_mem_head? own.first

theorem CommandTokens.ne_nil (own : CommandTokens command) : command ≠ [] := List.ne_nil_of_mem own.leftParen_mem

/-- Buffer and tokens between two lines. -/
def Between (env : ReplEnv) (command : List Token) (buffer : List Char) (tokens : List Token) : Prop :=
  HoldsTokens env (lead buffer) (fun _ => false) tokens ∧ tokens ≠ command

/-- At the end of a line the loop goes on with what it has, or executes the command. -/
theorem Ended.newline (own : CommandTokens command) (ended : Ended env command buffer line tokens) (inside : '\n' ∉ line)
    (stays : env.toUppercase (trim env line) ≠ "EXIT".toList) (before : tokens = [] ∨ ∃ later, command = tokens ++ later) (rest : List Char) :
    (tokens ≠ command ∧ ∃ buffer', runText env buffer (line ++ '\n' :: rest) = runText env buffer' rest ∧ Between env command buffer' tokens) ∨
      tokens = command ∧ ∃ text read, runText env buffer (line ++ '\n' :: rest) = text :: runText env [] rest ∧
        Lexed env.toReaderEnv text read ∧ read.reduceOption = command := by
  cases ended with
  | skipped skipped open_ holds => exact .inl ⟨open_, buffer, runText_skip inside skipped buffer rest, holds, open_⟩
  | kept kept holds newline =>
      have depth : (Scan.start.run (pushLine buffer (trim env line))).depth = parenDepth tokens := by
        rw [pushLine_eq, holds.scans]
      by_cases all : tokens = command
      · have complete : isCommandComplete (pushLine buffer (trim env line)) = true := by
          have paren : '(' ∈ pushLine buffer (trim env line) := by
            rw [pushLine_eq]
            apply holds.some_
            rw [all]
            exact own.leftParen_mem
          rw [isCommandComplete, Bool.and_eq_true, decide_eq_true_iff, depth, all, own.total]
          exact ⟨rfl, List.contains_iff_mem.mpr paren⟩
        obtain ⟨read, lexed, same⟩ := holds.reads [] [] (Stops.nil _) (lexed_nil_iff.mpr rfl)
        rw [List.append_nil, ← pushLine_eq] at lexed
        refine .inr ⟨all, _, read, runText_execute inside kept stays complete rest, lexed, ?_⟩
        rw [same, all]
        exact List.append_nil _
      · have incomplete : isCommandComplete (pushLine buffer (trim env line)) = false := by
          by_cases none_ : tokens = []
          · have paren := holds.none_ none_
            rw [← pushLine_eq] at paren
            rw [isCommandComplete, Bool.and_eq_false_iff]
            exact .inr (Bool.eq_false_iff.mpr fun mem => paren (List.contains_iff_mem.mp mem))
          · obtain ⟨later, split⟩ := before.resolve_left none_
            apply isCommandComplete_eq_false
            rw [depth]
            apply deep_of_inside own split none_
            rintro rfl
            exact all (by rw [split, List.append_nil])
        have some_ : pushLine buffer (trim env line) ≠ [] := by
          rw [pushLine_eq]
          intro empty
          rw [(List.append_eq_nil_iff.mp empty).2] at kept
          cases kept
        refine .inl ⟨all, _, runText_push inside kept stays incomplete rest, ?_, all⟩
        rw [lead_of_ne_nil some_, pushLine_eq]
        exact holds.newline newline

/-! ## One lexeme more -/

/-- A line that is not left out when it ends here. -/
structure KeptLine (env : ReplEnv) (text : List Char) : Prop where
  some_ : text ≠ []
  head : ∀ c ∈ text.head?, env.isWhitespace c = false
  kept : isSkipped text = false

theorem KeptLine.append {text : List Char} (kept : KeptLine env text) (more : List Char) : KeptLine env (text ++ more) := by
  cases text with
  | nil => exact absurd rfl kept.some_
  | cons c text => exact ⟨List.cons_ne_nil _ _, kept.head, kept.kept⟩

theorem KeptLine.cons {c : Char} (dark : env.isWhitespace c = false) (hash : c ≠ '#') (semicolon : c ≠ ';') (text : List Char) :
    KeptLine env (c :: text) := by
  refine ⟨List.cons_ne_nil _ _, fun d mem => Option.some.inj mem ▸ dark, ?_⟩
  rw [isSkipped, beq_eq_false_iff_ne.mpr hash, beq_eq_false_iff_ne.mpr semicolon]
  rfl

/-- White space, and the text that stands on the line behind it. -/
structure Base (env : ReplEnv) (command : List Token) (buffer line left : List Char) (tokens : List Token) (front text : List Char)
    (p : Char → Bool) : Prop where
  split : line = front ++ text
  white : isWhite env front = true
  start : text = [] → tokens ≠ command ∧ HoldsTokens env (lead buffer) (fun _ => false) tokens
  kept : text ≠ [] → KeptLine env text
  holds : HoldsTokens env (lead buffer ++ text) p tokens
  stops : Stops p left
  gap : tokens = [] → isGap env line = true

theorem isGap_of_white {cs : List Char} (white : isWhite env cs = true) : isGap env cs = true := by
  apply List.all_eq_true.mpr
  intro c mem
  rw [List.all_eq_true.mp white c mem]
  rfl

theorem Mid.base (mid : Mid env command buffer line left tokens) : ∃ front text p, Base env command buffer line left tokens front text p := by
  cases mid with
  | start white open_ holds =>
      refine ⟨line, [], _, (List.append_nil _).symm, white, fun _ => ⟨open_, holds⟩, fun no => absurd rfl no, ?_, Stops.never _, ?_⟩
      · rw [List.append_nil]
        exact holds
      · exact fun _ => isGap_of_white white
  | @text front body back _ _ split white _ some_ tight kept _ _ holds stops gap =>
      refine ⟨front, body ++ back, _, by rw [split, List.append_assoc], white, ?_, ?_, ?_, stops, gap⟩
      · intro none_
        exact absurd (List.append_eq_nil_iff.mp none_).1 some_
      · exact fun _ => KeptLine.append ⟨some_, tight.1, kept⟩ back
      · rw [← List.append_assoc]
        exact holds

/-- A text that begins and ends with no white space. -/
theorem KeptLine.tight {text : List Char} (kept : KeptLine env text) {c : Char} (last : text.getLast? = some c) (dark : env.isWhitespace c = false) :
    Tight env text := by
  refine ⟨kept.head, ?_⟩
  intro d mem
  rw [last] at mem
  exact Option.some.inj mem ▸ dark

theorem Mid.of_kept {front text : List Char} {p : Char → Bool} (split : line = front ++ text) (white : isWhite env front = true)
    (kept : KeptLine env text) {c : Char} (last : text.getLast? = some c) (dark : env.isWhitespace c = false)
    (holds : HoldsTokens env (lead buffer ++ text) p tokens) (newline : p '\n' = false) (stops : Stops p left)
    (gap : tokens = [] → isGap env line = true) : Mid env command buffer line left tokens := by
  have split' : line = front ++ text ++ [] := by rw [split, List.append_nil]
  have holds' : HoldsTokens env (lead buffer ++ text ++ []) p tokens := by
    rw [List.append_nil]
    exact holds
  exact .text split' white rfl kept.some_ (kept.tight last dark) kept.kept holds newline holds' stops gap

/-- White space on the line. -/
theorem Mid.white (mid : Mid env command buffer line left tokens) {c : Char} {left' : List Char} (split : left = c :: left')
    (blank : charClass env.toReaderEnv c = .blank) (white : env.isWhitespace c = true) (quiet : c ≠ '(' ∧ c ≠ ')' ∧ c ≠ '"') :
    Mid env command buffer (line ++ [c]) left' tokens := by
  have one : isWhite env [c] = true := by
    rw [isWhite, List.all_cons, white]
    rfl
  cases mid with
  | start white' open_ holds =>
      refine .start ?_ open_ holds
      rw [isWhite_append, white', one]
      rfl
  | @text front body back p p' same white' white'' some_ tight kept holds newline holds' stops gap =>
      have stops' : ∀ rest, Stops p' ([c] ++ rest) := by
        intro rest
        rw [split] at stops
        exact stops_cons.mpr (stops_cons.mp stops)
      have more := holds'.append (t := none) (.blank blank) stops' (Scan.run_quiet (List.forall_mem_singleton.mpr quiet) 0)
        (fun _ _ mem => quiet.1 (List.mem_singleton.mp mem).symm) (by simp)
      rw [Option.toList_none, List.append_nil, List.append_assoc] at more
      have same' : line ++ [c] = front ++ body ++ (back ++ [c]) := by rw [same, List.append_assoc]
      refine .text same' white' ?_ some_ tight kept holds newline more (Stops.never _) ?_
      · rw [isWhite_append, white'', one]
        rfl
      · intro none_
        rw [isGap, List.all_append, show line.all _ = true from gap none_, List.all_cons, white]
        rfl

/-- A lexeme without white space. -/
theorem Base.solid {front text u left' : List Char} {p p' : Char → Bool} {t : Option Token}
    (base : Base env command buffer line left tokens front text p) (lexeme : Lexeme env.toReaderEnv u t p')
    (solid : Solid env.toReaderEnv u t p') (split : left = u ++ left') (stops : Stops p' left')
    (hash : u.head? = some '#' → isWhite env line = false) : Mid env command buffer (line ++ u) left' (tokens ++ t.toList) := by
  cases u with
  | nil => exact absurd rfl lexeme.ne_nil
  | cons c u =>
      have kept : KeptLine env (text ++ c :: u) := by
        by_cases none_ : text = []
        · rw [none_, List.nil_append]
          apply KeptLine.cons (solid.dark c List.mem_cons_self)
          · rintro rfl
            have dark := hash rfl
            rw [base.split, none_, List.append_nil, base.white] at dark
            cases dark
          · rintro rfl
            exact solid.semicolon rfl
        · exact (base.kept none_).append _
      have stops' : ∀ rest, Stops p (c :: u ++ rest) := by
        intro rest
        have own := base.stops
        rw [split] at own
        exact stops_cons.mpr (stops_cons.mp own)
      have quiet : tokens = [] → t = none → '(' ∉ c :: u := by
        intro _ none_
        rw [solid.comma none_]
        decide
      have holds := base.holds.append lexeme stops' solid.scans quiet solid.paren
      rw [List.append_assoc] at holds
      obtain ⟨last, mem⟩ : ∃ last, (c :: u).getLast? = some last := ⟨_, List.getLast?_eq_some_getLast (List.cons_ne_nil c u)⟩
      refine .of_kept ?_ base.white kept ?_ (solid.dark last (List.mem_of_getLast? mem)) holds solid.newline stops ?_
      · rw [base.split, List.append_assoc]
      · rw [List.getLast?_append, mem]
        rfl
      · intro empty
        have ⟨none_, last_⟩ := List.append_eq_nil_iff.mp empty
        have comma : t = none := by
          cases t with
          | none => rfl
          | some t => cases last_
        rw [solid.comma comma, isGap, List.all_append, show line.all _ = true from base.gap none_]
        simp

/-! ## Comments -/

theorem white_quiet {cs : List Char} (white : isWhite env cs = true) : ∀ c ∈ cs, c ≠ '(' ∧ c ≠ ')' ∧ c ≠ '"' ∧ c ≠ '\\' := by
  intro c mem
  have ne := ne_of_white (List.all_eq_true.mp white c mem)
  exact ⟨ne '(' (by decide) (by decide), ne ')' (by decide) (by decide), ne '"' (by decide) (by decide), ne '\\' (by decide) (by decide)⟩

/-- White space at the end does not bring the scanner back from anywhere. -/
theorem Scan.of_white {cs : List Char} (white : isWhite env cs = true) {s : Scan} (back : s.run cs = Scan.start)
    (plain : s.escapeNext = true → s.inString = true) : s = Scan.start := by
  induction cs generalizing s with
  | nil => exact back
  | cons c cs ih =>
      rw [isWhite, List.all_cons, Bool.and_eq_true] at white
      have one : isWhite env [c] = true := by
        rw [isWhite, List.all_cons, white.1]
        rfl
      obtain ⟨notParen, notClose, notQuote, notBackslash⟩ := white_quiet one c List.mem_cons_self
      cases escape : s.escapeNext with
      | true =>
          have inside := plain escape
          have after := ih white.2 back (by simp [step, escape])
          have string : (s.step c).inString = true := by simp [step, escape, inside]
          rw [after] at string
          cases string
      | false =>
          have same : s.step c = s := by simp [step, escape, notParen, notClose, notQuote, notBackslash]
          rw [run_cons, same] at back
          exact ih white.2 back plain

theorem Scan.escape_inString (cs : List Char) (s : Scan) (plain : s.escapeNext = true → s.inString = true) :
    (s.run cs).escapeNext = true → (s.run cs).inString = true := by
  induction cs generalizing s with
  | nil => exact plain
  | cons c cs ih =>
      apply ih
      unfold step
      split
      · nofun
      · split
        · next own => exact fun _ => own.2
        · next notEscape _ =>
            have stays : ¬ s.escapeNext = true := notEscape
            split
            · exact fun escape => absurd escape stays
            · split
              · exact fun escape => absurd escape stays
              · split <;> exact fun escape => absurd escape stays

/-- A comment ends the line: the line is left out, or the comment counts for nothing. -/
theorem Base.comment {front text cs : List Char} {p : Char → Bool} (base : Base env command buffer line left tokens front text p)
    (inside : '\n' ∉ cs) {left' : List Char} (split : left = ';' :: cs ++ left')
    (plain : isWhite env line = true ∨ Neutral (';' :: cs) ∧ ('(' ∈ ';' :: cs → 0 < parenDepth tokens ∨ isGap env line = false)) :
    Ended env command buffer (line ++ ';' :: cs) tokens := by
  obtain ⟨white, back, whole, allWhite, allWhite', tight⟩ := exists_trim env (';' :: cs)
  have semicolon : env.isWhitespace ';' = false := env.whitespace_ascii ';' (by decide)
  have noWhite : white = [] := by
    cases white with
    | nil => rfl
    | cons c white =>
        rw [List.cons_append, List.cons_append] at whole
        rw [← (List.cons.inj whole).1, isWhite, List.all_cons, semicolon] at allWhite
        cases allWhite
  rw [noWhite, List.nil_append] at whole
  obtain ⟨cs', own⟩ : ∃ cs', trim env (';' :: cs) = ';' :: cs' := by
    cases own : trim env (';' :: cs) with
    | nil =>
        rw [own, List.nil_append] at whole
        rw [← whole, isWhite, List.all_cons, semicolon] at allWhite'
        cases allWhite'
    | cons c cs' =>
        rw [own, List.cons_append] at whole
        rw [(List.cons.inj whole).1]
        exact ⟨cs', rfl⟩
  rw [own] at whole tight
  have inside' : '\n' ∉ cs' := by
    intro mem
    apply inside
    rw [(List.cons.inj whole).2]
    exact List.mem_append_left _ mem
  by_cases none_ : text = []
  · obtain ⟨open_, holds⟩ := base.start none_
    refine .skipped ?_ open_ holds
    have trimmed : trim env (line ++ ';' :: cs) = ';' :: cs' := by
      rw [base.split, none_, List.append_nil, whole, ← List.append_assoc]
      exact trim_eq base.white allWhite' tight
    rw [trimmed]
    rfl
  · have kept := base.kept none_
    have notWhite : ¬ isWhite env line = true := by
      intro all
      rw [base.split, isWhite_append, Bool.and_eq_true] at all
      cases text with
      | nil => exact none_ rfl
      | cons c text =>
          have dark := kept.head c rfl
          rw [List.all_eq_true.mp all.2 c List.mem_cons_self] at dark
          cases dark
    obtain ⟨neutral, paren⟩ := plain.resolve_left notWhite
    have kept' := kept.append (';' :: cs')
    obtain ⟨last, mem⟩ : ∃ last, (';' :: cs').getLast? = some last := ⟨_, List.getLast?_eq_some_getLast (List.cons_ne_nil _ _)⟩
    have ends : (text ++ ';' :: cs').getLast? = some last := by
      rw [List.getLast?_append, mem]
      rfl
    have trimmed : trim env (line ++ ';' :: cs) = text ++ ';' :: cs' := by
      have all := trim_eq base.white allWhite' (kept'.tight ends (tight.2 last mem))
      rwa [← List.append_assoc, ← base.split, List.append_assoc, ← whole] at all
    have scans : Scan.start.run (';' :: cs') = Scan.start := by
      have run := neutral
      rw [Neutral, whole, Scan.run_append] at run
      exact Scan.of_white allWhite' run (Scan.escape_inString _ _ fun no => absurd no Bool.false_ne_true)
    have quiet : tokens = [] → '(' ∉ ';' :: cs' := by
      intro empty mem
      have later : '(' ∈ ';' :: cs := by
        rw [whole]
        exact List.mem_append_left _ mem
      obtain deep | dense := paren later
      · rw [empty] at deep
        exact absurd deep (by decide)
      · rw [base.gap empty] at dense
        cases dense
    have stops : ∀ rest, Stops p (';' :: cs' ++ rest) := by
      intro rest
      have stops := base.stops
      rw [split] at stops
      exact stops_cons.mpr (stops_cons.mp stops)
    have holds := base.holds.append (.comment semicolon_charClass inside') stops scans (fun empty _ => quiet empty) (by simp)
    rw [Option.toList_none, List.append_nil, List.append_assoc, ← trimmed] at holds
    refine .kept ?_ holds rfl
    rw [trimmed]
    exact kept'.kept

end
end Minigraf
