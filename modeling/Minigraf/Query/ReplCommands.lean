import Minigraf.Query.ReplStrings

/-!
The loop over one command, and what follows it on its last line: where the command is laid out
plainly, one text is executed, which is read as the same tokens.
-/

namespace Minigraf

/-- What is still to be read completes the command, or nothing follows the command but blanks. -/
def Pending (command tokens : List Token) (read : List (Option Token)) : Prop :=
  tokens ++ read.reduceOption = command ∨ tokens = [] ∧ read.reduceOption = []

/-- The command is executed as one text, or it was before. -/
def Executed (env : ReplEnv) (command tokens : List Token) (read : List (Option Token)) (out : List (List Char)) : Prop :=
  (tokens ++ read.reduceOption = command ∧ ∃ text read', out = [text] ∧ Lexed env.toReaderEnv text read' ∧ read'.reduceOption = command) ∨
    tokens = [] ∧ read.reduceOption = [] ∧ out = []

/-- From here the loop executes what is pending and goes on behind the line. -/
def Runs (env : ReplEnv) (command : List Token) (rest buffer line left : List Char) (tokens : List Token) : Prop :=
  ∀ read, Lexed env.toReaderEnv left read → PlainFrom env line (parenDepth tokens) left → NoExit env (line ++ left ++ '\n' :: rest) →
    Pending command tokens read → ∃ out buffer', runText env buffer (line ++ left ++ '\n' :: rest) = out ++ runText env buffer' rest ∧
      HoldsTokens env (lead buffer') (fun _ => false) [] ∧ NoExit env rest ∧ Executed env command tokens read out

section

variable {env : ReplEnv} {command tokens : List Token} {buffer line left rest : List Char}

theorem Pending.before {read : List (Option Token)} (pending : Pending command tokens read) :
    tokens = [] ∨ ∃ later, command = tokens ++ later := by
  obtain whole | ⟨none_, _⟩ := pending
  · exact .inr ⟨_, whole.symm⟩
  · exact .inl none_

theorem Pending.cons {t : Option Token} {later : List (Option Token)} (pending : Pending command tokens (t :: later)) :
    Pending command (tokens ++ t.toList) later := by
  cases t with
  | none =>
      rw [Pending, List.reduceOption_cons_of_none] at pending
      rwa [Option.toList_none, List.append_nil]
  | some t =>
      obtain whole | ⟨_, no⟩ := pending
      · rw [List.reduceOption_cons_of_some, List.append_cons] at whole
        exact .inl whole
      · cases no

theorem Executed.cons {t : Option Token} {later : List (Option Token)} {out : List (List Char)}
    (executed : Executed env command (tokens ++ t.toList) later out) : Executed env command tokens (t :: later) out := by
  cases t with
  | none =>
      rw [Option.toList_none, List.append_nil] at executed
      rwa [Executed, List.reduceOption_cons_of_none]
  | some t =>
      obtain ⟨whole, out'⟩ | ⟨no, _⟩ := executed
      · refine .inl ⟨?_, out'⟩
        rw [List.reduceOption_cons_of_some, List.append_cons]
        exact whole
      · cases (List.append_eq_nil_iff.mp no).2

/-- At the end of a line. -/
theorem Ended.runs (own : CommandTokens command) (ended : Ended env command buffer line tokens) (inside : '\n' ∉ line)
    (breaks : left = [] ∨ ∃ left', left = '\n' :: left')
    (ih : ∀ left' buffer' line' tokens', left'.length < left.length → Mid env command buffer' line' left' tokens' → '\n' ∉ line' →
      Runs env command rest buffer' line' left' tokens') : Runs env command rest buffer line left tokens := by
  intro read lexed plain stays pending
  obtain rfl | ⟨left', rfl⟩ := breaks
  · rw [lexed_nil_iff.mp lexed] at pending ⊢
    rw [List.append_nil] at stays ⊢
    have ⟨stay, stays'⟩ := noExit_line inside stays
    obtain ⟨open_, buffer', run, holds, _⟩ | ⟨rfl, text, read', run, lexed', same⟩ := ended.newline own inside stay pending.before rest
    · obtain whole | ⟨rfl, _⟩ := pending
      · exact absurd ((List.append_nil _).symm.trans whole) open_
      · exact ⟨[], buffer', run, holds, stays', .inr ⟨rfl, rfl, rfl⟩⟩
    · exact ⟨[text], [], run, .nil, stays', .inl ⟨List.append_nil _, text, read', rfl, lexed', same⟩⟩
  · obtain ⟨_, plain'⟩ := plainFrom_iff newline_lexeme (Stops.never left') plain
    obtain ⟨later, rfl, lexed'⟩ := newline_lexeme.of_lexed (Stops.never left') lexed
    rw [Option.toList_none, show parenDepth [] = 0 from rfl, Int.add_zero, lineAfter_newline] at plain'
    have whole : line ++ '\n' :: left' ++ '\n' :: rest = line ++ '\n' :: ([] ++ left' ++ '\n' :: rest) := by
      rw [List.append_assoc]
      rfl
    rw [whole] at stays ⊢
    have ⟨stay, stays'⟩ := noExit_line inside stays
    obtain ⟨open_, buffer', run, between⟩ | ⟨rfl, text, read', run, lexedText, same⟩ :=
      ended.newline own inside stay pending.before ([] ++ left' ++ '\n' :: rest)
    · have pending' := pending.cons
      rw [Option.toList_none, List.append_nil] at pending'
      obtain ⟨out, buffer'', run', holds, stays'', executed⟩ := ih left' buffer' [] tokens (Nat.lt_succ_self _) (.start rfl open_ between.1)
        nofun later lexed' plain' stays' pending'
      rw [Executed, ← List.reduceOption_cons_of_none later] at executed
      exact ⟨out, buffer'', run.trans run', holds, stays'', executed⟩
    · have done : later.reduceOption = [] := by
        obtain more | ⟨none_, _⟩ := pending
        · exact List.append_right_eq_self.mp more
        · exact absurd none_ own.ne_nil
      rw [own.total] at plain'
      obtain ⟨out, buffer', run', holds, stays'', executed⟩ := ih left' [] [] [] (Nat.lt_succ_self _) (.start rfl own.ne_nil.symm .nil) nofun
        later lexed' plain' stays' (.inr ⟨rfl, done⟩)
      obtain ⟨no, _⟩ | ⟨_, _, rfl⟩ := executed
      · rw [List.nil_append, done] at no
        exact absurd no.symm own.ne_nil
      · refine ⟨[text], buffer', by rw [run, run']; rfl, holds, stays'', .inl ⟨?_, text, read', rfl, lexedText, same⟩⟩
        rw [List.reduceOption_cons_of_none, done, List.append_nil]

theorem hash_charClass : charClass env.toReaderEnv '#' = .hash := by
  unfold charClass
  simp

theorem doubleQuote_charClass : charClass env.toReaderEnv '"' = .quote := by
  unfold charClass
  simp

/-- From anywhere within a command laid out plainly. -/
theorem Mid.runs (own : CommandTokens command) (mid : Mid env command buffer line left tokens) (inside : '\n' ∉ line) :
    Runs env command rest buffer line left tokens := by
  induction len : left.length using Nat.strongRecOn generalizing left buffer line tokens with
  | ind n ih =>
      have ih' : ∀ left' buffer' line' tokens', left'.length < left.length → Mid env command buffer' line' left' tokens' → '\n' ∉ line' →
          Runs env command rest buffer' line' left' tokens' := by
        intro left' buffer' line' tokens' shorter mid' inside'
        exact ih left'.length (len ▸ shorter) mid' inside' rfl
      intro read lexed plain stays pending
      obtain ⟨rfl, rfl⟩ | ⟨u, t, p, left', later, split, rfl, lexeme, stops, lexed'⟩ := lexed_cases lexed
      · exact mid.ended.runs own inside (.inl rfl) ih' [] lexed plain stays pending
      · have shorter : left'.length < left.length := by
          have some_ := List.length_pos_iff.mpr lexeme.ne_nil
          rw [split, List.length_append]
          omega
        rw [split] at plain
        obtain ⟨⟨c, u', first, turn⟩, plain'⟩ := plainFrom_iff lexeme stops plain
        rw [← parenDepth_append] at plain'
        -- the line goes on
        have goes : ∀ {line'}, line ++ u = line' → '\n' ∉ line' → Mid env command buffer line' left' (tokens ++ t.toList) →
            ∃ out buffer', runText env buffer (line ++ left ++ '\n' :: rest) = out ++ runText env buffer' rest ∧
              HoldsTokens env (lead buffer') (fun _ => false) [] ∧ NoExit env rest ∧ Executed env command tokens (t :: later) out := by
          intro line' same inside' mid'
          have after : lineAfter line u = line' := by
            rw [← same] at inside' ⊢
            exact lineAfter_inside inside'
          have whole : line ++ left = line' ++ left' := by rw [split, ← List.append_assoc, same]
          rw [after] at plain'
          rw [whole] at stays ⊢
          obtain ⟨out, buffer', run, holds, stays', executed⟩ := ih' left' buffer line' _ shorter mid' inside' later lexed' plain' stays pending.cons
          exact ⟨out, buffer', run, holds, stays', executed.cons⟩
        cases lexeme.loopKind with
        | @white c white =>
            by_cases newline : c = '\n'
            · exact mid.ended.runs own inside (.inr ⟨left', by rw [split, newline]; rfl⟩) ih' _ lexed (split ▸ plain) stays pending
            · obtain ⟨c', same, blank, _⟩ | ⟨text, same, _⟩ := lexeme.none_cases
              · have mid' := mid.white split (if_pos ((List.cons.inj same).1 ▸ blank)) white ?_
                · rw [← List.append_nil tokens] at mid'
                  apply goes rfl _ mid'
                  rw [List.mem_append, List.mem_singleton, not_or]
                  exact ⟨inside, Ne.symm newline⟩
                · have one : isWhite env [c] = true := by
                    rw [isWhite, List.all_cons, white]
                    rfl
                  have quiet := white_quiet one c List.mem_cons_self
                  exact ⟨quiet.1, quiet.2.1, quiet.2.2.1⟩
              · rw [(List.cons.inj same).1, env.whitespace_ascii ';' (by decide)] at white
                exact absurd white (by decide)
        | @comment text inside' =>
            obtain ⟨rfl, _⟩ := List.cons.inj first
            rw [TurnPlain, semicolon_charClass] at turn
            obtain ⟨front, text', _, base⟩ := mid.base
            have ended := base.comment inside' split turn
            have inside'' : '\n' ∉ line ++ ';' :: text := by
              rw [List.mem_append, not_or, List.mem_cons, not_or]
              exact ⟨inside, by decide, inside'⟩
            have breaks : left' = [] ∨ ∃ left'', left' = '\n' :: left'' := by
              cases left' with
              | nil => exact .inl rfl
              | cons c left' =>
                  have newline : (c != '\n') = false := stops c rfl
                  rw [bne_eq_false_iff_eq.mp newline]
                  exact .inr ⟨_, rfl⟩
            have whole : line ++ left = line ++ ';' :: text ++ left' := by rw [split, List.append_assoc]
            rw [Option.toList_none, List.append_nil, lineAfter_inside inside''] at plain'
            rw [whole] at stays ⊢
            have pending' := pending.cons
            rw [Option.toList_none, List.append_nil] at pending'
            have ih'' := fun left'' buffer' line' tokens' (less : left''.length < left'.length) =>
              ih' left'' buffer' line' tokens' (Nat.lt_trans less shorter)
            obtain ⟨out, buffer', run, holds, stays', executed⟩ := ended.runs own inside'' breaks ih'' later lexed' plain' stays pending'
            rw [Executed, ← List.reduceOption_cons_of_none later] at executed
            exact ⟨out, buffer', run, holds, stays', executed⟩
        | @string pieces s takes =>
            obtain ⟨rfl, _⟩ := List.cons.inj first
            rw [TurnPlain, doubleQuote_charClass] at turn
            obtain ⟨front, text, _, base⟩ := mid.base
            obtain whole | ⟨_, no⟩ := pending
            · rw [List.reduceOption_cons_of_some] at whole
              obtain ⟨buffer', line', run, inside', after, stays', mid'⟩ :=
                base.string own takes lexeme split inside turn whole.symm stays
              rw [after] at plain'
              obtain ⟨out, buffer'', run', holds, stays'', executed⟩ := ih' left' buffer' line' _ shorter mid' inside' later lexed' plain'
                stays' (.inl ((List.append_cons _ _ _).symm.trans whole))
              exact ⟨out, buffer'', run.trans run', holds, stays'', executed.cons⟩
            · cases no
        | openString =>
            obtain whole | ⟨_, no⟩ := pending
            · obtain rfl := stops_always.mp stops
              rw [lexed_nil_iff.mp lexed', List.reduceOption_cons_of_some, List.reduceOption_nil] at whole
              have total := own.total
              rw [← whole, parenDepth_append] at total
              have some_ : tokens ≠ [] := by
                rintro rfl
                have head := own.first
                rw [← whole] at head
                cases head
              have deep := (own.inside _ _ whole.symm some_ (List.cons_ne_nil _ _)).1
              rw [show parenDepth [Token.string _] = 0 from rfl] at total
              omega
            · cases no
        | solid solid =>
            have dark : '\n' ∉ u := by
              intro mem
              have white := newline_isWhitespace env
              rw [solid.dark '\n' mem] at white
              cases white
            refine goes rfl ?_ ?_
            · rw [List.mem_append, not_or]
              exact ⟨inside, dark⟩
            · obtain ⟨front, text, _, base⟩ := mid.base
              apply base.solid lexeme solid split stops
              intro hash
              rw [first] at hash
              rw [Option.some.inj hash, TurnPlain, hash_charClass] at turn
              exact turn

end
end Minigraf
