import Minigraf.Query.ReplRun

/-!
Strings over several lines: no line of one is trimmed or left out, and the loop does not take
the command for complete while it reads one.
-/

namespace Minigraf

section

variable {env : ReplEnv} {command tokens : List Token} {buffer line left rest : List Char}

theorem lineAfter_newline (line u : List Char) : lineAfter line ('\n' :: u) = lineAfter [] u := by
  have taken : ∀ front back : List Char, (front ++ '\n' :: back).takeWhile (fun c => c != '\n') = front.takeWhile fun c => c != '\n' := by
    intro front back
    induction front with
    | nil => exact List.takeWhile_cons_of_neg (by decide)
    | cons c front ih =>
        rw [List.cons_append, List.takeWhile_cons, List.takeWhile_cons, ih]
  have reversed : (line ++ '\n' :: u).reverse = u.reverse ++ '\n' :: line.reverse := by simp
  rw [lineAfter, lineAfter, List.rtakeWhile, List.rtakeWhile, reversed, taken, List.nil_append]

theorem lineAfter_cons (c : Char) (line u : List Char) : lineAfter line (c :: u) = lineAfter (line ++ [c]) u := by
  rw [lineAfter, lineAfter, List.append_assoc]
  rfl

/-- The buffer and the line, after a text over several lines. -/
structure Carried (env : ReplEnv) (before text : List Char) (line rest : List Char) (buffer' front' text' : List Char) : Prop where
  white : isWhite env front' = true
  kept : KeptLine env text'
  inside : '\n' ∉ front' ++ text'
  whole : lead buffer' ++ text' = before ++ text
  after : lineAfter line text = front' ++ text'
  stays : NoExit env (front' ++ text' ++ rest)

theorem runText_carries {u : List Char} (buffer front text : List Char) (white : isWhite env front = true) (kept : KeptLine env text)
    (inside : '\n' ∉ front ++ text) (breaks : KeepsBreaks env (text ++ u)) (last : u.getLast? ≠ some '\n')
    (incomplete : ∀ a b, u = a ++ '\n' :: b → isCommandComplete (lead buffer ++ text ++ a) = false)
    (stays : NoExit env (front ++ text ++ u ++ rest)) :
    ∃ buffer' front' text', runText env buffer (front ++ text ++ u ++ rest) = runText env buffer' (front' ++ text' ++ rest) ∧
      Carried env (lead buffer ++ text) u (front ++ text) rest buffer' front' text' := by
  induction len : u.length using Nat.strongRecOn generalizing u buffer front text with
  | ind n ih =>
      cases u with
      | nil =>
          rw [List.append_nil] at stays ⊢
          exact ⟨buffer, front, text, rfl, white, kept, inside, (List.append_nil _).symm,
            lineAfter_inside (by rwa [List.append_nil]) |>.trans (List.append_nil _), stays⟩
      | cons c u =>
          have shorter : u.length < n := by
            rw [← len]
            exact Nat.lt_succ_self _
          by_cases newline : c = '\n'
          · rw [newline] at breaks last incomplete stays ⊢
            cases u with
            | nil => exact absurd rfl last
            | cons d u =>
                obtain ⟨x, mem⟩ : ∃ x, text.getLast? = some x := ⟨_, List.getLast?_eq_some_getLast kept.some_⟩
                obtain ⟨init, split⟩ : ∃ init, text = init ++ [x] := List.getLast?_eq_some_iff.mp mem
                have ⟨dark, dark', hash, semicolon⟩ := breaks init x d u (by rw [split, List.append_assoc]; rfl)
                have tight := kept.tight mem dark
                have trimmed : trim env (front ++ text) = text := by
                  have own := @trim_eq env front text [] white rfl tight
                  rwa [List.append_nil] at own
                have whole : front ++ text ++ '\n' :: d :: u ++ rest = front ++ text ++ '\n' :: (d :: u ++ rest) := by
                  rw [List.append_assoc]
                  rfl
                rw [whole] at stays ⊢
                have ⟨stay, stays'⟩ := noExit_line inside stays
                have incomplete' := incomplete [] (d :: u) rfl
                rw [List.append_nil, ← pushLine_eq] at incomplete'
                rw [← trimmed] at incomplete'
                have kept' := kept.kept
                rw [← trimmed] at kept'
                rw [runText_push inside kept' stay incomplete', trimmed, pushLine_eq]
                have some_ : lead buffer ++ text ≠ [] := fun empty => kept.some_ (List.append_eq_nil_iff.mp empty).2
                have next := ih u.length (Nat.lt_of_succ_lt shorter) (u := u) (lead buffer ++ text) [] [d] rfl (KeptLine.cons dark' hash semicolon [])
                  ?_ ?_ ?_ ?_ stays' rfl
                · obtain ⟨buffer', front', text', run, carried⟩ := next
                  refine ⟨buffer', front', text', run, carried.white, carried.kept, carried.inside, ?_, ?_, carried.stays⟩
                  · rw [carried.whole, lead_of_ne_nil some_]
                    simp
                  · rw [lineAfter_newline, ← carried.after]
                    exact lineAfter_cons d [] u
                · intro mem'
                  rw [← List.mem_singleton.mp mem', newline_isWhitespace] at dark'
                  cases dark'
                · intro a c' d' b split'
                  apply breaks (text ++ '\n' :: a) c' d' b
                  rw [List.append_assoc, List.cons_append, ← split']
                  rfl
                · cases u with
                  | nil => nofun
                  | cons e u => exact last
                · intro a b split'
                  rw [lead_of_ne_nil some_]
                  have own := incomplete ('\n' :: d :: a) b (by rw [split']; rfl)
                  rwa [List.append_cons, List.append_cons] at own
          · have next := ih u.length shorter (u := u) buffer front (text ++ [c]) white (kept.append [c]) ?_ ?_ ?_ ?_ ?_ rfl
            · obtain ⟨buffer', front', text', run, carried⟩ := next
              refine ⟨buffer', front', text', ?_, carried.white, carried.kept, carried.inside, ?_, ?_, carried.stays⟩
              · rw [← run]
                simp
              · rw [carried.whole]
                simp
              · rw [lineAfter_cons, List.append_assoc]
                exact carried.after
            · rw [← List.append_assoc]
              intro mem
              obtain own | later := List.mem_append.mp mem
              · exact inside own
              · exact newline (List.mem_singleton.mp later).symm
            · rwa [List.append_cons] at breaks
            · cases u with
              | nil => nofun
              | cons e u => exact last
            · intro a b split
              have own := incomplete (c :: a) b (by rw [split]; rfl)
              rwa [List.append_cons, List.append_assoc (lead buffer)] at own
            · simpa using stays

/-- The breaks of a literal are the breaks of the line it ends as well. -/
theorem KeepsBreaks.append {text u : List Char} (inside : '\n' ∉ text) (breaks : KeepsBreaks env ('"' :: u)) :
    KeepsBreaks env (text ++ '"' :: u) := by
  intro a c d b split
  obtain ⟨m, _, own⟩ | ⟨m, same, own⟩ := List.append_eq_append_iff.mp split
  · exact breaks m c d b own
  · cases m with
    | nil => exact breaks [] c d b own.symm
    | cons x m =>
        obtain ⟨_, own⟩ := List.cons.inj own
        cases m with
        | nil => cases (List.cons.inj own).1
        | cons y m =>
            rw [same, ← (List.cons.inj own).1] at inside
            exact absurd (List.mem_append_right _ (List.mem_cons_of_mem _ List.mem_cons_self)) inside

theorem scan_literal {pieces : List Piece} (takes : TakesString [] pieces) :
    Scan.start.run ('"' :: (pieces.flatMap Piece.text ++ ['"'])) = Scan.start := by
  have opens : Scan.start.step '"' = ⟨0, true, false⟩ := rfl
  rw [Scan.run_cons, Scan.run_append, opens, Scan.run_pieces takes]
  rfl

/-- Within a literal no command is complete. -/
theorem incomplete_literal {text : List Char} {p : Char → Bool} (holds : HoldsTokens env text p tokens) (deep : parenDepth tokens % 2 ^ 32 ≠ 0)
    {pieces : List Piece} (takes : TakesString [] pieces) {a b : List Char} (split : pieces.flatMap Piece.text ++ ['"'] = a ++ '\n' :: b) :
    isCommandComplete (text ++ '"' :: a) = false := by
  have own : ∃ b', pieces.flatMap Piece.text = a ++ b' := by
    obtain ⟨m, same, own⟩ | ⟨m, same, _⟩ := List.append_eq_append_iff.mp split
    · cases m with
      | nil =>
          rw [List.append_nil] at same
          exact ⟨[], by rw [same, List.append_nil]⟩
      | cons x m =>
          have rest := (List.cons.inj own).2
          cases m <;> cases rest
    · exact ⟨m, same⟩
  obtain ⟨b', own⟩ := own
  apply isCommandComplete_eq_false
  have opens : (⟨parenDepth tokens, false, false⟩ : Scan).step '"' = ⟨parenDepth tokens, true, false⟩ := rfl
  rw [Scan.run_append, holds.scans, Scan.run_cons, opens, Scan.depth_pieces takes _ own]
  exact deep

/-- A string literal. -/
theorem Base.string (own : CommandTokens command) {front text left' : List Char} {p : Char → Bool} {pieces : List Piece} {s : String}
    (base : Base env command buffer line left tokens front text p) (takes : TakesString [] pieces)
    (lexeme : Lexeme env.toReaderEnv ('"' :: (pieces.flatMap Piece.text ++ ['"'])) (some (.string s)) fun _ => false)
    (split : left = '"' :: (pieces.flatMap Piece.text ++ ['"']) ++ left') (inside : '\n' ∉ line)
    (breaks : KeepsBreaks env ('"' :: (pieces.flatMap Piece.text ++ ['"']))) {later : List Token}
    (whole : command = tokens ++ .string s :: later) (stays : NoExit env (line ++ left ++ rest)) :
    ∃ buffer' line', runText env buffer (line ++ left ++ rest) = runText env buffer' (line' ++ left' ++ rest) ∧
      '\n' ∉ line' ∧ lineAfter line ('"' :: (pieces.flatMap Piece.text ++ ['"'])) = line' ∧ NoExit env (line' ++ left' ++ rest) ∧
        Mid env command buffer' line' left' (tokens ++ [.string s]) := by
  have some_ : tokens ≠ [] := by
    rintro rfl
    have first := own.first
    rw [whole] at first
    cases first
  have deep := deep_of_inside own whole some_ (List.cons_ne_nil _ _)
  have dark : env.isWhitespace '"' = false := env.whitespace_ascii '"' (by decide)
  have kept : KeptLine env (text ++ ['"']) := by
    by_cases none_ : text = []
    · rw [none_]
      exact KeptLine.cons dark (by decide) (by decide) []
    · exact (base.kept none_).append _
  have insideText : '\n' ∉ text := by
    intro mem
    apply inside
    rw [base.split]
    exact List.mem_append_right _ mem
  have all : line ++ left ++ rest = front ++ (text ++ ['"']) ++ (pieces.flatMap Piece.text ++ ['"']) ++ (left' ++ rest) := by
    rw [base.split, split]
    simp
  have inside' : '\n' ∉ front ++ (text ++ ['"']) := by
    rw [← List.append_assoc, ← base.split]
    intro mem
    obtain own | later := List.mem_append.mp mem
    · exact inside own
    · cases List.mem_singleton.mp later
  have breaks' : KeepsBreaks env (text ++ ['"'] ++ (pieces.flatMap Piece.text ++ ['"'])) := by
    rw [List.append_assoc]
    exact breaks.append insideText
  have incomplete : ∀ a b, pieces.flatMap Piece.text ++ ['"'] = a ++ '\n' :: b →
      isCommandComplete (lead buffer ++ (text ++ ['"']) ++ a) = false := by
    intro a b split'
    have own := incomplete_literal base.holds deep takes split'
    rwa [List.append_cons, List.append_assoc (lead buffer)] at own
  rw [all] at stays ⊢
  have last : (pieces.flatMap Piece.text ++ ['"']).getLast? ≠ some '\n' := by
    rw [List.getLast?_concat]
    decide
  obtain ⟨buffer', front', text', run, carried⟩ := runText_carries buffer front (text ++ ['"']) base.white kept inside' breaks' last incomplete stays
  have stops : ∀ rest, Stops p ('"' :: (pieces.flatMap Piece.text ++ ['"']) ++ rest) := by
    intro rest
    have own := base.stops
    rw [split] at own
    exact stops_cons.mpr (stops_cons.mp own)
  have holds := base.holds.append lexeme stops (scan_literal takes) (fun _ => nofun) nofun
  have same : lead buffer' ++ text' = lead buffer ++ text ++ '"' :: (pieces.flatMap Piece.text ++ ['"']) := by
    rw [carried.whole]
    simp
  rw [← same] at holds
  have ends : text'.getLast? = some '"' := by
    have both := congrArg List.getLast? same
    rw [List.getLast?_append_of_ne_nil _ carried.kept.some_] at both
    rw [both, List.getLast?_append_of_ne_nil _ (List.cons_ne_nil _ _), ← List.cons_append]
    exact List.getLast?_concat
  refine ⟨buffer', front' ++ text', ?_, carried.inside, ?_, ?_, ?_⟩
  · rw [run]
    simp
  · rw [← carried.after, lineAfter_cons, base.split, List.append_assoc]
  · have own := carried.stays
    rwa [← List.append_assoc] at own
  · exact .of_kept rfl carried.white carried.kept ends dark holds rfl (Stops.never _) fun empty =>
      absurd (List.append_eq_nil_iff.mp empty).1 some_

end
end Minigraf
