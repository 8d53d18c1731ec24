import Minigraf.Query.Repl

/-!
The lines of the loop: what trimming leaves, and what the loop does at the end of a line.
-/

namespace Minigraf

section

variable {env : ReplEnv}

/-! ## Trimming -/

def isWhite (env : ReplEnv) (cs : List Char) : Bool := cs.all env.isWhitespace

/-- Neither end is white space. -/
def Tight (env : ReplEnv) (cs : List Char) : Prop :=
  (∀ c ∈ cs.head?, env.isWhitespace c = false) ∧ ∀ c ∈ cs.getLast?, env.isWhitespace c = false

theorem isWhite_append (a b : List Char) : isWhite env (a ++ b) = (isWhite env a && isWhite env b) := List.all_append

theorem newline_isWhitespace (env : ReplEnv) : env.isWhitespace '\n' = true := by
  rw [env.whitespace_ascii '\n' (by decide)]
  decide

theorem dropWhile_white {white : List Char} (cs : List Char) (blank : isWhite env white = true) (head : ∀ c ∈ cs.head?, env.isWhitespace c = false) :
    (white ++ cs).dropWhile env.isWhitespace = cs := by
  rw [List.dropWhile_append_of_pos fun c mem => List.all_eq_true.mp blank c mem]
  cases cs with
  | nil => rfl
  | cons c cs => exact List.dropWhile_cons_of_neg (Bool.eq_false_iff.mp (head c rfl))

theorem rdropWhile_white {cs white : List Char} (blank : isWhite env white = true)
    (last : ∀ c ∈ cs.getLast?, env.isWhitespace c = false) : (cs ++ white).rdropWhile env.isWhitespace = cs := by
  rw [List.rdropWhile, List.reverse_append, dropWhile_white, List.reverse_reverse]
  · rw [isWhite, List.all_reverse]
    exact blank
  · intro c mem
    rw [List.head?_reverse] at mem
    exact last c mem

theorem trim_eq {front body back : List Char} (white : isWhite env front = true) (white' : isWhite env back = true)
    (tight : Tight env body) : trim env (front ++ body ++ back) = body := by
  rw [trim, trimStart, List.append_assoc]
  cases body with
  | nil =>
      have all : isWhite env (front ++ back) = true := by rw [isWhite_append, white, white']; rfl
      have none_ := dropWhile_white [] all nofun
      rw [List.append_nil] at none_
      rw [List.nil_append, none_]
      rfl
  | cons c body =>
      rw [dropWhile_white (c :: body ++ back) white (fun d mem => tight.1 d mem), rdropWhile_white white' tight.2]

/-- Text is white space, what trimming leaves, and white space. -/
theorem exists_trim (env : ReplEnv) (cs : List Char) :
    ∃ front back, cs = front ++ trim env cs ++ back ∧ isWhite env front = true ∧ isWhite env back = true ∧ Tight env (trim env cs) := by
  have first := List.takeWhile_append_dropWhile (p := env.isWhitespace) (l := cs)
  have second := List.takeWhile_append_dropWhile (p := env.isWhitespace) (l := (trimStart env cs).reverse)
  have back : trimStart env cs = trim env cs ++ ((trimStart env cs).reverse.takeWhile env.isWhitespace).reverse := by
    have reversed := congrArg List.reverse second
    rw [List.reverse_append, List.reverse_reverse] at reversed
    exact reversed.symm
  have last : ∀ c ∈ (trim env cs).getLast?, env.isWhitespace c = false := by
    intro c mem
    rw [trim, List.rdropWhile, List.getLast?_reverse] at mem
    have head := List.head?_dropWhile_not env.isWhitespace (trimStart env cs).reverse
    rw [show _ = some c from mem] at head
    exact Bool.eq_false_iff.mpr fun white => by simp [white] at head
  refine ⟨cs.takeWhile env.isWhitespace, ((trimStart env cs).reverse.takeWhile env.isWhitespace).reverse, ?_, ?_, ?_, ?_, last⟩
  · rw [List.append_assoc, ← back]
    exact first.symm
  · exact List.all_takeWhile
  · rw [isWhite, List.all_reverse]
    exact List.all_takeWhile
  · intro c mem
    cases own : trim env cs with
    | nil =>
        rw [own] at mem
        cases mem
    | cons d rest =>
        rw [own] at mem
        cases mem
        rw [own] at back
        have head := List.head?_dropWhile_not env.isWhitespace cs
        rw [show cs.dropWhile env.isWhitespace = trimStart env cs from rfl, back] at head
        exact Bool.eq_false_iff.mpr fun white => by simp [white] at head

theorem trim_append_newline (line : List Char) : trim env (line ++ ['\n']) = trim env line := by
  obtain ⟨front, back, split, white, white', tight⟩ := exists_trim env line
  have white'' : isWhite env (back ++ ['\n']) = true := by
    rw [isWhite_append, white']
    simp [isWhite, newline_isWhitespace]
  calc trim env (line ++ ['\n'])
      = trim env (front ++ trim env line ++ (back ++ ['\n'])) := by rw [← List.append_assoc, ← split]
    _ = trim env line := trim_eq white white'' tight

/-! ## The end of a line -/

theorem textLines_line {line : List Char} (inside : '\n' ∉ line) (rest : List Char) :
    textLines (line ++ '\n' :: rest) = (line ++ ['\n']) :: textLines rest := by
  induction line with
  | nil => rfl
  | cons c line ih =>
      have other : c ≠ '\n' := fun newline => inside (newline ▸ List.mem_cons_self)
      rw [List.cons_append, textLines, if_neg other, ih fun mem => inside (List.mem_cons_of_mem _ mem)]
      rfl

theorem textLines_last {line : List Char} (inside : '\n' ∉ line) (some_ : line ≠ []) : textLines line = [line] := by
  induction line with
  | nil => exact absurd rfl some_
  | cons c line ih =>
      have other : c ≠ '\n' := fun newline => inside (newline ▸ List.mem_cons_self)
      rw [textLines, if_neg other]
      cases line with
      | nil => rfl
      | cons d line => rw [ih (fun mem => inside (List.mem_cons_of_mem _ mem)) (List.cons_ne_nil _ _)]

def runText (env : ReplEnv) (buffer text : List Char) : List (List Char) := runLines env buffer (textLines text)

/-- No line is the word that ends the loop. -/
def NoExit (env : ReplEnv) (text : List Char) : Prop := ∀ line ∈ textLines text, env.toUppercase (trim env line) ≠ "EXIT".toList

instance (env : ReplEnv) (text : List Char) : Decidable (NoExit env text) :=
  inferInstanceAs (Decidable (∀ line ∈ textLines text, env.toUppercase (trim env line) ≠ "EXIT".toList))

theorem noExit_line {line : List Char} (inside : '\n' ∉ line) {rest : List Char} (stays : NoExit env (line ++ '\n' :: rest)) :
    env.toUppercase (trim env line) ≠ "EXIT".toList ∧ NoExit env rest := by
  rw [NoExit, textLines_line inside, List.forall_mem_cons, trim_append_newline] at stays
  exact stays

theorem runText_skip {line : List Char} (inside : '\n' ∉ line) (skipped : isSkipped (trim env line) = true) (buffer rest : List Char) :
    runText env buffer (line ++ '\n' :: rest) = runText env buffer rest := by
  rw [runText, textLines_line inside, runLines, trim_append_newline, if_pos skipped]
  rfl

theorem runText_push {line : List Char} (inside : '\n' ∉ line) (kept : isSkipped (trim env line) = false)
    (stays : env.toUppercase (trim env line) ≠ "EXIT".toList) {buffer : List Char}
    (incomplete : isCommandComplete (pushLine buffer (trim env line)) = false) (rest : List Char) :
    runText env buffer (line ++ '\n' :: rest) = runText env (pushLine buffer (trim env line)) rest := by
  rw [runText, textLines_line inside, runLines, trim_append_newline, kept, if_neg Bool.false_ne_true, if_neg stays, incomplete,
    if_neg Bool.false_ne_true]
  rfl

theorem runText_execute {line : List Char} (inside : '\n' ∉ line) (kept : isSkipped (trim env line) = false)
    (stays : env.toUppercase (trim env line) ≠ "EXIT".toList) {buffer : List Char}
    (complete : isCommandComplete (pushLine buffer (trim env line)) = true) (rest : List Char) :
    runText env buffer (line ++ '\n' :: rest) = pushLine buffer (trim env line) :: runText env [] rest := by
  rw [runText, textLines_line inside, runLines, trim_append_newline, kept, if_neg Bool.false_ne_true, if_neg stays, if_pos complete]
  rfl

/-- The newline of the last line makes no difference. -/
theorem runText_append_newline (buffer text : List Char) : runText env buffer (text ++ ['\n']) = runText env buffer text := by
  induction len : text.length using Nat.strongRecOn generalizing text buffer with
  | ind n ih =>
      by_cases mem : '\n' ∈ text
      · obtain ⟨line, rest, split, inside⟩ := List.eq_append_cons_of_mem mem
        have shorter : rest.length < n := by
          rw [← len, split, List.length_append, List.length_cons]
          omega
        have later : ∀ b, runLines env b (textLines (rest ++ ['\n'])) = runLines env b (textLines rest) :=
          fun b => ih rest.length shorter b rest rfl
        rw [split, List.append_assoc, List.cons_append, runText, runText, textLines_line inside, textLines_line inside, runLines,
          runLines]
        simp only [later]
      · rw [runText, runText, textLines_line mem]
        cases text with
        | nil =>
            have skipped : isSkipped (trim env ['\n']) = true := by
              have none_ := @trim_append_newline env []
              rw [show trim env ['\n'] = trim env [] from none_]
              rfl
            rw [List.nil_append, runLines, if_pos skipped]
        | cons c text => rw [textLines_last mem (List.cons_ne_nil _ _), runLines, runLines, trim_append_newline]; rfl

end
end Minigraf
