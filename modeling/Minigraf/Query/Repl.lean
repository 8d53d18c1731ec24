import Mathlib.Data.List.DropRight
import Minigraf.Query.LexicalLimits

/-!
The loop of `src/repl.rs`: it trims the lines it reads, leaves out blank ones and comments,
joins the others, and executes what it has as soon as its own count of parentheses comes to
zero.
-/

namespace Minigraf

structure ReplEnv extends ReaderEnv where
  toUppercase : List Char → List Char

/-! ## Completeness -/

/-- The state of `is_command_complete`. -/
structure Scan where
  depth : Int
  inString : Bool
  escapeNext : Bool
  deriving DecidableEq, Repr

def Scan.start : Scan := ⟨0, false, false⟩

def Scan.step (s : Scan) (ch : Char) : Scan :=
  if s.escapeNext then { s with escapeNext := false }
  else if ch = '\\' ∧ s.inString = true then { s with escapeNext := true }
  else if ch = '"' then { s with inString := !s.inString }
  else if ch = '(' ∧ s.inString = false then { s with depth := s.depth + 1 }
  else if ch = ')' ∧ s.inString = false then { s with depth := s.depth - 1 }
  else s

def Scan.run (s : Scan) (input : List Char) : Scan := input.foldl Scan.step s

/-- `depth` is an `i32`. -/
def isCommandComplete (input : List Char) : Bool := decide ((Scan.start.run input).depth % 2 ^ 32 = 0) && input.contains '('

/-! ## Lines -/

def trimStart (env : ReplEnv) (cs : List Char) : List Char := cs.dropWhile env.isWhitespace

def trim (env : ReplEnv) (cs : List Char) : List Char := (trimStart env cs).rdropWhile env.isWhitespace

/-- The lines as `read_line` hands them over, each with the newline that ends it. -/
def textLines : List Char → List (List Char)
  | [] => []
  | c :: rest =>
      if c = '\n' then ['\n'] :: textLines rest
      else
        match textLines rest with
        | [] => [[c]]
        | line :: lines => (c :: line) :: lines

def isSkipped (line : List Char) : Bool :=
  match line with
  | [] => true
  | c :: _ => c == '#' || c == ';'

def pushLine (commandBuffer line : List Char) : List Char :=
  if commandBuffer = [] then line else commandBuffer ++ '\n' :: line

/-- The texts that are executed, from the buffer and the lines still to come. -/
def runLines (env : ReplEnv) (commandBuffer : List Char) : List (List Char) → List (List Char)
  | [] => []
  | input :: inputs =>
      if isSkipped (trim env input) then runLines env commandBuffer inputs
      else if env.toUppercase (trim env input) = "EXIT".toList then []
      else if isCommandComplete (pushLine commandBuffer (trim env input)) then
        pushLine commandBuffer (trim env input) :: runLines env [] inputs
      else runLines env (pushLine commandBuffer (trim env input)) inputs

def runRepl (env : ReplEnv) (text : List Char) : List (List Char) := runLines env [] (textLines text)

/-! ## Scanning -/

theorem Scan.run_append (s : Scan) (a b : List Char) : s.run (a ++ b) = (s.run a).run b := List.foldl_append

theorem Scan.run_cons (s : Scan) (c : Char) (cs : List Char) : s.run (c :: cs) = (s.step c).run cs := rfl

/-- Outside of strings only three characters count. -/
theorem Scan.step_quiet {c : Char} (quiet : c ≠ '(' ∧ c ≠ ')' ∧ c ≠ '"') (d : Int) :
    (⟨d, false, false⟩ : Scan).step c = ⟨d, false, false⟩ := by
  simp [step, quiet.1, quiet.2.1, quiet.2.2]

theorem Scan.run_quiet {cs : List Char} (quiet : ∀ c ∈ cs, c ≠ '(' ∧ c ≠ ')' ∧ c ≠ '"') (d : Int) :
    (⟨d, false, false⟩ : Scan).run cs = ⟨d, false, false⟩ := by
  induction cs with
  | nil => rfl
  | cons c cs ih =>
      rw [run_cons, step_quiet (quiet c List.mem_cons_self)]
      exact ih fun c mem => quiet c (List.mem_cons_of_mem _ mem)

/-- The pieces of a string count for nothing. -/
theorem Scan.run_pieces {string : List Char} {pieces : List Piece} (takes : TakesString string pieces) (d : Int) :
    (⟨d, true, false⟩ : Scan).run (pieces.flatMap Piece.text) = ⟨d, true, false⟩ := by
  induction pieces generalizing string with
  | nil => rfl
  | cons piece pieces ih =>
      rw [List.flatMap_cons, run_append]
      cases piece with
      | plain c =>
          obtain ⟨notQuote, notBackslash, _, takes⟩ := takes
          have same : (⟨d, true, false⟩ : Scan).run (Piece.plain c).text = ⟨d, true, false⟩ := by
            simp [Piece.text, run, step, notQuote, notBackslash]
          rw [same]
          exact ih takes
      | escape c =>
          have same : (⟨d, true, false⟩ : Scan).run (Piece.escape c).text = ⟨d, true, false⟩ := by
            simp [Piece.text, run, step]
          rw [same]
          exact ih takes

/-- Within the pieces of a string the depth stays. -/
theorem Scan.depth_pieces {string : List Char} {pieces : List Piece} (takes : TakesString string pieces) (d : Int)
    {front back : List Char} (split : pieces.flatMap Piece.text = front ++ back) :
    ((⟨d, true, false⟩ : Scan).run front).depth = d := by
  induction pieces generalizing string front with
  | nil =>
      have none_ := (List.append_eq_nil_iff.mp split.symm).1
      rw [none_]
      rfl
  | cons piece pieces ih =>
      rw [List.flatMap_cons] at split
      cases piece with
      | plain c =>
          obtain ⟨notQuote, notBackslash, _, takes⟩ := takes
          cases front with
          | nil => rfl
          | cons x front =>
              obtain ⟨rfl, rest⟩ := List.cons.inj split
              have same : (⟨d, true, false⟩ : Scan).step c = ⟨d, true, false⟩ := by
                simp [step, notQuote, notBackslash]
              rw [run_cons, same]
              exact ih takes rest
      | escape c =>
          cases front with
          | nil => rfl
          | cons x front =>
              obtain ⟨rfl, tail⟩ := List.cons.inj split
              cases front with
              | nil => rfl
              | cons y front =>
                  obtain ⟨rfl, rest⟩ := List.cons.inj tail
                  rw [run_cons, run_cons]
                  have same : ((⟨d, true, false⟩ : Scan).step '\\').step c = ⟨d, true, false⟩ := by
                    simp [step]
                  rw [same]
                  exact ih takes rest

end Minigraf
