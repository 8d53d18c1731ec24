import Minigraf.Query.ReplCommands

/-!
The loop over a document: commands, each beginning on a new line, and lines between them that
are left out. Where the commands are laid out plainly, it executes as many texts, in order,
each of which is parsed as the command it stands for.
-/

namespace Minigraf

/-- What a document is written of: commands, each beginning on a new line, and blank lines and
comments between them. -/
inductive DocumentItem where
  | command (text : List Char)
  | filler (line : List Char)

def DocumentItem.text : DocumentItem → List Char
  | .command text => text
  | .filler line => line

def documentText (items : List DocumentItem) : List Char := items.flatMap fun item => item.text ++ ['\n']

def commandTexts : List DocumentItem → List (List Char)
  | [] => []
  | .command text :: items => text :: commandTexts items
  | .filler _ :: items => commandTexts items

/-- Commands that are accepted, and lines that are left out. -/
def DocumentItem.WellFormed (parser : ParserEnv) (env : ReplEnv) : DocumentItem → Prop
  | .command text => ∃ command, parseDatalogCommand parser env.toReaderEnv text = .ok command
  | .filler line => '\n' ∉ line ∧ isSkipped (trim env line) = true

def DocumentItem.Plain (env : ReplEnv) : DocumentItem → Prop
  | .command text => PlainCommand env text
  | .filler _ => True

section

variable {env : ReplEnv}

theorem commandTokens_of_accepted {parser : ParserEnv} {text : List Char} {command : DatalogCommand}
    (accepted : parseDatalogCommand parser env.toReaderEnv text = .ok command) :
    ∃ read, Lexed env.toReaderEnv text read ∧ CommandTokens read.reduceOption := by
  obtain ⟨elements, edn, _⟩ := parseDatalogCommand_ok_iff.mp accepted
  obtain ⟨t, rest, tokens, value⟩ := parseEdn_ok_iff.mp edn
  obtain ⟨read, lexed, same⟩ := tokenize_ok_iff.mp tokens
  refine ⟨read, lexed, ?_⟩
  rw [same]
  exact commandTokens_of_list value

/-- Texts of the same tokens are the same command. -/
theorem parseDatalogCommand_congr (parser : ParserEnv) {text text' : List Char} {read read' : List (Option Token)}
    (lexed : Lexed env.toReaderEnv text read) (lexed' : Lexed env.toReaderEnv text' read')
    (same : read.reduceOption = read'.reduceOption) :
    parseDatalogCommand parser env.toReaderEnv text = parseDatalogCommand parser env.toReaderEnv text' := by
  have tokens := tokenize_ok_iff.mpr ⟨read, lexed, rfl⟩
  have tokens' := tokenize_ok_iff.mpr ⟨read', lexed', rfl⟩
  rw [parseDatalogCommand, parseDatalogCommand, parseEdn, parseEdn, tokens, tokens', same]

/-- From between two items. -/
theorem runText_document (parser : ParserEnv) (items : List DocumentItem) (wellFormed : ∀ item ∈ items, item.WellFormed parser env)
    (plain : ∀ item ∈ items, item.Plain env) (buffer : List Char) (holds : HoldsTokens env (lead buffer) (fun _ => false) [])
    (stays : NoExit env (documentText items)) :
    List.Forall₂ (fun executed text => parseDatalogCommand parser env.toReaderEnv executed = parseDatalogCommand parser env.toReaderEnv text)
      (runText env buffer (documentText items)) (commandTexts items) := by
  induction items generalizing buffer with
  | nil => exact .nil
  | cons item items ih =>
      obtain ⟨own, wellFormed'⟩ := List.forall_mem_cons.mp wellFormed
      obtain ⟨ownPlain, plain'⟩ := List.forall_mem_cons.mp plain
      have split : documentText (item :: items) = item.text ++ '\n' :: documentText items := by
        rw [documentText, List.flatMap_cons, List.append_assoc]
        rfl
      rw [split] at stays ⊢
      cases item with
      | filler line =>
          obtain ⟨inside, skipped⟩ := own
          rw [DocumentItem.text, runText_skip inside skipped]
          exact ih wellFormed' plain' buffer holds (noExit_line inside stays).2
      | command text =>
          obtain ⟨command, accepted⟩ := own
          obtain ⟨read, lexed, tokens⟩ := commandTokens_of_accepted accepted
          have mid : Mid env read.reduceOption buffer [] text [] := .start rfl tokens.ne_nil.symm holds
          obtain ⟨out, buffer', run, holds', stays', executed⟩ := mid.runs tokens nofun read lexed ownPlain stays (.inl rfl)
          have later := ih wellFormed' plain' buffer' holds' stays'
          obtain ⟨_, text', read', rfl, lexed', same⟩ | ⟨_, none_, _⟩ := executed
          · rw [List.nil_append] at run
            rw [DocumentItem.text, run]
            exact .cons (parseDatalogCommand_congr parser lexed' lexed same) later
          · exact absurd none_ tokens.ne_nil

end

/-- The loop executes the commands of a document that are laid out plainly, in order, each as
the command it is in the document. -/
theorem runRepl_submits (parser : ParserEnv) (env : ReplEnv) (items : List DocumentItem)
    (wellFormed : ∀ item ∈ items, item.WellFormed parser env) (plain : ∀ item ∈ items, item.Plain env)
    (stays : NoExit env (documentText items)) (text : List Char)
    (written : text = documentText items ∨ text ++ ['\n'] = documentText items) :
    List.Forall₂ (fun executed command => parseDatalogCommand parser env.toReaderEnv executed = parseDatalogCommand parser env.toReaderEnv command)
      (runRepl env text) (commandTexts items) := by
  have run : runRepl env text = runText env [] (documentText items) := by
    obtain same | same := written
    · rw [same]
      rfl
    · rw [← same, runText_append_newline]
      rfl
  rw [run]
  exact runText_document parser items wellFormed plain [] .nil stays

/-- The letters of ASCII. -/
def ReplEnv.ascii : ReplEnv := ⟨.ascii, List.map Char.toUpper⟩

theorem runRepl_submits_retract :
    List.Forall₂ (fun executed command => parseDatalogCommand ⟨.error, fun _ => .ok ()⟩ .ascii executed =
        parseDatalogCommand ⟨.error, fun _ => .ok ()⟩ .ascii command)
      (runRepl .ascii "# none\n(retract\n [])\n".toList) ["(retract\n [])".toList] := by
  apply runRepl_submits ⟨.error, fun _ => .ok ()⟩ .ascii [.filler "# none".toList, .command "(retract\n [])".toList]
  · refine List.forall_mem_cons.mpr ⟨⟨by decide +kernel, by decide +kernel⟩, List.forall_mem_singleton.mpr ?_⟩
    exact ⟨_, parseDatalogCommand_ok_iff.mpr ⟨[.symbol "retract", .vector []], by decide +kernel, rfl⟩⟩
  · refine List.forall_mem_cons.mpr ⟨trivial, List.forall_mem_singleton.mpr ?_⟩
    refine .turn (u := ['(']) (t := some .leftParen) (by decide +kernel) rfl trivial ?_
    refine .turn (u := "retract".toList) (t := some (.symbol "retract")) (by decide +kernel) rfl trivial ?_
    refine .turn (u := ['\n']) (t := none) (by decide +kernel) rfl trivial ?_
    refine .turn (u := [' ']) (t := none) (by decide +kernel) rfl trivial ?_
    refine .turn (u := ['[']) (t := some .leftBracket) (by decide +kernel) rfl trivial ?_
    refine .turn (u := [']']) (t := some .rightBracket) (by decide +kernel) rfl trivial ?_
    exact .turn (u := [')']) (t := some .rightParen) (by decide +kernel) rfl trivial .nil
  · decide +kernel
  · exact .inl (by decide +kernel)

/-- A line of a string that begins as a comment does is left out. -/
theorem runRepl_not_submits :
    let command := "(transact [[:e :note \"one\n;two\nthree\"]])".toList
    DocumentItem.WellFormed ⟨.error, fun _ => .ok ()⟩ .ascii (.command command) ∧ NoExit .ascii (documentText [.command command]) ∧
      ¬ List.Forall₂ (fun executed command => parseDatalogCommand ⟨.error, fun _ => .ok ()⟩ .ascii executed =
          parseDatalogCommand ⟨.error, fun _ => .ok ()⟩ .ascii command)
        (runRepl .ascii (documentText [.command command])) (commandTexts [.command command]) := by
  intro command
  have fact : ∀ s, parseCommand ⟨.error, fun _ => .ok ()⟩
      (.list [.symbol "transact", .vector [.vector [.keyword ":e", .keyword ":note", .string s]]]) =
        .ok (.transact ⟨[⟨.keyword ":e", .keyword ":note", .string s, none, none⟩], none, none⟩) := fun _ => rfl
  have typed := parseDatalogCommand_ok_iff.mpr ⟨_, (by decide +kernel : parseEdn .ascii command = .ok (.list [.symbol "transact",
    .vector [.vector [.keyword ":e", .keyword ":note", .string "one\n;two\nthree"]]])), fact _⟩
  have read := parseDatalogCommand_ok_iff.mpr ⟨_, (by decide +kernel : parseEdn .ascii "(transact [[:e :note \"one\nthree\"]])".toList =
    .ok (.list [.symbol "transact", .vector [.vector [.keyword ":e", .keyword ":note", .string "one\nthree"]]])), fact _⟩
  have run : runRepl .ascii (documentText [.command command]) = ["(transact [[:e :note \"one\nthree\"]])".toList] := by decide +kernel
  refine ⟨⟨_, typed⟩, by decide +kernel, ?_⟩
  intro submits
  rw [run] at submits
  cases submits with
  | cons same _ =>
      have equal := read.symm.trans (same.trans typed)
      injection equal with equal
      injection equal with equal
      exact absurd equal (by decide +kernel)

end Minigraf
