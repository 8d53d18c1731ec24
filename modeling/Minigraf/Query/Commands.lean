import Minigraf.Query.Parser
import Minigraf.Query.Reading
import Minigraf.Query.Rules

/-!
`parse_datalog_command` of `src/query/datalog/parser.rs`: the command a text is read as, with
`parse_transact`, `parse_retract` and `parse_rule`.
-/

namespace Minigraf

/-- A pattern of a transaction, a fact to be. -/
structure FactPattern where
  entity : EdnValue
  attr : EdnValue
  value : EdnValue
  validFrom : Option Int64
  validTo : Option Int64
  deriving DecidableEq, Repr

structure FactBatch where
  facts : List FactPattern
  validFrom : Option Int64
  validTo : Option Int64
  deriving DecidableEq, Repr

inductive DatalogCommand where
  | query (query : DatalogQuery)
  | rule (rule : Rule)
  | transact (tx : FactBatch)
  | retract (tx : FactBatch)

/-- The errors of a command, with what their messages name; `int019` prints a value where its
message has an ellipsis, or behind it. -/
inductive CommandError where
  | read (e : ReadError)
  | query (e : ParseError)
  | prs010
  | prs011 (command : String)
  | prs012
  | prs019 (got : EdnValue)
  | prs020 (got : EdnValue)
  | prs041
  | prs042
  | prs043
  | prs044
  | prs045
  | prs046 (count : Nat)
  | prs047 (got : EdnValue)
  | prs048
  | prs075 (extra : Nat)
  | prs076 (extra : Nat)
  | prs079 (extra : Nat)
  | prs108 (count : Nat)
  | int019 (message : String) (got : Option EdnValue)

section

variable (env : ParserEnv)

/-! ## Transactions -/

structure ValidTimes where
  validFrom : Option Int64
  validTo : Option Int64

def validTimeOf (error : EdnValue → CommandError) : EdnValue → Except CommandError Int64
  | .string s =>
      match timestampOf env s with
      | .ok t => .ok t
      | .error e => .error (.query e)
  | other => .error (error other)

def parseValidTimeMap (pairs : List (EdnValue × EdnValue)) : Except CommandError ValidTimes :=
  pairs.foldlM (fun times (key, val) =>
    if key.asKeyword = some ":valid-from" then do
      let t ← validTimeOf env .prs019 val
      pure { times with validFrom := some t }
    else if key.asKeyword = some ":valid-to" then do
      let t ← validTimeOf env .prs020 val
      pure { times with validTo := some t }
    else throw (.int019 "Unknown key in valid-time map: …; expected :valid-from or :valid-to" (some key))) ⟨none, none⟩

def parseFact (tx : ValidTimes) : EdnValue → Except CommandError FactPattern
  | .vector [entity, attr, value] => pure ⟨entity, attr, value, tx.validFrom, tx.validTo⟩
  | .vector [entity, attr, value, .map pairs] => do
      let own ← parseValidTimeMap env pairs
      pure ⟨entity, attr, value, own.validFrom <|> tx.validFrom, own.validTo <|> tx.validTo⟩
  | .vector [_, _, _, other] => throw (.prs047 other)
  | .vector fact => if fact.length < 3 then throw (.prs046 fact.length) else throw (.prs108 fact.length)
  | _ => throw .prs045

def parseFacts (tx : ValidTimes) : EdnValue → Except CommandError DatalogCommand
  | .vector facts => do
      let patterns ← facts.mapM (parseFact env tx)
      pure (.transact ⟨patterns, tx.validFrom, tx.validTo⟩)
  | _ => throw .prs042

def parseTransact : List EdnValue → Except CommandError DatalogCommand
  | [] => throw .prs041
  | .map pairs :: rest => do
      let tx ← parseValidTimeMap env pairs
      match rest with
      | [] => throw .prs048
      | [facts] => parseFacts env tx facts
      | _ :: extra => throw (.prs075 extra.length)
  | [facts] => parseFacts env ⟨none, none⟩ facts
  | _ :: extra => throw (.prs075 extra.length)

def parseRetracted : EdnValue → Except CommandError FactPattern
  | .vector [entity, attr, value] => pure ⟨entity, attr, value, none, none⟩
  | .vector fact => throw (.int019 ("Pattern must have exactly 3 elements (E A V), got " ++ toString fact.length) none)
  | _ => throw (.int019 "Each fact must be a vector [e a v]" none)

def parseRetract : List EdnValue → Except CommandError DatalogCommand
  | [] => throw .prs043
  | [.vector facts] => do
      let patterns ← facts.mapM parseRetracted
      pure (.retract ⟨patterns, none, none⟩)
  | [_] => throw .prs044
  | _ :: extra => throw (.prs076 extra.length)

/-! ## Rules -/

def parseBodyItem : EdnValue → Except CommandError WhereClause
  | .vector vec => (parseVector env vec).mapError .query
  | .list list => (parseListAsWhereClause env true list).mapError .query
  | other => throw (.int019 "Rule body clause must be a vector (pattern) or list (rule invocation / not), got " (some other))

/-- The head arguments bind, as the clauses that are no negations do. -/
def checkRule (headArgs : List EdnValue) (body : List WhereClause) : Except QueryError Unit := do
  let outerBound := headArgs.filterMap EdnValue.asVariable ++ bodyOuterVars body
  checkNotSafety body outerBound
  checkNotJoinSafety body outerBound
  checkExprSafety body

def parseRuleBody (head : List EdnValue) (items : List EdnValue) : Except CommandError DatalogCommand := do
  let body ← items.mapM (parseBodyItem env)
  if body.isEmpty then throw (.int019 "Rule must have at least one pattern or rule invocation in body" none)
  else
    match checkRule head.tail body with
    | .error e => throw (.query (.safety e))
    | .ok _ => pure (.rule ⟨head, body⟩)

def parseRule : List EdnValue → Except CommandError DatalogCommand
  | [] => throw (.int019 "Rule must have a body" none)
  | [.vector []] => throw (.int019 "Rule body cannot be empty" none)
  | [.vector (.list [] :: _)] => throw (.int019 "Rule head cannot be empty" none)
  | [.vector (.list (name :: args) :: items)] =>
      if name.asSymbol.isSome then parseRuleBody env (name :: args) items
      else throw (.int019 "Rule head must start with a symbol (predicate name)" none)
  | [.vector (_ :: _)] => throw (.int019 "Rule head must be a list: (predicate ?args)" none)
  | [_] => throw (.int019 "Rule body must be a vector" none)
  | _ :: extra => throw (.prs079 extra.length)

/-! ## Commands -/

/-- The command a list names with its first element. -/
def commandName (e : EdnValue) : Option String := e.asSymbol <|> e.asKeyword

def parseCommand : EdnValue → Except CommandError DatalogCommand
  | .list (first :: rest) =>
      match commandName first with
      | none => throw .prs010
      | some command =>
          if command = "query" then (parseQuery env rest).mapError .query |>.map .query
          else if command = "transact" then parseTransact env rest
          else if command = "retract" then parseRetract rest
          else if command = "rule" then parseRule env rest
          else throw (.prs011 command)
  | _ => throw .prs012

def parseDatalogCommand (reader : ReaderEnv) (input : List Char) : Except CommandError DatalogCommand := do
  let edn ← (parseEdn reader input).mapError .read
  parseCommand env edn

end

theorem parseDatalogCommand_ok_iff {env : ParserEnv} {reader : ReaderEnv} {input : List Char} {command : DatalogCommand} :
    parseDatalogCommand env reader input = .ok command ↔
      ∃ elements, parseEdn reader input = .ok (.list elements) ∧ parseCommand env (.list elements) = .ok command := by
  constructor
  · intro run
    obtain ⟨edn, read, run⟩ := except_bind_ok run
    cases parsed : parseEdn reader input with
    | error e =>
        rw [parsed] at read
        cases read
    | ok edn' =>
        rw [parsed] at read
        cases read
        cases edn with
        | list elements => exact ⟨elements, rfl, run⟩
        | keyword _ | var _ | underscore | symbol _ | string _ | integer _ | float _ | boolean _ | uuid _ | vector _ | map _
        | nil | bindSlot _ => cases run
  · intro ⟨elements, parsed, run⟩
    rw [parseDatalogCommand, parsed]
    exact run

end Minigraf
