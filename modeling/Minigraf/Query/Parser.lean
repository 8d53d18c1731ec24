import Minigraf.Graph.Temporal
import Minigraf.Query.Safety

/-!
`parse_query` of `src/query/datalog/parser.rs`, from the values the reader hands it, with
what it calls: find specs, expressions, patterns, and clauses to any depth.

What the parser asks of other packages, a timestamp from its text and whether a regex
compiles, is a parameter.
-/

namespace Minigraf

structure ParserEnv where
  parseTimestamp : String → Except String Int64
  compileRegex : String → Except String Unit

inductive WindowFunc where
  | sum
  | count
  | min
  | max
  | avg
  | rank
  | rowNumber
  | udf (name : String)
  deriving DecidableEq, Repr

inductive Order where
  | asc
  | desc
  deriving DecidableEq, Repr

structure WindowSpec where
  func : WindowFunc
  var : Option Var
  partitionBy : Option Var
  orderBy : Var
  order : Order
  deriving DecidableEq, Repr

inductive FindSpec where
  | var (v : Var)
  | aggregate (func : String) (var : Var)
  | window (spec : WindowSpec)
  deriving DecidableEq, Repr

structure DatalogQuery where
  find : List FindSpec
  whereClauses : List WhereClause
  asOf : Option AsOf
  validAt : Option ValidAt
  withVars : List Var
  maxDerivedFacts : Option Nat
  maxResults : Option Nat

/-- The errors of the parser, with what their messages name; `int019` has a message of its
own, and the value printed behind it. -/
inductive ParseError where
  | prs013
  | prs014
  | prs015 (n : Int64)
  | prs016 (got : EdnValue)
  | prs017
  | prs018 (got : EdnValue)
  | prs021
  | prs022 (var : Var)
  | prs023 (var : Var)
  | prs024 (count : Nat)
  | prs025 (got : EdnValue)
  | prs026
  | prs027 (func : String)
  | prs028
  | prs029
  | prs030 (func : String)
  | prs031 (func : String)
  | prs032 (func : String)
  | prs033 (func : String)
  | prs034 (func : String)
  | prs035
  | prs036
  | prs037
  | prs038
  | prs039 (key : String)
  | prs040 (got : EdnValue)
  | prs050
  | prs051
  | prs052
  | prs053
  | prs054
  | prs055
  | prs056 (got : EdnValue)
  | prs058
  | prs059
  | prs060 (got : EdnValue)
  | prs061 (got : EdnValue)
  | prs062
  | prs063 (got : EdnValue)
  | prs064 (op : String)
  | prs065 (op : String)
  | prs066
  | prs067 (op : String)
  | prs068 (count : Nat)
  | prs069 (got : EdnValue)
  | prs070 (got : EdnValue)
  | prs078 (extra : Nat)
  | int004 (message : String)
  | int012 (key : String)
  | int013 (key : String)
  | int014 (key : String)
  | int015 (key : String)
  | int016
  | int017 (key place : String)
  | int019 (message : String) (got : Option EdnValue)
  | safety (e : QueryError)

def EdnValue.asKeyword : EdnValue → Option String
  | .keyword k => some k
  | _ => none

def EdnValue.asVector : EdnValue → Option (List EdnValue)
  | .vector items => some items
  | _ => none

def EdnValue.asList : EdnValue → Option (List EdnValue)
  | .list items => some items
  | _ => none

/-! ## Find specs -/

def windowFunc (name : String) : WindowFunc :=
  if name = "sum" then .sum
  else if name = "count" then .count
  else if name = "min" then .min
  else if name = "max" then .max
  else if name = "avg" then .avg
  else if name = "rank" then .rank
  else if name = "row-number" then .rowNumber
  else .udf name

/-- The `:over` clause as far as it is read. -/
structure Over where
  partitionBy : Option Var
  orderBy : Option Var
  order : Order

def parseOver : List EdnValue → Over → Except ParseError Over
  | [], frame => .ok frame
  | [item], frame =>
      match item.asKeyword with
      | none => .error (.prs040 item)
      | some k =>
          if k = ":partition-by" then .error .prs037
          else if k = ":order-by" then .error .prs038
          else if k = ":desc" then .ok { frame with order := .desc }
          else if k = ":asc" then .ok { frame with order := .asc }
          else .error (.prs039 k)
  | item :: next :: rest, frame =>
      match item.asKeyword with
      | none => .error (.prs040 item)
      | some k =>
          if k = ":partition-by" then
            match next.asVariable with
            | some v => parseOver rest { frame with partitionBy := some v }
            | none => .error .prs037
          else if k = ":order-by" then
            match next.asVariable with
            | some v => parseOver rest { frame with orderBy := some v }
            | none => .error .prs038
          else if k = ":desc" then parseOver (next :: rest) { frame with order := .desc }
          else if k = ":asc" then parseOver (next :: rest) { frame with order := .asc }
          else .error (.prs039 k)

/-- The end of a window expression: the `:over` keyword and the clause behind it. -/
def parseWindowEnd (func : WindowFunc) (var : Option Var) : List EdnValue → Except ParseError FindSpec
  | [clause] =>
      match clause.asList with
      | none => throw .prs035
      | some items => do
          let frame ← parseOver items ⟨none, none, .asc⟩
          match frame.orderBy with
          | none => throw (.int019 "':order-by' is required in the ':over' clause" none)
          | some orderBy => pure (.window ⟨func, var, frame.partitionBy, orderBy, frame.order⟩)
  | _ => throw .prs036

def isOver (e : EdnValue) : Bool := e.asKeyword = some ":over"

def parseWindowExpr : List EdnValue → Except ParseError FindSpec
  | [] => throw .prs028
  | head :: rest =>
      match head.asSymbol with
      | none => throw .prs029
      | some name =>
          if name = "lag" ∨ name = "lead" then throw (.prs030 name)
          else if name = "count-distinct" ∨ name = "sum-distinct" then throw (.prs031 name)
          else if windowFunc name = .rank ∨ windowFunc name = .rowNumber then
            match rest with
            | frame :: rest => if isOver frame then parseWindowEnd (windowFunc name) none rest else throw (.prs034 name)
            | [] => throw (.prs034 name)
          else
            match rest with
            | [] => throw (.prs032 name)
            | var :: rest =>
                match var.asVariable, rest with
                | none, _ => throw (.prs032 name)
                | some v, frame :: rest =>
                    if isOver frame then parseWindowEnd (windowFunc name) (some v) rest else throw (.prs033 name)
                | some _, [] => throw (.prs033 name)

def isWindowOnly (name : String) : Bool := decide (name = "avg" ∨ name = "rank" ∨ name = "row-number")

def parseAggregate (elems : List EdnValue) : Except ParseError FindSpec :=
  if elems.any isOver then parseWindowExpr elems
  else
    match elems with
    | [func, var] =>
        match func.asSymbol with
        | none => throw (.prs025 func)
        | some name =>
            if isWindowOnly name then throw (.prs027 name)
            else
              match var.asVariable with
              | some v => pure (.aggregate name v)
              | none => throw .prs026
    | elems => throw (.prs024 elems.length)

/-! ## Expressions -/

/-- What the head of an expression asks for. -/
inductive ExprHead where
  | unary (op : UnaryOp)
  | binary (op : BinOp)
  | regex
  | named

def exprHead (name : String) : ExprHead :=
  match name with
  | "string?" => .unary .stringQ
  | "integer?" => .unary .integerQ
  | "float?" => .unary .floatQ
  | "boolean?" => .unary .booleanQ
  | "nil?" => .unary .nilQ
  | "<" => .binary .lt
  | ">" => .binary .gt
  | "<=" => .binary .lte
  | ">=" => .binary .gte
  | "=" => .binary .eq
  | "!=" => .binary .neq
  | "+" => .binary .add
  | "-" => .binary .sub
  | "*" => .binary .mul
  | "/" => .binary .div
  | "starts-with?" => .binary .startsWith
  | "ends-with?" => .binary .endsWith
  | "contains?" => .binary .contains
  | "matches?" => .regex
  | _ => .named

section

variable (env : ParserEnv)

/-- The pattern of `matches?` has to be there as a text. -/
def parseRegex (lhs : Expr) : Expr → Except ParseError Expr
  | .lit (.string pattern) =>
      match env.compileRegex pattern with
      | .error e => throw (.int019 ("invalid regex pattern " ++ pattern.quote ++ ": " ++ e) none)
      | .ok _ => pure (.binOp (.matches pattern) lhs (.lit (.string pattern)))
  | _ => throw .prs066

mutual

def parseExprArg : EdnValue → Except ParseError Expr
  | .var v => pure (.var v)
  | .integer n => pure (.lit (.integer n))
  | .float f => pure (.lit (.float f))
  | .string s => pure (.lit (.string s))
  | .boolean b => pure (.lit (.boolean b))
  | .nil => pure (.lit .null)
  | .keyword k => pure (.lit (.keyword k))
  | .list inner => parseExpr inner
  | .bindSlot name => pure (.slot name)
  | other => throw (.prs070 other)

def parseExpr : List EdnValue → Except ParseError Expr
  | [] => throw .prs062
  | head :: args =>
      match head.asSymbol with
      | none => throw (.prs063 head)
      | some name =>
          match exprHead name, args with
          | .unary op, [arg] => do
              let arg ← parseExprArg arg
              pure (.unaryOp op arg)
          | .unary _, _ => throw (.prs064 name)
          | .binary op, [lhs, rhs] => do
              let lhs ← parseExprArg lhs
              let rhs ← parseExprArg rhs
              pure (.binOp op lhs rhs)
          | .binary _, _ => throw (.prs065 name)
          | .regex, [lhs, rhs] => do
              let lhs ← parseExprArg lhs
              let rhs ← parseExprArg rhs
              parseRegex env lhs rhs
          | .regex, _ => throw (.prs065 name)
          | .named, [arg] => do
              let arg ← parseExprArg arg
              pure (.unaryOp (.udf name) arg)
          | .named, _ => throw (.prs067 name)

end

/-- `parse_expr_clause`, of a vector that starts with this list. -/
def parseExprClause (inner rest : List EdnValue) : Except ParseError WhereClause := do
  let expr ← parseExpr env inner
  match rest with
  | [] => pure (.expr expr none)
  | [.var v] => pure (.expr expr (some v))
  | [other] => throw (.prs069 other)
  | rest => throw (.prs068 (rest.length + 1))

/-! ## Patterns -/

def PseudoAttr.fromKeyword (k : String) : Option PseudoAttr :=
  if k = ":db/valid-from" then some .validFrom
  else if k = ":db/valid-to" then some .validTo
  else if k = ":db/tx-count" then some .txCount
  else if k = ":db/tx-id" then some .txId
  else if k = ":db/valid-at" then some .validAt
  else none

/-- The pseudo-attribute a value names. -/
def EdnValue.pseudo (e : EdnValue) : Option PseudoAttr := e.asKeyword.bind PseudoAttr.fromKeyword

def parseQueryPattern : List EdnValue → Except ParseError Pattern
  | [entity, attr, value] =>
      if entity.pseudo.isSome then throw (.int017 (entity.asKeyword.getD "") "entity")
      else if value.pseudo.isSome then throw (.int017 (value.asKeyword.getD "") "value")
      else
        match attr.pseudo with
        | some pseudo => pure ⟨entity, .pseudo pseudo, value⟩
        | none => pure ⟨entity, .real attr, value⟩
  | vec => throw (.int019 ("Pattern must have exactly 3 elements (E A V), got " ++ toString vec.length) none)

/-- A vector among clauses: an expression if it starts with a list, else a pattern. -/
def parseVector : List EdnValue → Except ParseError WhereClause
  | .list inner :: rest => parseExprClause env inner rest
  | vec => do
      let p ← parseQueryPattern vec
      pure (.pattern p)

/-! ## Clauses -/

inductive ListHead where
  | not
  | notJoin
  | or
  | orJoin
  | predicate

def listHead (name : String) : ListHead :=
  if name = "not" then .not
  else if name = "not-join" then .notJoin
  else if name = "or" then .or
  else if name = "or-join" then .orJoin
  else .predicate

def startsWith (names : List String) (list : List EdnValue) : Bool :=
  (list.head?.bind EdnValue.asSymbol).any names.contains

/-- The variables of a vector of join variables. -/
def parseJoinVars (error : EdnValue → ParseError) (vars : List EdnValue) : Except ParseError (List Var) :=
  vars.mapM fun v =>
    match v.asVariable with
    | some v => pure v
    | none => throw (error v)

mutual

def parseListAsWhereClause (allowNot : Bool) : List EdnValue → Except ParseError WhereClause
  | [] => throw .prs050
  | head :: rest =>
      match head.asSymbol with
      | none => throw (.int019 "Rule invocation must start with predicate name (symbol), got " (some head))
      | some name =>
          match listHead name, rest with
          | .not, rest =>
              if !allowNot then throw .prs051
              else if rest.isEmpty then throw .prs052
              else do
                let inner ← parseNegated "(not)" rest
                pure (.not inner)
          | .notJoin, rest =>
              if !allowNot then
                throw (.int019 "(not-join ...) cannot appear inside another (not ...) or (not-join ...)" none)
              else
                match rest with
                | vars :: first :: rest =>
                    match vars.asVector with
                    | none => throw (.int019 "(not-join) first argument must be a vector of join variables" none)
                    | some vars => do
                        let joinVars ← parseJoinVars (fun v => .int019
                          "(not-join) join variables must be logic variables, got " (some v)) vars
                        let inner ← parseNegated "(not-join)" (first :: rest)
                        pure (.notJoin joinVars inner)
                | _ => throw .prs059
          | .or, rest =>
              if rest.isEmpty then throw .prs053
              else do
                let branches ← parseOrBranches rest
                pure (.or branches)
          | .orJoin, rest =>
              match rest with
              | vars :: first :: rest =>
                  match vars.asVector with
                  | none => throw .prs055
                  | some vars => do
                      let joinVars ← parseJoinVars .prs056 vars
                      let branches ← parseOrBranches (first :: rest)
                      pure (.orJoin joinVars branches)
              | _ => throw .prs054
          | .predicate, args => pure (.ruleInvocation name args)

def parseNegatedItem (place : String) : EdnValue → Except ParseError WhereClause
  | .vector vec => parseVector env vec
  | .list inner =>
      if startsWith ["or", "or-join"] inner then throw .int016 else parseListAsWhereClause false inner
  | item => throw (.int019 ("expected pattern or rule invocation inside " ++ place ++ ", got ") (some item))

/-- The body of a negation. -/
def parseNegated (place : String) : List EdnValue → Except ParseError (List WhereClause)
  | [] => pure []
  | item :: rest => do
      let clause ← parseNegatedItem place item
      let clauses ← parseNegated place rest
      pure (clause :: clauses)

def parseOrBranch : EdnValue → Except ParseError (List WhereClause)
  | .list inner =>
      if startsWith ["and"] inner then parseAnd inner
      else do
        let clause ← parseListAsWhereClause true inner
        pure [clause]
  | .vector vec => do
      let clause ← parseVector env vec
      pure [clause]
  | item => throw (.int019 "expected clause inside or branch, got " (some item))

/-- A branch of several clauses, behind its `and`. -/
def parseAnd : List EdnValue → Except ParseError (List WhereClause)
  | _ :: first :: rest => parseOrBranchItems (first :: rest)
  | _ => throw .prs058

def parseOrBranches : List EdnValue → Except ParseError (List (List WhereClause))
  | [] => pure []
  | item :: rest => do
      let branch ← parseOrBranch item
      let branches ← parseOrBranches rest
      pure (branch :: branches)

def parseOrBranchItem : EdnValue → Except ParseError WhereClause
  | .vector vec => parseVector env vec
  | .list inner => parseListAsWhereClause true inner
  | item => throw (.int019 "expected clause inside or branch, got " (some item))

def parseOrBranchItems : List EdnValue → Except ParseError (List WhereClause)
  | [] => pure []
  | item :: rest => do
      let clause ← parseOrBranchItem item
      let clauses ← parseOrBranchItems rest
      pure (clause :: clauses)

end

/-! ## Queries -/

/-- What the loop over the query takes next. -/
inductive Expecting where
  | item
  | withVar
  | asOf
  | validAt
  | maxDerivedFacts
  | maxResults
  deriving DecidableEq

/-- The query as far as it is read. -/
structure QueryParts where
  find : List FindSpec
  whereClauses : List WhereClause
  withVars : List Var
  asOf : Option AsOf
  validAt : Option ValidAt
  maxDerivedFacts : Option Nat
  maxResults : Option Nat
  current : Option String
  expecting : Expecting

def QueryParts.start : QueryParts := ⟨[], [], [], none, none, none, none, none, .item⟩

def timestampOf (text : String) : Except ParseError Int64 :=
  match env.parseTimestamp text with
  | .ok t => pure t
  | .error e => throw (.int004 e)

def parseAsOf : EdnValue → Except ParseError AsOf
  | .integer n => if 0 ≤ n then pure (.counter (UInt64.ofNat n.toInt.toNat)) else throw (.prs015 n)
  | .string s => do
      let t ← timestampOf env s
      pure (.timestamp t)
  | .bindSlot name => pure (.slot name)
  | other => throw (.prs016 other)

def parseValidAt : EdnValue → Except ParseError ValidAt
  | .string s => do
      let t ← timestampOf env s
      pure (.timestamp t)
  | .keyword k => if k = ":any-valid-time" then pure .anyValidTime else throw (.prs018 (.keyword k))
  | .bindSlot name => pure (.slot name)
  | other => throw (.prs018 other)

/-- The value of `:max-derived-facts` or `:max-results`. -/
def parseLimit (key : String) : EdnValue → Except ParseError Nat
  | .integer n => if 1 ≤ n then pure n.toInt.toNat else throw (.int014 key)
  | _ => throw (.int015 key)

def parseFindSpec : EdnValue → Except ParseError FindSpec
  | .var v => pure (.var v)
  | .list elems => parseAggregate elems
  | other => throw (.int019 "Expected variable or aggregate expression in :find clause, got " (some other))

def parseWhereItem : EdnValue → Except ParseError WhereClause
  | .vector vec => parseVector env vec
  | .list list => parseListAsWhereClause env true list
  | other => throw (.prs060 other)

/-- A keyword between the items of a query. -/
def QueryParts.keyword (q : QueryParts) (k : String) : Except ParseError QueryParts :=
  if k = ":as-of" then pure { q with expecting := .asOf }
  else if k = ":valid-at" then pure { q with expecting := .validAt }
  else if k = ":any-valid-time" then pure { q with validAt := some .anyValidTime, expecting := .item }
  else if k = ":max-derived-facts" then
    if q.maxDerivedFacts.isSome then throw (.int012 k) else pure { q with expecting := .maxDerivedFacts }
  else if k = ":max-results" then
    if q.maxResults.isSome then throw (.int012 k) else pure { q with expecting := .maxResults }
  else if k = ":with" then pure { q with expecting := .withVar }
  else pure { q with current := some k, expecting := .item }

/-- An item of the clause the last keyword opened. -/
def QueryParts.item (q : QueryParts) (e : EdnValue) : Except ParseError QueryParts :=
  if q.current = some ":find" then do
    let spec ← parseFindSpec e
    pure { q with find := q.find ++ [spec] }
  else if q.current = some ":where" then do
    let clause ← parseWhereItem env e
    pure { q with whereClauses := q.whereClauses ++ [clause] }
  else throw (.prs061 e)

/-- One value of the query. -/
def QueryParts.step (q : QueryParts) (e : EdnValue) : Except ParseError QueryParts :=
  match q.expecting with
  | .asOf => do
      let asOf ← parseAsOf env e
      pure { q with asOf := some asOf, expecting := .item }
  | .validAt => do
      let validAt ← parseValidAt env e
      pure { q with validAt := some validAt, expecting := .item }
  | .maxDerivedFacts => do
      let n ← parseLimit ":max-derived-facts" e
      pure { q with maxDerivedFacts := some n, expecting := .item }
  | .maxResults => do
      let n ← parseLimit ":max-results" e
      pure { q with maxResults := some n, expecting := .item }
  | .withVar =>
      match e with
      | .keyword k => q.keyword k
      | .var v => pure { q with withVars := q.withVars ++ [v] }
      | other => throw (.int019 "':with' clause accepts only variables, got " (some other))
  | .item =>
      match e with
      | .keyword k => q.keyword k
      | e => q.item env e

/-- The error of a query that ends where a value has to follow. -/
def Expecting.missing : Expecting → Option ParseError
  | .item => none
  | .withVar => none
  | .asOf => some .prs014
  | .validAt => some .prs017
  | .maxDerivedFacts => some (.int013 ":max-derived-facts")
  | .maxResults => some (.int013 ":max-results")

/-- The first variable of an aggregate that nothing binds. -/
def unboundAggregate (find : List FindSpec) (bound : List Var) : Option Var :=
  firstUnbound (find.filterMap fun
    | .aggregate _ v => some v
    | _ => none) bound

def FindSpec.isAggregate : FindSpec → Bool
  | .aggregate _ _ => true
  | _ => false

/-- The checks behind the loop. -/
def QueryParts.check (q : QueryParts) : Except ParseError Unit :=
  match checkSafety q.whereClauses with
  | .error e => throw (.safety e)
  | .ok _ =>
      match unboundAggregate q.find (bodyOuterVars q.whereClauses) with
      | some v => throw (.prs023 v)
      | none =>
          match firstUnbound q.withVars (bodyOuterVars q.whereClauses) with
          | some v => throw (.prs022 v)
          | none => if !q.withVars.isEmpty && !q.find.any FindSpec.isAggregate then throw .prs021 else pure ()

def QueryParts.query (q : QueryParts) : DatalogQuery :=
  ⟨q.find, q.whereClauses, q.asOf, q.validAt, q.withVars, q.maxDerivedFacts, q.maxResults⟩

def parseQueryVector (items : List EdnValue) : Except ParseError DatalogQuery := do
  let q ← items.foldlM (QueryParts.step env) .start
  match q.expecting.missing with
  | some e => throw e
  | none =>
      q.check
      pure q.query

def parseQuery : List EdnValue → Except ParseError DatalogQuery
  | [] => throw .prs013
  | [.vector items] => parseQueryVector env items
  | [_] => throw (.int019 "Query argument must be a vector" none)
  | elements => throw (.prs078 (elements.length - 1))

end

end Minigraf
