import Minigraf.Query.Parser

/-!
`eval_binop` and `eval_expr` of `src/query/datalog/executor.rs` with the ways they can
stop kept apart: an error the caller sees, an arm marked unreachable, and the one integer
operation that is neither wrapping nor guarded.
-/

namespace Minigraf

/-- Why an evaluation stops with no value: `Err(())`, or one of two panics. -/
inductive Halt where
  | err
  | unreachable
  | divOverflow
  deriving DecidableEq, Repr

/-- A value or an error, and no panic. -/
def Returns (r : Except Halt Value) : Prop := r ≠ .error .unreachable ∧ r ≠ .error .divOverflow

/-- What has no value is an error. -/
def orErr {α : Type} : Option α → Except Halt α
  | some a => .ok a
  | none => .error .err

section

variable (env : Env)

/-! ## Operators -/

def runOrder (op : BinOp) (ord : Ordering) : Except Halt Bool :=
  match op with
  | .lt => .ok ord.isLT
  | .gt => .ok ord.isGT
  | .lte => .ok ord.isLE
  | .gte => .ok ord.isGE
  | _ => .error .unreachable

def runComparison (op : BinOp) (l r : Value) : Except Halt Value := do
  let ordering ← orErr (exprOrdering l r)
  match ordering with
  | none => pure (.boolean false)
  | some ord => do
      let answer ← runOrder op ord
      pure (.boolean answer)

def runIntegers (op : BinOp) (a b : Int64) : Except Halt Int64 :=
  match op with
  | .add => .ok (a + b)
  | .sub => .ok (a - b)
  | .mul => .ok (a * b)
  | .div =>
      if b = 0 then .error .err
      else if a = Int64.minValue ∧ b = -1 then .error .divOverflow
      else .ok (a / b)
  | _ => .error .unreachable

def runFloats (op : BinOp) (x y : Float) : Except Halt Float :=
  match op with
  | .add => orErr (notNan (x + y))
  | .sub => orErr (notNan (x - y))
  | .mul => orErr (notNan (x * y))
  | .div => orErr (divFloats x y)
  | _ => .error .unreachable

def runArithmetic (op : BinOp) : Value → Value → Except Halt Value
  | .integer a, .integer b => do
      let c ← runIntegers op a b
      pure (.integer c)
  | l, r => do
      let (x, y) ← orErr (toFloatPair l r)
      let z ← runFloats op x y
      pure (.float (.ofFloat z))

/-- The second match of `eval_binop`. -/
def runOthers (op : BinOp) (l r : Value) : Except Halt Value :=
  match op with
  | .lt | .gt | .lte | .gte => runComparison op l r
  | .add | .sub | .mul | .div => runArithmetic op l r
  | .startsWith => orErr (onStrings (fun s t => t.toList.isPrefixOf s.toList) l r)
  | .endsWith => orErr (onStrings (fun s t => t.toList.isSuffixOf s.toList) l r)
  | .contains => orErr (onStrings (fun s t => decide (t.toList <:+: s.toList)) l r)
  | .matches pattern => orErr (onStrings (fun s _ => env.isMatch pattern s) l r)
  | .eq | .neq => .error .unreachable

/-- The first match answers for equality. -/
def runBinop (op : BinOp) (l r : Value) : Except Halt Value :=
  match op with
  | .eq => .ok (.boolean (exprEq env l r))
  | .neq => .ok (.boolean (!exprEq env l r))
  | _ => runOthers env op l r

def runExpr : Expr → Bindings → Except Halt Value
  | .var v, b => orErr (b.lookup (.var v))
  | .lit value, _ => .ok value
  | .slot _, _ => .error .err
  | .binOp op lhs rhs, b => do
      let l ← runExpr lhs b
      let r ← runExpr rhs b
      runBinop env op l r
  | .unaryOp op arg, b => do
      let v ← runExpr arg b
      orErr (evalUnaryOp env op v)

/-! ## The panics of one operator -/

theorem orErr_returns (v : Option Value) : Returns (orErr v) := by
  cases v <;> exact ⟨nofun, nofun⟩

theorem orErr_toOption {α : Type} (v : Option α) : (orErr v).toOption = v := by
  cases v <;> rfl

theorem runComparison_returns {op : BinOp} (order : op ∈ [BinOp.lt, .gt, .lte, .gte]) (l r : Value) :
    Returns (runComparison op l r) := by
  unfold runComparison
  cases exprOrdering l r with
  | none => exact ⟨nofun, nofun⟩
  | some ordering =>
      cases ordering with
      | none => exact ⟨nofun, nofun⟩
      | some ord =>
          simp only [List.mem_cons, List.not_mem_nil, or_false] at order
          rcases order with rfl | rfl | rfl | rfl <;> exact ⟨nofun, nofun⟩

theorem runFloats_halts {op : BinOp} (known : op ∈ [BinOp.add, .sub, .mul, .div]) {x y : Float} {why : Halt}
    (halts : runFloats op x y = .error why) : why = .err := by
  have plain : ∀ {z : Option Float}, orErr z = .error why → why = .err := by
    intro z halts
    cases z with
    | none => exact (Except.error.inj halts).symm
    | some z => cases halts
  simp only [List.mem_cons, List.not_mem_nil, or_false] at known
  rcases known with rfl | rfl | rfl | rfl <;> exact plain halts

/-- The one pair of operands an operator panics on. -/
def DividesOut (op : BinOp) (l r : Value) : Prop :=
  op = .div ∧ l = .integer Int64.minValue ∧ r = .integer (-1)

theorem runIntegers_halts {op : BinOp} (known : op ∈ [BinOp.add, .sub, .mul, .div]) {a b : Int64} {why : Halt}
    (halts : runIntegers op a b = .error why) :
    why = .err ∨ why = .divOverflow ∧ op = .div ∧ a = Int64.minValue ∧ b = -1 := by
  simp only [List.mem_cons, List.not_mem_nil, or_false] at known
  rcases known with rfl | rfl | rfl | rfl <;> simp only [runIntegers] at halts
  · cases halts
  · cases halts
  · cases halts
  · by_cases zero : b = 0
    · rw [if_pos zero] at halts
      exact .inl (Except.error.inj halts).symm
    · rw [if_neg zero] at halts
      by_cases least : a = Int64.minValue ∧ b = -1
      · rw [if_pos least] at halts
        exact .inr ⟨(Except.error.inj halts).symm, rfl, least⟩
      · rw [if_neg least] at halts
        cases halts

theorem runArithmetic_halts {op : BinOp} (known : op ∈ [BinOp.add, .sub, .mul, .div]) {l r : Value} {why : Halt}
    (halts : runArithmetic op l r = .error why) : why = .err ∨ why = .divOverflow ∧ DividesOut op l r := by
  unfold runArithmetic at halts
  split at halts
  next a b =>
    cases run : runIntegers op a b with
    | ok c =>
        rw [run] at halts
        cases halts
    | error e =>
        rw [run] at halts
        cases halts
        rcases runIntegers_halts known run with plain | ⟨past, division, least, minus⟩
        · exact .inl plain
        · exact .inr ⟨past, division, congrArg _ least, congrArg _ minus⟩
  next =>
    left
    cases both : toFloatPair l r with
    | none =>
        rw [both] at halts
        exact (Except.error.inj halts).symm
    | some pair =>
        obtain ⟨x, y⟩ := pair
        rw [both] at halts
        change (runFloats op x y >>= _) = _ at halts
        cases run : runFloats op x y with
        | ok z =>
            rw [run] at halts
            cases halts
        | error e =>
            rw [run] at halts
            cases halts
            exact runFloats_halts known run

/-- An operator comes to no unreachable arm, and panics on the least integer divided by -1
only. -/
theorem runBinop_halts {op : BinOp} {l r : Value} {why : Halt} (halts : runBinop env op l r = .error why) :
    why = .err ∨ why = .divOverflow ∧ DividesOut op l r := by
  have plain : ∀ {r : Except Halt Value}, Returns r → r = .error why → why = .err := by
    intro r returns stops
    cases why with
    | err => rfl
    | unreachable => exact absurd stops returns.1
    | divOverflow => exact absurd stops returns.2
  cases op with
  | eq | neq => cases halts
  | lt | gt | lte | gte => exact .inl (plain (runComparison_returns (by decide) l r) halts)
  | add | sub | mul | div => exact runArithmetic_halts (by decide) halts
  | startsWith | endsWith | contains | «matches» => exact .inl (plain (orErr_returns _) halts)

/-! ## What the evaluation leaves out of account -/

theorem toOption_bind {α β : Type} (x : Except Halt α) (f : α → Except Halt β) :
    (x >>= f).toOption = x.toOption.bind fun a => (f a).toOption := by
  cases x <;> rfl

theorem runComparison_toOption {op : BinOp} {test : Ordering → Bool}
    (runs : ∀ ord, runOrder op ord = .ok (test ord)) (l r : Value) :
    (runComparison op l r).toOption = compareWith test l r := by
  unfold runComparison compareWith
  cases exprOrdering l r with
  | none => rfl
  | some ordering =>
      cases ordering with
      | none => rfl
      | some ord =>
          simp only [orErr, runs]
          rfl

theorem runArithmetic_toOption {op : BinOp} {onIntegers : Int64 → Int64 → Option Int64}
    {onFloats : Float → Float → Option Float} (ints : ∀ a b, (runIntegers op a b).toOption = onIntegers a b)
    (floats : ∀ x y, (runFloats op x y).toOption = onFloats x y) (l r : Value) :
    (runArithmetic op l r).toOption = arithmetic onIntegers onFloats l r := by
  unfold runArithmetic
  split
  next a b =>
    rw [toOption_bind, ints]
    change _ = (onIntegers a b).map _
    cases onIntegers a b <;> rfl
  next mixed =>
    rw [toOption_bind, orErr_toOption, arithmetic]
    · cases toFloatPair l r with
      | none => rfl
      | some pair =>
          obtain ⟨x, y⟩ := pair
          change (runFloats op x y >>= _).toOption = _
          rw [toOption_bind, floats]
          rfl
    · exact mixed

theorem runIntegers_div_toOption (a b : Int64) : (runIntegers .div a b).toOption = divIntegers a b := by
  by_cases zero : b = 0
  · simp [runIntegers, divIntegers, zero, Except.toOption]
  · by_cases least : a = Int64.minValue ∧ b = -1
    · simp [runIntegers, divIntegers, least, Except.toOption]
    · simp [runIntegers, divIntegers, zero, least, Except.toOption]

/-- With errors and panics alike taken for no value, an operator is the one the rest of
the query engine is modelled with. -/
theorem runBinop_toOption (op : BinOp) (l r : Value) :
    (runBinop env op l r).toOption = evalBinop env op l r := by
  cases op with
  | eq | neq => rfl
  | lt | gt | lte | gte => exact runComparison_toOption (fun _ => rfl) l r
  | add | sub | mul =>
      simp only [runBinop, runOthers, evalBinop]
      apply runArithmetic_toOption
      · intro x y
        rfl
      · intro x y
        exact orErr_toOption _
  | div =>
      apply runArithmetic_toOption
      · exact runIntegers_div_toOption
      · intro x y
        exact orErr_toOption _
  | startsWith | endsWith | contains | «matches» => exact orErr_toOption _

theorem runExpr_toOption (e : Expr) (b : Bindings) : (runExpr env e b).toOption = evalExpr env e b := by
  induction e with
  | var v => exact orErr_toOption _
  | lit value | slot name => rfl
  | binOp op lhs rhs ihl ihr =>
      unfold runExpr evalExpr
      rw [toOption_bind, ihl]
      apply congrArg
      funext l
      rw [toOption_bind, ihr]
      apply congrArg
      funext r
      exact runBinop_toOption env op l r
  | unaryOp op arg ih =>
      unfold runExpr evalExpr
      rw [toOption_bind, ih]
      apply congrArg
      funext v
      exact orErr_toOption _

/-! ## The panics of an expression -/

/-- The values of an expression on a row, whatever order its parts are taken in. -/
inductive Yields (b : Bindings) : Expr → Value → Prop where
  | var {v : Var} {value : Value} : b.lookup (.var v) = some value → Yields b (.var v) value
  | lit (value : Value) : Yields b (.lit value) value
  | binOp {op : BinOp} {lhs rhs : Expr} {l r value : Value} : Yields b lhs l → Yields b rhs r →
      evalBinop env op l r = some value → Yields b (.binOp op lhs rhs) value
  | unaryOp {op : UnaryOp} {arg : Expr} {v value : Value} : Yields b arg v →
      evalUnaryOp env op v = some value → Yields b (.unaryOp op arg) value

/-- A division of the least integer by -1 stands where an evaluation comes to it: the left
operands before it have values. -/
inductive ComesToOverflow (b : Bindings) : Expr → Prop where
  | here {lhs rhs : Expr} : Yields env b lhs (.integer Int64.minValue) → Yields env b rhs (.integer (-1)) →
      ComesToOverflow b (.binOp .div lhs rhs)
  | left {op : BinOp} {lhs : Expr} (rhs : Expr) : ComesToOverflow b lhs → ComesToOverflow b (.binOp op lhs rhs)
  | right {op : BinOp} {lhs rhs : Expr} {l : Value} : Yields env b lhs l → ComesToOverflow b rhs →
      ComesToOverflow b (.binOp op lhs rhs)
  | arg {op : UnaryOp} {arg : Expr} : ComesToOverflow b arg → ComesToOverflow b (.unaryOp op arg)

variable {env} {b : Bindings}

theorem yields_iff_evalExpr (e : Expr) (value : Value) : Yields env b e value ↔ evalExpr env e b = some value := by
  induction e generalizing value with
  | var v =>
      constructor
      · intro yields
        cases yields with
        | var bound => exact bound
      · exact .var
  | lit literal =>
      constructor
      · intro yields
        cases yields with
        | lit => rfl
      · intro same
        cases same
        exact .lit _
  | slot name =>
      constructor
      · nofun
      · nofun
  | binOp op lhs rhs ihl ihr =>
      simp only [evalExpr, Option.bind_eq_bind, Option.bind_eq_some_iff]
      constructor
      · intro yields
        cases yields with
        | @binOp _ _ _ l r _ left right meets => exact ⟨l, (ihl l).mp left, r, (ihr r).mp right, meets⟩
      · intro ⟨l, left, r, right, meets⟩
        exact .binOp ((ihl l).mpr left) ((ihr r).mpr right) meets
  | unaryOp op arg ih =>
      simp only [evalExpr, Option.bind_eq_bind, Option.bind_eq_some_iff]
      constructor
      · intro yields
        cases yields with
        | @unaryOp _ _ v _ operand meets => exact ⟨v, (ih v).mp operand, meets⟩
      · intro ⟨v, operand, meets⟩
        exact .unaryOp ((ih v).mpr operand) meets

theorem yields_iff (e : Expr) (value : Value) : Yields env b e value ↔ runExpr env e b = .ok value := by
  rw [yields_iff_evalExpr, ← runExpr_toOption]
  cases runExpr env e b <;> simp [Except.toOption]

/-- An evaluation that stops is stopped by an error or by an overflow it comes to. -/
theorem runExpr_halts {e : Expr} {why : Halt} (halts : runExpr env e b = .error why) :
    why = .err ∨ why = .divOverflow ∧ ComesToOverflow env b e := by
  have plain : ∀ {α : Type} {v : Option α}, orErr v = .error why → why = .err := by
    intro α v stops
    cases v with
    | none => exact (Except.error.inj stops).symm
    | some v => cases stops
  induction e with
  | var v => exact .inl (plain halts)
  | lit value => cases halts
  | slot name => exact .inl (Except.error.inj halts).symm
  | binOp op lhs rhs ihl ihr =>
      unfold runExpr at halts
      cases left : runExpr env lhs b with
      | error e =>
          rw [left] at halts
          cases halts
          rcases ihl left with err | ⟨past, comes⟩
          · exact .inl err
          · exact .inr ⟨past, .left rhs comes⟩
      | ok l =>
          rw [left] at halts
          have yieldsLeft := (yields_iff lhs l).mpr left
          cases right : runExpr env rhs b with
          | error e =>
              rw [right] at halts
              cases halts
              rcases ihr right with err | ⟨past, comes⟩
              · exact .inl err
              · exact .inr ⟨past, .right yieldsLeft comes⟩
          | ok r =>
              rw [right] at halts
              rcases runBinop_halts env halts with err | ⟨past, rfl, rfl, rfl⟩
              · exact .inl err
              · exact .inr ⟨past, .here yieldsLeft ((yields_iff rhs _).mpr right)⟩
  | unaryOp op arg ih =>
      unfold runExpr at halts
      cases operand : runExpr env arg b with
      | error e =>
          rw [operand] at halts
          cases halts
          rcases ih operand with err | ⟨past, comes⟩
          · exact .inl err
          · exact .inr ⟨past, .arg comes⟩
      | ok v =>
          rw [operand] at halts
          exact .inl (plain halts)

theorem runExpr_comesToOverflow {e : Expr} (comes : ComesToOverflow env b e) :
    runExpr env e b = .error .divOverflow := by
  induction comes with
  | here left right =>
      rw [runExpr, (yields_iff _ _).mp left, (yields_iff _ _).mp right]
      rfl
  | left rhs _ ih =>
      rw [runExpr, ih]
      rfl
  | right left _ ih =>
      rw [runExpr, (yields_iff _ _).mp left, ih]
      rfl
  | arg _ ih =>
      rw [runExpr, ih]
      rfl

end

/-- An evaluation returns a value or an error, unless it comes to a division of the least
integer by -1. -/
theorem runExpr_returns_iff (env : Env) (e : Expr) (b : Bindings) :
    Returns (runExpr env e b) ↔ ¬ ComesToOverflow env b e := by
  constructor
  · intro returns comes
    exact returns.2 (runExpr_comesToOverflow comes)
  · intro none_
    constructor
    · intro stops
      rcases runExpr_halts stops with err | ⟨past, _⟩
      · cases err
      · cases past
    · intro stops
      rcases runExpr_halts stops with err | ⟨_, comes⟩
      · cases err
      · exact none_ comes

/-- `(/ ?x -1)`, which the parser takes, panics where `?x` is the least integer. -/
theorem runExpr_divides_least :
    ¬ ∀ (parser : ParserEnv) (env : Env) (items : List EdnValue) (e : Expr) (b : Bindings),
      parseExpr parser items = .ok e → Returns (runExpr env e b) := by
  intro returns
  let parser : ParserEnv := ⟨fun _ => .error "", fun _ => .ok ()⟩
  let env : Env := ⟨fun _ => none, fun _ => 0, fun _ _ => false, fun _ => none⟩
  have reads : parseExpr parser [.symbol "/", .var (.named "x"), .integer (-1)] =
      .ok (.binOp .div (.var (.named "x")) (.lit (.integer (-1)))) := rfl
  exact (returns parser env _ _ [(.var (.named "x"), .integer Int64.minValue)] reads).2 rfl

end Minigraf
