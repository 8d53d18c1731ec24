import Minigraf.Query.Executor
import Minigraf.Query.Substitution

/-!
What the rows of a planned list of clauses mean. A row solves the list if a fact fits
each pattern, each expression has the value its output shows, and each negation keeps the
row; a per-fact pseudo-attribute reads the fact its entity stands on. Where every clause
comes behind what it needs, and no expression writes over a variable, the plan loop
computes the solutions.
-/

namespace Minigraf

def WhereClause.outputs : WhereClause → List Var
  | .expr _ binding => binding.toList
  | _ => []

/-- The variables a clause binds on a row. -/
def WhereClause.binds : WhereClause → List Var
  | .pattern p => (patternBoundVars p).filter (!·.isAnon)
  | clause => clause.outputs

/-- The variables that must be bound before a clause runs. -/
def WhereClause.needs : WhereClause → List Var
  | .expr e _ => exprVars e
  | clause => Plan.requiredVars clause

/-- The variables a negation reads, wildcards included. -/
def WhereClause.negates : WhereClause → List Var
  | .not body => clauseRefVars body
  | .notJoin joinVars _ => joinVars
  | _ => []

def outputs (clauses : List WhereClause) : List Var := clauses.flatMap WhereClause.outputs

theorem outputs_cons (clause : WhereClause) (clauses : List WhereClause) :
    outputs (clause :: clauses) = clause.outputs ++ outputs clauses :=
  List.flatMap_cons

/-- Each clause stands behind what it needs, and no output is bound before it. -/
def WellPlaced : List Var → List WhereClause → Prop
  | _, [] => True
  | bound, clause :: clauses =>
      clause.needs ⊆ bound ∧ (∀ y ∈ clause.outputs, y ∉ bound) ∧ WellPlaced (bound ++ clause.binds) clauses

/-- An operator or predicate applied to arguments, as the parser makes all of them. -/
def Expr.isCall : Expr → Bool
  | .binOp _ _ _ => true
  | .unaryOp _ _ => true
  | _ => false

/-- What the planner takes for granted: expressions are calls, and no output is a wildcard
of a pattern or a negation. -/
structure Tame (bound : List Var) (clauses : List WhereClause) : Prop where
  call : ∀ expr binding, .expr expr binding ∈ clauses → expr.isCall = true
  pattern : ∀ n, .anon n ∈ bound ++ outputs clauses → ∀ p, .pattern p ∈ clauses → ¬ p.Mentions (.anon n)
  negation : ∀ n, .anon n ∈ bound ++ outputs clauses → ∀ clause ∈ clauses, .anon n ∉ clause.negates

theorem outputs_subset_binds (clause : WhereClause) : clause.outputs ⊆ clause.binds := by
  cases clause with
  | pattern p => exact List.nil_subset _
  | expr _ _ | not _ | notJoin _ _ | ruleInvocation _ _ | or _ | orJoin _ _ => exact List.Subset.refl _

theorem binds_eq_outputs {clause : WhereClause} (notPattern : ∀ p, clause ≠ .pattern p) :
    clause.binds = clause.outputs := by
  cases clause with
  | pattern p => exact absurd rfl (notPattern p)
  | expr _ _ | not _ | notJoin _ _ | ruleInvocation _ _ | or _ | orJoin _ _ => rfl

theorem mem_binds_pattern {p : Pattern} {v : Var} :
    v ∈ (WhereClause.pattern p).binds ↔ ∃ n, v = .named n ∧ p.Mentions v := by
  rw [WhereClause.binds, List.mem_filter, mem_patternBoundVars]
  cases v with
  | named n => simp [Var.isAnon]
  | anon n => simp [Var.isAnon]

theorem anon_of_binds {clause : WhereClause} {n : String} (mem : .anon n ∈ clause.binds) :
    .anon n ∈ clause.outputs := by
  cases clause with
  | pattern p =>
      obtain ⟨_, no, -⟩ := mem_binds_pattern.1 mem
      cases no
  | expr _ _ | not _ | notJoin _ _ | ruleInvocation _ _ | or _ | orJoin _ _ => exact mem

theorem Tame.tail {bound : List Var} {clause : WhereClause} {clauses : List WhereClause}
    (h : Tame bound (clause :: clauses)) : Tame (bound ++ clause.binds) clauses := by
  have anon : ∀ n, .anon n ∈ bound ++ clause.binds ++ outputs clauses →
      Var.anon n ∈ bound ++ outputs (clause :: clauses) := by
    intro n mem
    rw [outputs_cons]
    simp only [List.mem_append] at mem ⊢
    rcases mem with (mem | mem) | mem
    · exact .inl mem
    · exact .inr (.inl (anon_of_binds mem))
    · exact .inr (.inr mem)
  refine ⟨fun e out mem => h.call e out (List.mem_cons_of_mem _ mem), ?_, ?_⟩
  · exact fun n mem p hp => h.pattern n (anon n mem) p (List.mem_cons_of_mem _ hp)
  · exact fun n mem c hc => h.negation n (anon n mem) c (List.mem_cons_of_mem _ hc)

theorem Tame.wild {bound : List Var} {clause : WhereClause} {clauses : List WhereClause}
    (h : Tame bound (clause :: clauses)) (n : String) (old : .anon n ∈ bound) (p : Pattern)
    (here : clause = .pattern p) : ¬ p.Mentions (.anon n) :=
  h.pattern n (List.mem_append_left _ old) p (by rw [here]; exact List.mem_cons_self)

/-- An output of the rest is not bound yet. -/
theorem WellPlaced.fresh {bound : List Var} {clauses : List WhereClause} (h : WellPlaced bound clauses)
    {y : Var} (mem : y ∈ outputs clauses) : y ∉ bound := by
  induction clauses generalizing bound with
  | nil => cases mem
  | cons clause clauses ih =>
      rw [outputs_cons, List.mem_append] at mem
      rcases mem with here | later
      · exact h.2.1 y here
      · exact fun old => ih h.2.2 later (List.mem_append_left _ old)

/-! ## Paths of rows -/

namespace PatternMatcher

variable (m : PatternMatcher)

/-- A clause takes a row to another. -/
def Moves : WhereClause → Bindings → Bindings → Prop
  | .pattern p, b, b' => m.Steps p b b'
  | .expr expr binding, b, b' => applyExpr m.env expr binding b = some b'
  | .not body, b, b' => m.keepsNot body b = true ∧ b' = b
  | .notJoin joinVars clauses, b, b' => m.keepsNotJoin joinVars clauses b = true ∧ b' = b
  | _, b, b' => b' = b

def Path : List WhereClause → Bindings → Bindings → Prop
  | [], b, b' => SameLookups b b'
  | clause :: clauses, b, b' => ∃ b₁, m.Moves clause b b₁ ∧ Path clauses b₁ b'

theorem applyExpr_cases {env : Env} {expr : Expr} {binding : Option Var} {b b' : Bindings}
    (h : applyExpr env expr binding b = some b') :
    ∃ value, evalExpr env expr b = some value ∧
      ((binding = none ∧ isTruthy value = true ∧ b' = b) ∨
        ∃ y, binding = some y ∧ b' = (.var y, value) :: b) := by
  unfold applyExpr at h
  cases found : evalExpr env expr b with
  | none =>
      simp only [found] at h
      cases h
  | some value =>
      refine ⟨value, rfl, ?_⟩
      cases binding with
      | none =>
          simp only [found] at h
          split at h
          case isTrue truthy => exact .inl ⟨rfl, truthy, (Option.some.inj h).symm⟩
          case isFalse => cases h
      | some y =>
          simp only [found] at h
          exact .inr ⟨y, rfl, (Option.some.inj h).symm⟩

theorem agreeOn_of_sameLookups {b c : Bindings} (h : SameLookups b c) (vs : List Var) : AgreeOn vs b c :=
  fun v _ => h (.var v)

theorem SameLookups_cons {b c : Bindings} (h : SameLookups b c) (entry : Key × Value) :
    SameLookups (entry :: b) (entry :: c) := by
  intro key
  rw [List.lookup_cons, List.lookup_cons, h key]

variable {m}

theorem Moves.congr {clause : WhereClause} {b b' c : Bindings} (h : m.Moves clause b b')
    (same : SameLookups b c) : ∃ c', m.Moves clause c c' ∧ SameLookups b' c' := by
  cases clause with
  | pattern p => exact Steps.congr h same
  | expr expr binding =>
      obtain ⟨value, found, ⟨rfl, truthy, rfl⟩ | ⟨y, rfl, rfl⟩⟩ := applyExpr_cases h
      · rw [evalExpr_congr m.env (agreeOn_of_sameLookups same _)] at found
        exact ⟨c, by simp only [Moves, applyExpr, found, truthy, if_true], same⟩
      · rw [evalExpr_congr m.env (agreeOn_of_sameLookups same _)] at found
        exact ⟨(.var y, value) :: c, by simp only [Moves, applyExpr, found], SameLookups_cons same _⟩
  | not body =>
      obtain ⟨keeps, rfl⟩ := h
      exact ⟨c, ⟨by rw [← m.keepsNot_congr (agreeOn_of_sameLookups same _), keeps], rfl⟩, same⟩
  | notJoin joinVars clauses =>
      obtain ⟨keeps, rfl⟩ := h
      exact ⟨c, ⟨by rw [← m.keepsNotJoin_congr (agreeOn_of_sameLookups same _), keeps], rfl⟩, same⟩
  | ruleInvocation _ _ | or _ | orJoin _ _ =>
      cases h
      exact ⟨c, rfl, same⟩

theorem Path.congr {clauses : List WhereClause} {b b' c : Bindings} (h : m.Path clauses b b')
    (same : SameLookups b c) : m.Path clauses c b' := by
  induction clauses generalizing b c with
  | nil => exact fun key => (same key).symm.trans (h key)
  | cons clause clauses ih =>
      obtain ⟨b₁, move, rest⟩ := h
      obtain ⟨c₁, move', same₁⟩ := move.congr same
      exact ⟨c₁, move', ih rest same₁⟩

/-! ## The table of rows -/

/-- The rows bind the same variables, with keywords of the facts. -/
structure Table (m : PatternMatcher) (bound : List Var) (rows : List Bindings) : Prop where
  binds : ∀ b ∈ rows, ∀ v, (∃ x, b.lookup (.var v) = some x) ↔ v ∈ bound
  sourced : ∀ b ∈ rows, m.Sourced b

theorem arithmetic_ne_keyword {f : Int64 → Int64 → Option Int64} {g : Float → Float → Option Float}
    {l r : Value} {k : String} : arithmetic f g l r ≠ some (.keyword k) := by
  intro h
  unfold arithmetic at h
  split at h
  · obtain ⟨i, -, no⟩ := Option.map_eq_some_iff.1 h
    cases no
  · obtain ⟨pair, -, h⟩ := Option.bind_eq_some_iff.1 h
    obtain ⟨z, -, no⟩ := Option.bind_eq_some_iff.1 h
    cases no

theorem compareWith_ne_keyword {test : Ordering → Bool} {l r : Value} {k : String} :
    compareWith test l r ≠ some (.keyword k) := by
  intro h
  obtain ⟨o, -, no⟩ := Option.map_eq_some_iff.1 h
  cases no

theorem onStrings_ne_keyword {test : String → String → Bool} {l r : Value} {k : String} :
    onStrings test l r ≠ some (.keyword k) := by
  intro h
  unfold onStrings at h
  split at h
  · cases h
  · cases h

/-- A call never gives a keyword. -/
theorem evalExpr_ne_keyword {env : Env} {expr : Expr} (call : expr.isCall = true) {b : Bindings} {k : String} :
    evalExpr env expr b ≠ some (.keyword k) := by
  intro h
  cases expr with
  | var _ | lit _ | slot _ => cases call
  | binOp op lhs rhs =>
      obtain ⟨l, -, h⟩ := Option.bind_eq_some_iff.1 h
      obtain ⟨r, -, h⟩ := Option.bind_eq_some_iff.1 h
      cases op with
      | eq | neq => cases h
      | lt | gt | lte | gte => exact compareWith_ne_keyword h
      | add | sub | mul | div =>
          rw [evalBinop] at h
          exact arithmetic_ne_keyword h
      | _ => exact onStrings_ne_keyword h
  | unaryOp op arg =>
      obtain ⟨v, -, h⟩ := Option.bind_eq_some_iff.1 h
      cases op with
      | stringQ | integerQ | floatQ | booleanQ | nilQ => cases h
      | udf name =>
          obtain ⟨f, -, no⟩ := Option.map_eq_some_iff.1 h
          cases no

theorem lookup_cons_var {b : Bindings} {y v : Var} {value : Value} :
    ((Key.var y, value) :: b).lookup (.var v) = if v = y then some value else b.lookup (.var v) := by
  rw [List.lookup_cons]
  by_cases same : v = y
  · rw [same, beq_self_eq_true, if_pos rfl]
  · have other : Key.var v ≠ .var y := fun no => same (Key.var.inj no)
    rw [beq_false_of_ne other, if_neg same]

/-- A move binds what its clause binds. -/
theorem Moves.bound {clause : WhereClause} {b b' : Bindings} (h : m.Moves clause b b') (v : Var) :
    (∃ x, b'.lookup (.var v) = some x) ↔ (∃ x, b.lookup (.var v) = some x) ∨ v ∈ clause.binds := by
  cases clause with
  | pattern p => rw [Steps.bound h, mem_binds_pattern]
  | expr expr binding =>
      obtain ⟨value, -, ⟨rfl, -, rfl⟩ | ⟨y, rfl, rfl⟩⟩ := applyExpr_cases h
      · simp [WhereClause.binds, WhereClause.outputs]
      · rw [lookup_cons_var]
        simp only [WhereClause.binds, WhereClause.outputs, Option.toList_some, List.mem_singleton]
        split
        case isTrue same => simp [same]
        case isFalse other => simp [other]
  | not _ | notJoin _ _ =>
      rw [h.2]
      simp [WhereClause.binds, WhereClause.outputs]
  | ruleInvocation _ _ | or _ | orJoin _ _ =>
      cases h
      simp [WhereClause.binds, WhereClause.outputs]

theorem Moves.sourced {clause : WhereClause} {b b' : Bindings} (h : m.Moves clause b b') (src : m.Sourced b)
    (call : ∀ expr binding, clause = .expr expr binding → expr.isCall = true) : m.Sourced b' := by
  cases clause with
  | pattern p => exact Steps.sourced h src
  | expr expr binding =>
      obtain ⟨value, found, ⟨-, -, rfl⟩ | ⟨y, -, rfl⟩⟩ := applyExpr_cases h
      · exact src
      · refine ⟨fun v k bound => ?_, fun q id x bound => src.hidden q id x bound⟩
        rw [lookup_cons_var] at bound
        split at bound
        · cases bound
          exact absurd found (evalExpr_ne_keyword (call expr _ rfl))
        · exact src.keyword v k bound
  | not _ | notJoin _ _ =>
      rw [h.2]
      exact src
  | ruleInvocation _ _ | or _ | orJoin _ _ =>
      cases h
      exact src

theorem Table.start : m.Table [] [[]] where
  binds b hb v := by
    cases List.mem_singleton.1 hb
    simp
  sourced b hb := by
    cases List.mem_singleton.1 hb
    exact sourced_nil

theorem Table.uniform {bound : List Var} {rows : List Bindings} (h : m.Table bound rows)
    (apart : NamesApart m.env m.KeywordOf) {p : Pattern}
    (wild : ∀ n, .anon n ∈ bound → ¬ p.Mentions (.anon n)) : m.Uniform p rows where
  same b hb c hc v _ := (h.binds b hb v).trans (h.binds c hc v).symm
  named b hb n mentions := by
    cases found : b.lookup (.var (.anon n)) with
    | none => rfl
    | some x => exact absurd mentions (wild n ((h.binds b hb _).1 ⟨x, found⟩))
  apart _ b hb := (h.sourced b hb).attributeApart apart p

theorem Table.moves_of_mem {bound : List Var} {rows : List Bindings} (h : m.Table bound rows)
    (apart : NamesApart m.env m.KeywordOf) {clause : WhereClause}
    (wild : ∀ n, .anon n ∈ bound → ∀ p, clause = .pattern p → ¬ p.Mentions (.anon n)) {b' : Bindings}
    (mem : b' ∈ m.runClause rows clause) : ∃ b ∈ rows, m.Moves clause b b' := by
  cases clause with
  | pattern p =>
      simp only [runClause, matchWithHintSeeded] at mem
      split at mem
      case isTrue start =>
          rw [start]
          exact ⟨[], List.mem_singleton_self _, steps_nil.2 ⟨b', mem, fun _ => rfl⟩⟩
      case isFalse => exact (h.uniform apart fun n old => wild n old p rfl).steps_of_mem mem
  | expr expr binding => exact List.mem_filterMap.1 mem
  | not body =>
      rw [runClause, applyNotClause_filter, List.mem_filter] at mem
      exact ⟨b', mem.1, mem.2, rfl⟩
  | notJoin joinVars clauses =>
      rw [runClause, applyNotJoinClause_filter, List.mem_filter] at mem
      exact ⟨b', mem.1, mem.2, rfl⟩
  | ruleInvocation _ _ | or _ | orJoin _ _ => exact ⟨b', mem, rfl⟩

theorem Table.mem_of_moves {bound : List Var} {rows : List Bindings} (h : m.Table bound rows)
    (apart : NamesApart m.env m.KeywordOf) {clause : WhereClause}
    (wild : ∀ n, .anon n ∈ bound → ∀ p, clause = .pattern p → ¬ p.Mentions (.anon n)) {b b' : Bindings}
    (hb : b ∈ rows) (move : m.Moves clause b b') :
    ∃ b'' ∈ m.runClause rows clause, SameLookups b'' b' := by
  cases clause with
  | pattern p =>
      simp only [runClause, matchWithHintSeeded]
      split
      case isTrue start =>
          rw [start] at hb
          cases List.mem_singleton.1 hb
          exact steps_nil.1 move
      case isFalse => exact (h.uniform apart fun n old => wild n old p rfl).mem_of_steps hb move
  | expr expr binding => exact ⟨b', List.mem_filterMap.2 ⟨b, hb, move⟩, fun _ => rfl⟩
  | not body =>
      obtain ⟨keeps, rfl⟩ := move
      rw [runClause, applyNotClause_filter]
      exact ⟨b', List.mem_filter.2 ⟨hb, keeps⟩, fun _ => rfl⟩
  | notJoin joinVars clauses =>
      obtain ⟨keeps, rfl⟩ := move
      rw [runClause, applyNotJoinClause_filter]
      exact ⟨b', List.mem_filter.2 ⟨hb, keeps⟩, fun _ => rfl⟩
  | ruleInvocation _ _ | or _ | orJoin _ _ =>
      cases move
      exact ⟨_, hb, fun _ => rfl⟩

theorem Table.next {bound : List Var} {rows : List Bindings} (h : m.Table bound rows)
    (apart : NamesApart m.env m.KeywordOf) {clause : WhereClause} {clauses : List WhereClause}
    (settled : Tame bound (clause :: clauses)) :
    m.Table (bound ++ clause.binds) (m.runClause rows clause) where
  binds b' hb' v := by
    obtain ⟨b, hb, move⟩ := h.moves_of_mem apart settled.wild hb'
    rw [move.bound, h.binds b hb, List.mem_append]
  sourced b' hb' := by
    obtain ⟨b, hb, move⟩ := h.moves_of_mem apart settled.wild hb'
    exact move.sourced (h.sourced b hb) fun e out here =>
      settled.call e out (by rw [here]; exact List.mem_cons_self)

/-- The plan loop follows the paths from its rows. -/
theorem Table.path_of_mem {bound : List Var} {rows : List Bindings} (h : m.Table bound rows)
    (apart : NamesApart m.env m.KeywordOf) {clauses : List WhereClause} (settled : Tame bound clauses)
    {b' : Bindings} (mem : b' ∈ m.runClauses rows clauses) : ∃ b ∈ rows, m.Path clauses b b' := by
  induction clauses generalizing bound rows with
  | nil => exact ⟨b', mem, fun _ => rfl⟩
  | cons clause clauses ih =>
      obtain ⟨b₁, mem₁, path⟩ := ih (h.next apart settled) settled.tail mem
      obtain ⟨b, hb, move⟩ := h.moves_of_mem apart settled.wild mem₁
      exact ⟨b, hb, b₁, move, path⟩

theorem Table.mem_of_path {bound : List Var} {rows : List Bindings} (h : m.Table bound rows)
    (apart : NamesApart m.env m.KeywordOf) {clauses : List WhereClause} (settled : Tame bound clauses)
    {b b' : Bindings} (hb : b ∈ rows) (path : m.Path clauses b b') :
    ∃ b'' ∈ m.runClauses rows clauses, SameLookups b'' b' := by
  induction clauses generalizing bound rows b with
  | nil => exact ⟨b, hb, path⟩
  | cons clause clauses ih =>
      obtain ⟨b₁, move, rest⟩ := path
      obtain ⟨b₂, mem, same⟩ := h.mem_of_moves apart settled.wild hb move
      exact ih (h.next apart settled) settled.tail mem (rest.congr (SameLookups_symm same))

/-! ## Solutions -/

variable (m)

/-- A fact fits a pattern under an assignment: the variables have the values of the fact,
where the output of an expression need only be equal to them. -/
def Fits (outs : List Var) (σ : Bindings) (p : Pattern) (f : Fact) : Prop :=
  ∃ cand, m.matchFactAgainstPattern f p = some cand ∧ ∀ v y, cand.lookup (.var v) = some y →
    ∃ x, σ.lookup (.var v) = some x ∧ (x = y ∨ (v ∈ outs ∧ Meets m.env x y = true))

/-- An assignment satisfies a clause. -/
def Holds (outs : List Var) (σ : Bindings) : WhereClause → Prop
  | .pattern p => ∃ f ∈ m.facts, m.Fits outs σ p f
  | .expr e none => ∃ value, evalExpr m.env e σ = some value ∧ isTruthy value = true
  | .expr e (some y) => ∃ value, evalExpr m.env e σ = some value ∧ σ.lookup (.var y) = some value
  | .not body => m.keepsNot body σ = true
  | .notJoin joinVars clauses => m.keepsNotJoin joinVars clauses σ = true
  | _ => True

/-- The facts the entities of an assignment stand on. -/
abbrev Stand := EntityId → Option Fact

def Stand.after (stand : Stand) (p : Pattern) (f : Fact) : Stand :=
  match p.attr with
  | .real _ => fun id => if id = f.entity then some f else stand id
  | .pseudo _ => stand

/-- The entity of a pattern, where the variables bound so far tell. -/
def knownEntity (bound : List Var) (σ : Bindings) (component : EdnValue) : Option EntityId :=
  match component with
  | .var v => if v ∈ bound then m.resolvedEntity σ (.var v) else none
  | component => m.resolvedEntity σ component

/-- The fact a per-fact pseudo-attribute pattern is about. -/
def standing (stand : Stand) (bound : List Var) (σ : Bindings) (p : Pattern) : Option Fact :=
  match p.attr with
  | .pseudo .validAt => none
  | .pseudo _ => (m.knownEntity bound σ p.entity).bind stand
  | .real _ => none

/-- The value of a pattern is what its pseudo-attribute reads off the fact. -/
def ReadsOff (σ : Bindings) (p : Pattern) (f : Fact) : Prop :=
  ∀ q, p.attr = .pseudo q → m.matchComponent p.value (q.ofFact .null f) σ = some σ

/-- An assignment satisfies the clauses one after the other. -/
def Solves (outs : List Var) : Stand → List Var → List WhereClause → Bindings → Prop
  | _, _, [], _ => True
  | stand, bound, .pattern p :: clauses, σ =>
      match m.standing stand bound σ p with
      | some f => m.ReadsOff σ p f ∧ Solves outs stand (bound ++ (WhereClause.pattern p).binds) clauses σ
      | none => ∃ f ∈ m.facts, m.Fits outs σ p f ∧
          Solves outs (Stand.after stand p f) (bound ++ (WhereClause.pattern p).binds) clauses σ
  | stand, bound, clause :: clauses, σ =>
      m.Holds outs σ clause ∧ Solves outs stand (bound ++ clause.binds) clauses σ

/-! ## A row on its way to an assignment -/

/-- Of the values the facts offer for a variable, a join takes no two for equal that are
not the same, and each for equal to itself. -/
def OneForm (ps : List Pattern) : Prop :=
  ∀ v x y, m.Offered ps v x → m.Offered ps v y → (Meets m.env x y = true ↔ x = y)

/-- A row shows an assignment as far as the variables are bound. -/
structure Stage (ps : List Pattern) (outs : List Var) (stand : Stand) (bound : List Var) (σ b : Bindings) :
    Prop where
  binds : ∀ v, (∃ x, b.lookup (.var v) = some x) ↔ v ∈ bound
  agrees : AgreeOn bound b σ
  hidden : ∀ q id, q ≠ .validAt → b.lookup (.hidden q id) = (stand id).map fun f => q.ofFact .null f
  offered : ∀ v x, b.lookup (.var v) = some x → v ∈ outs ∨ (∃ i, x = .integer i) ∨ m.Offered ps v x

theorem hiddenKeys_lookup (f : Fact) {q : PseudoAttr} (perFact : q ≠ .validAt) (id : EntityId) :
    (hiddenKeys f).lookup (.hidden q id) = if id = f.entity then some (q.ofFact .null f) else none := by
  by_cases same : id = f.entity
  · rw [if_pos same, same]
    refine hiddenKeys_tidy f _ _ (List.mem_map.2 ⟨q, ?_, rfl⟩)
    cases q with
    | validAt => exact absurd rfl perFact
    | validFrom | validTo | txCount | txId => decide
  · rw [if_neg same]
    cases found : (hiddenKeys f).lookup (.hidden q id) with
    | none => rfl
    | some x =>
        obtain ⟨q', -, here⟩ := List.mem_map.1 (mem_of_lookup found)
        cases here
        exact absurd rfl same

theorem matchFact_hidden {f : Fact} {p : Pattern} {cand : Bindings}
    (h : m.matchFactAgainstPattern f p = some cand) (q : PseudoAttr) (id : EntityId) :
    cand.lookup (.hidden q id) = (leftBehind f p).lookup (.hidden q id) := by
  rw [matchFactAgainstPattern_eq] at h
  obtain ⟨b, fits, rfl⟩ := Option.map_eq_some_iff.1 h
  rw [List.lookup_append, m.matchComponents_hidden fits, List.lookup_nil, Option.or_none]

theorem ofFact_perFact {q : PseudoAttr} (perFact : q ≠ .validAt) (f : Fact) :
    ∃ i, q.ofFact .null f = .integer i := by
  cases q with
  | validAt => exact absurd rfl perFact
  | validFrom | validTo | txCount | txId => exact ⟨_, rfl⟩

theorem storedValue_validAt {p : Pattern} (hp : p.attr = .pseudo .validAt) (b : Bindings) :
    m.storedValue p b = none := by
  rw [storedValue, hp]

variable {m} {ps : List Pattern} {outs : List Var} {stand : Stand} {bound : List Var} {σ b : Bindings}

theorem Stage.start : m.Stage ps outs (fun _ => none) [] σ [] where
  binds v := by simp
  agrees v mem := by cases mem
  hidden q id _ := rfl
  offered v x no := by cases no

theorem Stage.unbound (h : m.Stage ps outs stand bound σ b) {v : Var} (free : v ∉ bound) :
    b.lookup (.var v) = none := by
  cases found : b.lookup (.var v) with
  | none => rfl
  | some x => exact absurd ((h.binds v).1 ⟨x, found⟩) free

theorem Stage.known (h : m.Stage ps outs stand bound σ b) (component : EdnValue) :
    m.resolvedEntity b component = m.knownEntity bound σ component := by
  cases component with
  | var v =>
      rw [knownEntity]
      split
      case isTrue mem => simp only [resolvedEntity, applyBindingToComponent, substituteWith, h.agrees v mem]
      case isFalse free =>
          simp only [resolvedEntity, applyBindingToComponent, substituteWith, h.unbound free]
  | keyword _ | underscore | symbol _ | string _ | integer _ | float _ | boolean _ | uuid _ | vector _ | list _ | map _
  | nil | bindSlot _ => rfl

/-- What the hidden keys of the row give is read off the fact the entity stands on. -/
theorem Stage.stored (h : m.Stage ps outs stand bound σ b) {p : Pattern} {q : PseudoAttr}
    (hp : p.attr = .pseudo q) (perFact : q ≠ .validAt) :
    m.storedValue p b = (m.standing stand bound σ p).map fun f => q.ofFact .null f := by
  have left : m.storedValue p b =
      (m.resolvedEntity b p.entity).bind fun id => b.lookup (.hidden q id) := by
    rw [storedValue, hp]
    cases q with
    | validAt => exact absurd rfl perFact
    | validFrom | validTo | txCount | txId => rfl
  have right : m.standing stand bound σ p = (m.knownEntity bound σ p.entity).bind stand := by
    rw [standing, hp]
    cases q with
    | validAt => exact absurd rfl perFact
    | validFrom | validTo | txCount | txId => rfl
  rw [left, right, h.known]
  cases m.knownEntity bound σ p.entity with
  | none => rfl
  | some id => exact h.hidden q id perFact

theorem Stage.standing_none (h : m.Stage ps outs stand bound σ b) {p : Pattern} :
    m.standing stand bound σ p = none ↔ m.storedValue p b = none := by
  cases hp : p.attr with
  | real edn => simp only [standing, hp, m.storedValue_real hp]
  | pseudo q =>
      by_cases perFact : q = .validAt
      · cases perFact
        simp only [standing, hp, m.storedValue_validAt hp]
      · rw [h.stored hp perFact, Option.map_eq_none_iff]

theorem standing_some {p : Pattern} {f : Fact} (h : m.standing stand bound σ p = some f) :
    ∃ q, p.attr = .pseudo q ∧ q ≠ .validAt := by
  unfold standing at h
  split at h
  case h_1 => cases h
  case h_2 q perFact hq => exact ⟨q, hq, fun no => perFact (by rw [no])⟩
  case h_3 => cases h

/-- The row after a fact has taken it over a pattern. -/
theorem Stage.joined (h : m.Stage ps outs stand bound σ b) {p : Pattern} (hp : p ∈ ps) {f : Fact}
    (mem : f ∈ m.facts) {b₁ cand : Bindings} (matched : m.matchFactAgainstPattern f p = some cand)
    (ext : Extends b cand b₁) (agrees : AgreeOn (bound ++ (WhereClause.pattern p).binds) b₁ σ) :
    m.Stage ps outs (Stand.after stand p f) (bound ++ (WhereClause.pattern p).binds) σ b₁ where
  binds v := by
    rw [ext.var, List.mem_append, mem_binds_pattern, ← m.matchFact_bound matched v, ← h.binds v]
    cases b.lookup (.var v) with
    | none => simp
    | some x => simp
  agrees := agrees
  hidden q id perFact := by
    rw [ext.hidden, m.matchFact_hidden matched, h.hidden q id perFact, leftBehind, Stand.after]
    cases p.attr with
    | real edn =>
        simp only [hiddenKeys_lookup f perFact]
        split
        · rfl
        · rfl
    | pseudo q' => simp only [List.lookup_nil, Option.none_or]
  offered v x found := by
    rw [ext.var] at found
    rcases Option.or_eq_some_iff.1 found with old | ⟨-, new⟩
    · exact h.offered v x old
    · exact .inr (.inr ⟨p, hp, f, mem, cand, matched, new⟩)

/-- The row after a value read off the hidden keys. -/
theorem Stage.read (h : m.Stage ps outs stand bound σ b) {p : Pattern} {q : PseudoAttr} {f : Fact}
    (hp : p.attr = .pseudo q) (known : m.standing stand bound σ p = some f) {b₁ : Bindings}
    (made : m.matchComponent p.value (q.ofFact .null f) b = some b₁)
    (agrees : AgreeOn (bound ++ (WhereClause.pattern p).binds) b₁ σ) :
    m.Stage ps outs stand (bound ++ (WhereClause.pattern p).binds) σ b₁ := by
  obtain ⟨q', hq', perFact⟩ := standing_some known
  rw [hp] at hq'
  cases hq'
  have stored : m.storedValue p b = some (q.ofFact .null f) := by
    rw [h.stored hp perFact, known, Option.map_some]
  have step : m.Steps p b b₁ := by
    rw [Steps, stored]
    exact made
  have whole : m.matchComponents [(p.value, q.ofFact .null f)] b = some b₁ := by
    simp only [matchComponents, made, Option.bind_some]
  refine ⟨fun v => ?_, agrees, fun q' id perFact' => ?_, fun v x found => ?_⟩
  · rw [Steps.bound step, List.mem_append, mem_binds_pattern, h.binds]
  · rw [m.matchComponents_hidden whole, h.hidden q' id perFact']
  · rcases m.matchComponents_value whole found with old | mem
    · exact h.offered v x old
    · obtain ⟨i, hi⟩ := ofFact_perFact perFact f
      have same := congrArg Prod.snd (List.mem_singleton.1 mem)
      exact .inr (.inl ⟨i, same.trans hi⟩)

/-! ## Paths and solutions -/

theorem Moves.keeps {clause : WhereClause} {b₁ : Bindings} (h : m.Moves clause b b₁)
    (binds : ∀ v, (∃ x, b.lookup (.var v) = some x) ↔ v ∈ bound) (fresh : ∀ y ∈ clause.outputs, y ∉ bound)
    {v : Var} {x : Value} (found : b.lookup (.var v) = some x) : b₁.lookup (.var v) = some x := by
  cases clause with
  | pattern p => exact Steps.keeps h found
  | expr e binding =>
      obtain ⟨value, -, ⟨-, -, rfl⟩ | ⟨y, rfl, rfl⟩⟩ := applyExpr_cases h
      · exact found
      · have other : v ≠ y := by
          rintro rfl
          exact fresh v (List.mem_singleton_self _) ((binds v).1 ⟨x, found⟩)
        rw [lookup_cons_var, if_neg other, found]
  | not _ | notJoin _ _ =>
      rw [h.2]
      exact found
  | ruleInvocation _ _ | or _ | orJoin _ _ =>
      cases h
      exact found

theorem Moves.binds {clause : WhereClause} {b₁ : Bindings} (h : m.Moves clause b b₁)
    (old : ∀ v, (∃ x, b.lookup (.var v) = some x) ↔ v ∈ bound) (v : Var) :
    (∃ x, b₁.lookup (.var v) = some x) ↔ v ∈ bound ++ clause.binds := by
  rw [h.bound, old, List.mem_append]

theorem Path.keeps {clauses : List WhereClause} {b' : Bindings} (h : m.Path clauses b b')
    (binds : ∀ v, (∃ x, b.lookup (.var v) = some x) ↔ v ∈ bound) (well : WellPlaced bound clauses)
    {v : Var} {x : Value} (found : b.lookup (.var v) = some x) : b'.lookup (.var v) = some x := by
  induction clauses generalizing b bound with
  | nil => rw [← h, found]
  | cons clause clauses ih =>
      obtain ⟨b₁, move, rest⟩ := h
      exact ih rest (move.binds binds) well.2.2 (move.keeps binds well.2.1 found)

theorem Path.agrees {clauses : List WhereClause} {b' : Bindings} (h : m.Path clauses b b')
    (binds : ∀ v, (∃ x, b.lookup (.var v) = some x) ↔ v ∈ bound) (well : WellPlaced bound clauses) :
    AgreeOn bound b b' := by
  intro v mem
  obtain ⟨x, found⟩ := (binds v).2 mem
  rw [found, h.keeps binds well found]

theorem Path.binds {clauses : List WhereClause} {b' : Bindings} (h : m.Path clauses b b')
    (binds : ∀ v, (∃ x, b.lookup (.var v) = some x) ↔ v ∈ bound) (v : Var) :
    (∃ x, b'.lookup (.var v) = some x) ↔ v ∈ bound ++ clauses.flatMap WhereClause.binds := by
  induction clauses generalizing b bound with
  | nil =>
      rw [← h, binds]
      simp
  | cons clause clauses ih =>
      obtain ⟨b₁, move, rest⟩ := h
      rw [ih rest (move.binds binds), List.flatMap_cons, List.append_assoc]

/-- A negation reads the same of the row and of the assignment. -/
theorem Stage.negates (h : m.Stage ps outs stand bound σ b) {clause : WhereClause}
    {clauses : List WhereClause} (settled : Tame bound (clause :: clauses))
    (needs : Plan.requiredVars clause ⊆ bound)
    (shows : ∀ v, (∃ x, σ.lookup (.var v) = some x) ↔ v ∈ bound ++ (clause :: clauses).flatMap WhereClause.binds) :
    AgreeOn clause.negates b σ := by
  intro v mem
  cases v with
  | named n =>
      refine h.agrees _ (needs ?_)
      cases clause with
      | not body => exact List.mem_filter.2 ⟨mem, rfl⟩
      | notJoin joinVars body => exact List.mem_filter.2 ⟨mem, rfl⟩
      | pattern _ | expr _ _ | ruleInvocation _ _ | or _ | orJoin _ _ => cases mem
  | anon n =>
      have wild : ∀ old : Var.anon n ∈ bound ++ outputs (clause :: clauses), False := fun old =>
        settled.negation n old clause List.mem_cons_self mem
      have free : Var.anon n ∉ bound := fun old => wild (List.mem_append_left _ old)
      have hidden : σ.lookup (.var (.anon n)) = none := by
        cases found : σ.lookup (.var (.anon n)) with
        | none => rfl
        | some x =>
            rcases List.mem_append.1 ((shows _).1 ⟨x, found⟩) with old | later
            · exact absurd old free
            · obtain ⟨c, hc, made⟩ := List.mem_flatMap.1 later
              refine (wild (List.mem_append_right _ ?_)).elim
              exact List.mem_flatMap.2 ⟨c, hc, anon_of_binds made⟩
      rw [h.unbound free, hidden]

/-- What a move of a clause that is no pattern says of the assignment, and back. -/
theorem Stage.moved (h : m.Stage ps outs stand bound σ b) {clause : WhereClause} {b₁ : Bindings}
    (move : m.Moves clause b b₁) (notPattern : ∀ p, clause ≠ .pattern p) (outsOf : clause.outputs ⊆ outs)
    (agrees : AgreeOn (bound ++ clause.binds) b₁ σ) :
    m.Stage ps outs stand (bound ++ clause.binds) σ b₁ := by
  refine ⟨move.binds h.binds, agrees, fun q id perFact => ?_, fun v x found => ?_⟩
  · rw [← h.hidden q id perFact]
    cases clause with
    | pattern p => exact absurd rfl (notPattern p)
    | expr e binding =>
        obtain ⟨value, -, ⟨-, -, rfl⟩ | ⟨y, rfl, rfl⟩⟩ := applyExpr_cases move
        · rfl
        · rfl
    | not _ | notJoin _ _ => rw [move.2]
    | ruleInvocation _ _ | or _ | orJoin _ _ =>
        cases move
        rfl
  · cases clause with
    | pattern p => exact absurd rfl (notPattern p)
    | expr e binding =>
        obtain ⟨value, -, ⟨-, -, rfl⟩ | ⟨y, rfl, rfl⟩⟩ := applyExpr_cases move
        · exact h.offered v x found
        · rw [lookup_cons_var] at found
          split at found
          case isTrue same =>
              rw [same]
              exact .inl (outsOf (List.mem_singleton_self _))
          case isFalse => exact h.offered v x found
    | not _ | notJoin _ _ =>
        rw [move.2] at found
        exact h.offered v x found
    | ruleInvocation _ _ | or _ | orJoin _ _ =>
        cases move
        exact h.offered v x found

/-- What a clause that is no pattern asks of the assignment is what it asks of the row. -/
theorem Stage.holds_iff (h : m.Stage ps outs stand bound σ b) {clause : WhereClause}
    {clauses : List WhereClause} (notPattern : ∀ p, clause ≠ .pattern p)
    (settled : Tame bound (clause :: clauses)) (needs : clause.needs ⊆ bound)
    (shows : ∀ v, (∃ x, σ.lookup (.var v) = some x) ↔ v ∈ bound ++ (clause :: clauses).flatMap WhereClause.binds) :
    m.Holds outs σ clause ↔ ∃ b₁, m.Moves clause b b₁ ∧ AgreeOn clause.outputs b₁ σ := by
  cases clause with
  | pattern p => exact absurd rfl (notPattern p)
  | expr e binding =>
      have same : evalExpr m.env e b = evalExpr m.env e σ := evalExpr_congr m.env (h.agrees.mono needs)
      cases binding with
      | none =>
          simp only [Holds, Moves]
          constructor
          · rintro ⟨value, found, truthy⟩
            exact ⟨b, by simp only [applyExpr, same, found, truthy, if_true], fun _ no => nomatch no⟩
          · rintro ⟨b₁, made, -⟩
            obtain ⟨value, found, ⟨-, truthy, -⟩ | ⟨y, no, -⟩⟩ := applyExpr_cases made
            · exact ⟨value, by rw [← same, found], truthy⟩
            · cases no
      | some y =>
          simp only [Holds, Moves]
          constructor
          · rintro ⟨value, found, shown⟩
            refine ⟨(.var y, value) :: b, by simp only [applyExpr, same, found], fun v mem => ?_⟩
            cases List.mem_singleton.1 mem
            rw [lookup_cons_var, if_pos rfl, shown]
          · rintro ⟨b₁, made, agrees⟩
            obtain ⟨value, found, ⟨no, -, -⟩ | ⟨y', here, rfl⟩⟩ := applyExpr_cases made
            · cases no
            · cases here
              refine ⟨value, by rw [← same, found], ?_⟩
              rw [← agrees y (List.mem_singleton_self _), lookup_cons_var, if_pos rfl]
  | not body =>
      have same := m.keepsNot_congr (h.negates settled needs shows)
      simp only [Holds, Moves, ← same]
      exact ⟨fun keeps => ⟨b, ⟨keeps, rfl⟩, fun _ no => nomatch no⟩, fun ⟨_, move, _⟩ => move.1⟩
  | notJoin joinVars body =>
      have same : m.keepsNotJoin joinVars body b = m.keepsNotJoin joinVars body σ :=
        m.keepsNotJoin_congr (h.negates settled needs shows)
      simp only [Holds, Moves, ← same]
      exact ⟨fun keeps => ⟨b, ⟨keeps, rfl⟩, fun _ no => nomatch no⟩, fun ⟨_, move, _⟩ => move.1⟩
  | ruleInvocation _ _ | or _ | orJoin _ _ =>
      simp only [Holds, Moves, true_iff]
      exact ⟨b, rfl, fun _ no => nomatch no⟩

/-- A component that a row took is taken by every row that shows the same. -/
theorem matchComponent_taken {component : EdnValue} {x : Value} {b₁ : Bindings} (self : x.eq x = true)
    (made : m.matchComponent component x b = some b₁)
    (agrees : ∀ n, component = .var (.named n) → b₁.lookup (.var (.named n)) = σ.lookup (.var (.named n))) :
    m.matchComponent component x σ = some σ := by
  rcases m.matchComponent_cases made with ⟨n, rfl, ⟨y, found, same, rfl⟩ | ⟨-, rfl⟩⟩ | ⟨notNamed, rfl⟩
  · have shown := agrees n rfl
    rw [found] at shown
    simp only [matchComponent, ← shown, same, if_true]
  · have shown := agrees n rfl
    rw [lookup_cons_var, if_pos rfl] at shown
    simp only [matchComponent, ← shown, self, if_true]
  · cases component with
    | var v =>
        cases v with
        | named n => exact absurd rfl (notNamed n)
        | anon n => rfl
    | underscore => rfl
    | keyword _ | symbol _ | string _ | integer _ | float _ | boolean _ | uuid _ | vector _ | list _ | map _ | nil
    | bindSlot _ =>
        simp only [matchComponent] at made ⊢
        split at made
        case isTrue fits => rw [if_pos fits]
        case isFalse => cases made

theorem eq_integer {y : Value} {i : Int64} (h : y.eq (.integer i) = true) : y = .integer i := by
  rcases Value.eq_iff.1 h with ⟨f, g, -, no, -⟩ | ⟨same, -⟩
  · cases no
  · exact same

/-- And a row takes the component if the assignment shows its value. -/
theorem Stage.takes (h : m.Stage ps outs stand bound σ b) {component : EdnValue} {i : Int64}
    (made : m.matchComponent component (.integer i) σ = some σ) :
    ∃ b₁, m.matchComponent component (.integer i) b = some b₁ ∧ AgreeOn bound b₁ σ ∧
      ∀ n, component = .var (.named n) → b₁.lookup (.var (.named n)) = σ.lookup (.var (.named n)) := by
  rcases m.matchComponent_cases made with ⟨n, rfl, ⟨y, found, same, -⟩ | ⟨-, no⟩⟩ | ⟨notNamed, -⟩
  · cases eq_integer same
    by_cases mem : Var.named n ∈ bound
    · refine ⟨b, ?_, h.agrees, fun n' here => ?_⟩
      · simp only [matchComponent, h.agrees _ mem, found, same, if_true]
      · cases here
        exact h.agrees _ mem
    · have free := h.unbound mem
      refine ⟨(.var (.named n), .integer i) :: b, ?_, fun v hv => ?_, fun n' here => ?_⟩
      · simp only [matchComponent, free]
      · have other : v ≠ .named n := by
          rintro rfl
          exact mem hv
        rw [lookup_cons_var, if_neg other, h.agrees v hv]
      · cases here
        rw [lookup_cons_var, if_pos rfl, found]
  · exact absurd no.symm (List.cons_ne_self _ _)
  · refine ⟨b, ?_, h.agrees, fun n here => absurd here (notNamed n)⟩
    cases component with
    | var v =>
        cases v with
        | named n => exact absurd rfl (notNamed n)
        | anon n => rfl
    | underscore => rfl
    | keyword _ | symbol _ | string _ | integer _ | float _ | boolean _ | uuid _ | vector _ | list _ | map _ | nil
    | bindSlot _ =>
        simp only [matchComponent] at made ⊢
        split at made
        case isTrue fits => rw [if_pos fits]
        case isFalse => cases made

theorem eq_of_meets_left {i : Int64} {y : Value} (met : Meets m.env (.integer i) y = true) :
    y = .integer i :=
  eq_integer (eq_of_meets_integer (Meets.symm m.env met))

/-- A fact that took the row over a pattern fits it under the assignment. -/
theorem Stage.fits (h : m.Stage ps outs stand bound σ b) (one : m.OneForm ps) {p : Pattern} (hp : p ∈ ps)
    {f : Fact} (mem : f ∈ m.facts) {b₁ cand : Bindings} (matched : m.matchFactAgainstPattern f p = some cand)
    (agrees : Agrees m.env b cand) (ext : Extends b cand b₁)
    (shown : AgreeOn (bound ++ (WhereClause.pattern p).binds) b₁ σ) : m.Fits outs σ p f := by
  refine ⟨cand, matched, fun v y found => ?_⟩
  have bound' : v ∈ bound ++ (WhereClause.pattern p).binds :=
    List.mem_append_right _ (mem_binds_pattern.2 ((m.matchFact_bound matched v).1 ⟨y, found⟩))
  have here := shown v bound'
  rw [ext.var, found] at here
  cases old : b.lookup (.var v) with
  | none =>
      rw [old, Option.none_or] at here
      exact ⟨y, here.symm, .inl rfl⟩
  | some x =>
      rw [old, Option.some_or] at here
      refine ⟨x, here.symm, ?_⟩
      have met := agrees v x y old found
      rcases h.offered v x old with out | ⟨i, rfl⟩ | offered
      · exact .inr ⟨out, met⟩
      · exact .inl (eq_of_meets_left met).symm
      · exact .inl ((one v x y offered ⟨p, hp, f, mem, cand, matched, found⟩).1 met)

/-- A fact that fits a pattern under the assignment takes the row over it. -/
theorem Stage.joins (h : m.Stage ps outs stand bound σ b) (one : m.OneForm ps) {p : Pattern} (hp : p ∈ ps)
    {f : Fact} (mem : f ∈ m.facts) {clauses : List WhereClause}
    (well : WellPlaced (bound ++ (WhereClause.pattern p).binds) clauses)
    (cover : ∀ v ∈ outs, v ∈ bound ∨ v ∈ outputs clauses) (fits : m.Fits outs σ p f) :
    ∃ cand b₁, m.matchFactAgainstPattern f p = some cand ∧ Agrees m.env b cand ∧ Extends b cand b₁ ∧
      AgreeOn (bound ++ (WhereClause.pattern p).binds) b₁ σ := by
  obtain ⟨cand, matched, values⟩ := fits
  refine ⟨cand, _, matched, ?_, extends_merge b cand, ?_⟩
  · intro v x y old found
    obtain ⟨x', shown, same⟩ := values v y found
    rw [← h.agrees v ((h.binds v).1 ⟨x, old⟩), old] at shown
    cases shown
    rcases same with rfl | ⟨-, met⟩
    · have offered : m.Offered ps v x := ⟨p, hp, f, mem, cand, matched, found⟩
      exact (one v x x offered offered).2 rfl
    · exact met
  · intro v hv
    rw [(extends_merge b cand).var]
    by_cases old : v ∈ bound
    · obtain ⟨x, found⟩ := (h.binds v).2 old
      rw [found, Option.some_or, ← h.agrees v old, found]
    · have new := (List.mem_append.1 hv).resolve_left old
      obtain ⟨y, found⟩ := (m.matchFact_bound matched v).2 (mem_binds_pattern.1 new)
      obtain ⟨x, shown, same⟩ := values v y found
      have notOut : v ∉ outs := by
        intro out
        rcases cover v out with early | late
        · exact old early
        · exact well.fresh late hv
      rw [h.unbound old, Option.none_or, found, shown]
      exact congrArg some (same.resolve_right fun no => notOut no.1).symm

theorem solves_cons {clause : WhereClause} {clauses : List WhereClause} (notPattern : ∀ p, clause ≠ .pattern p) :
    m.Solves outs stand bound (clause :: clauses) σ ↔
      m.Holds outs σ clause ∧ m.Solves outs stand (bound ++ clause.binds) clauses σ := by
  cases clause with
  | pattern p => exact absurd rfl (notPattern p)
  | expr _ _ | not _ | notJoin _ _ | ruleInvocation _ _ | or _ | orJoin _ _ => rfl

/-- The end of a path solves its clauses. -/
theorem Stage.solves (one : m.OneForm ps) {clauses : List WhereClause} {b' : Bindings}
    (h : m.Stage ps outs stand bound σ b) (well : WellPlaced bound clauses) (tame : Tame bound clauses)
    (inPs : ∀ p, .pattern p ∈ clauses → p ∈ ps) (outsOf : outputs clauses ⊆ outs)
    (path : m.Path clauses b b') (final : ∀ v, b'.lookup (.var v) = σ.lookup (.var v)) :
    m.Solves outs stand bound clauses σ := by
  induction clauses generalizing b bound stand with
  | nil => trivial
  | cons clause clauses ih =>
      have shows : ∀ v, (∃ x, σ.lookup (.var v) = some x) ↔
          v ∈ bound ++ (clause :: clauses).flatMap WhereClause.binds := by
        intro v
        rw [← final v, path.binds h.binds]
      obtain ⟨b₁, move, rest⟩ := path
      have agrees : AgreeOn (bound ++ clause.binds) b₁ σ := by
        intro v mem
        rw [rest.agrees (move.binds h.binds) well.2.2 v mem, final]
      have inRest : ∀ p, .pattern p ∈ clauses → p ∈ ps := fun p mem => inPs p (List.mem_cons_of_mem _ mem)
      have outsRest : outputs clauses ⊆ outs := by
        rw [outputs_cons] at outsOf
        exact List.Subset.trans (List.subset_append_right _ _) outsOf
      by_cases notPattern : ∀ p, clause ≠ .pattern p
      · have outsHere : clause.outputs ⊆ outs := by
          rw [outputs_cons] at outsOf
          exact List.Subset.trans (List.subset_append_left _ _) outsOf
        have out := agrees.mono (List.Subset.trans (outputs_subset_binds clause) (List.subset_append_right _ _))
        refine (solves_cons notPattern).2 ⟨(h.holds_iff notPattern tame well.1 shows).2 ⟨b₁, move, out⟩, ?_⟩
        exact ih (h.moved move notPattern outsHere agrees) well.2.2 tame.tail inRest outsRest rest
      · obtain ⟨p, rfl⟩ := not_forall_not.1 notPattern
        have hp := inPs p List.mem_cons_self
        rw [Solves]
        change m.Steps p b b₁ at move
        unfold Steps at move
        cases known : m.standing stand bound σ p with
        | none =>
            simp only [h.standing_none.1 known] at move
            obtain ⟨f, mem, cand, matched, met, ext⟩ := move
            exact ⟨f, mem, h.fits one hp mem matched met ext agrees,
              ih (h.joined hp mem matched ext agrees) well.2.2 tame.tail inRest outsRest rest⟩
        | some f =>
            obtain ⟨q, hq, perFact⟩ := standing_some known
            have stored : m.storedValue p b = some (q.ofFact .null f) := by
              rw [h.stored hq perFact, known, Option.map_some]
            simp only [stored] at move
            refine ⟨fun q' hq' => ?_, ih (h.read hq known move agrees) well.2.2 tame.tail inRest outsRest rest⟩
            rw [hq] at hq'
            cases hq'
            obtain ⟨i, hi⟩ := ofFact_perFact perFact f
            refine matchComponent_taken (by rw [hi]; exact decide_eq_true rfl) move fun n here => ?_
            exact agrees _ (List.mem_append_right _ (mem_binds_pattern.2 ⟨n, rfl, .inr (.inr here)⟩))

/-- And from a row on its way to a solution there is a path to its end. -/
theorem Stage.path (one : m.OneForm ps) {clauses : List WhereClause}
    (h : m.Stage ps outs stand bound σ b) (well : WellPlaced bound clauses) (tame : Tame bound clauses)
    (inPs : ∀ p, .pattern p ∈ clauses → p ∈ ps) (outsOf : outputs clauses ⊆ outs)
    (cover : ∀ v ∈ outs, v ∈ bound ∨ v ∈ outputs clauses)
    (shows : ∀ v, (∃ x, σ.lookup (.var v) = some x) ↔ v ∈ bound ++ clauses.flatMap WhereClause.binds)
    (solves : m.Solves outs stand bound clauses σ) :
    ∃ b', m.Path clauses b b' ∧ ∀ v, b'.lookup (.var v) = σ.lookup (.var v) := by
  induction clauses generalizing b bound stand with
  | nil =>
      refine ⟨b, fun _ => rfl, fun v => ?_⟩
      simp only [List.flatMap_nil, List.append_nil] at shows
      by_cases mem : v ∈ bound
      · exact h.agrees v mem
      · rw [h.unbound mem]
        cases found : σ.lookup (.var v) with
        | none => rfl
        | some x => exact absurd ((shows v).1 ⟨x, found⟩) mem
  | cons clause clauses ih =>
      have inRest : ∀ p, .pattern p ∈ clauses → p ∈ ps := fun p mem => inPs p (List.mem_cons_of_mem _ mem)
      have outsRest : outputs clauses ⊆ outs := by
        rw [outputs_cons] at outsOf
        exact List.Subset.trans (List.subset_append_right _ _) outsOf
      have coverRest : ∀ v ∈ outs, v ∈ bound ++ clause.binds ∨ v ∈ outputs clauses := by
        intro v out
        have early := cover v out
        rw [outputs_cons] at early
        simp only [List.mem_append] at early ⊢
        rcases early with old | here | later
        · exact .inl (.inl old)
        · exact .inl (.inr (outputs_subset_binds _ here))
        · exact .inr later
      have showsRest : ∀ v, (∃ x, σ.lookup (.var v) = some x) ↔
          v ∈ bound ++ clause.binds ++ clauses.flatMap WhereClause.binds := by
        intro v
        rw [shows v, List.flatMap_cons, List.append_assoc]
      have onward : ∀ {stand' : Stand} {b₁ : Bindings}, m.Moves clause b b₁ →
          m.Stage ps outs stand' (bound ++ clause.binds) σ b₁ →
          m.Solves outs stand' (bound ++ clause.binds) clauses σ →
          ∃ b', m.Path (clause :: clauses) b b' ∧ ∀ v, b'.lookup (.var v) = σ.lookup (.var v) := by
        intro stand' b₁ move stage rest
        obtain ⟨b', path, final⟩ := ih stage well.2.2 tame.tail inRest outsRest coverRest showsRest rest
        exact ⟨b', ⟨b₁, move, path⟩, final⟩
      by_cases notPattern : ∀ p, clause ≠ .pattern p
      · obtain ⟨holds, rest⟩ := (solves_cons notPattern).1 solves
        have outsHere : clause.outputs ⊆ outs := by
          rw [outputs_cons] at outsOf
          exact List.Subset.trans (List.subset_append_left _ _) outsOf
        obtain ⟨b₁, move, out⟩ := (h.holds_iff notPattern tame well.1 shows).1 holds
        have agrees : AgreeOn (bound ++ clause.binds) b₁ σ := by
          intro v mem
          rcases List.mem_append.1 mem with old | new
          · obtain ⟨x, found⟩ := (h.binds v).2 old
            rw [move.keeps h.binds well.2.1 found, ← h.agrees v old, found]
          · exact out v (binds_eq_outputs notPattern ▸ new)
        exact onward move (h.moved move notPattern outsHere agrees) rest
      · obtain ⟨p, rfl⟩ := not_forall_not.1 notPattern
        have hp := inPs p List.mem_cons_self
        rw [Solves] at solves
        cases known : m.standing stand bound σ p with
        | none =>
            simp only [known] at solves
            obtain ⟨f, mem, fits, rest⟩ := solves
            obtain ⟨cand, b₁, matched, met, ext, agrees⟩ := h.joins one hp mem well.2.2 cover fits
            refine onward ?_ (h.joined hp mem matched ext agrees) rest
            change m.Steps p b b₁
            rw [Steps, h.standing_none.1 known]
            exact ⟨f, mem, cand, matched, met, ext⟩
        | some f =>
            simp only [known] at solves
            obtain ⟨q, hq, perFact⟩ := standing_some known
            obtain ⟨i, hi⟩ := ofFact_perFact perFact f
            have reads := solves.1 q hq
            rw [hi] at reads
            obtain ⟨b₁, made, old, new⟩ := h.takes reads
            rw [← hi] at made
            have stored : m.storedValue p b = some (q.ofFact .null f) := by
              rw [h.stored hq perFact, known, Option.map_some]
            have step : m.Steps p b b₁ := by
              rw [Steps, stored]
              exact made
            have agrees : AgreeOn (bound ++ (WhereClause.pattern p).binds) b₁ σ := by
              intro v mem
              by_cases early : v ∈ bound
              · exact old v early
              · obtain ⟨n, rfl, mentions⟩ := mem_binds_pattern.1 ((List.mem_append.1 mem).resolve_left early)
                rcases mentions with here | here | here
                · obtain ⟨-, id, -, resolved, -⟩ := storedValue_some stored
                  rw [here] at resolved
                  exact absurd ((h.binds _).1 (resolvedEntity_var resolved)) early
                · rw [hq] at here
                  cases here
                · exact new n here
            exact onward step (h.read hq known made agrees) solves.2

/-- The plan loop over a well placed list computes its solutions. -/
theorem runClauses_solves (apart : NamesApart m.env m.KeywordOf) {clauses : List WhereClause}
    (well : WellPlaced [] clauses) (tame : Tame [] clauses) (one : m.OneForm (bodyPatterns clauses)) (σ : Bindings) :
    (∃ b ∈ m.runClauses [[]] clauses, ∀ v, b.lookup (.var v) = σ.lookup (.var v)) ↔
      (∀ v, (∃ x, σ.lookup (.var v) = some x) ↔ v ∈ clauses.flatMap WhereClause.binds) ∧
        m.Solves (outputs clauses) (fun _ => none) [] clauses σ := by
  have inPs : ∀ p, WhereClause.pattern p ∈ clauses → p ∈ bodyPatterns clauses :=
    fun p mem => List.mem_filterMap.2 ⟨_, mem, rfl⟩
  constructor
  · rintro ⟨b, mem, final⟩
    obtain ⟨b₀, start, path⟩ := Table.start.path_of_mem apart tame mem
    cases List.mem_singleton.1 start
    have empty : ∀ v, (∃ x, ([] : Bindings).lookup (.var v) = some x) ↔ v ∈ ([] : List Var) := by simp
    refine ⟨fun v => ?_, Stage.start.solves one well tame inPs (List.Subset.refl _) path final⟩
    rw [← final v, path.binds empty, List.nil_append]
  · rintro ⟨shows, solves⟩
    obtain ⟨b', path, final⟩ := Stage.start.path one well tame inPs (List.Subset.refl _)
      (fun v out => .inr out) (by simpa using shows) solves
    obtain ⟨b, mem, same⟩ := Table.start.mem_of_path apart tame (List.mem_singleton_self _) path
    exact ⟨b, mem, fun v => (same _).trans (final v)⟩

end PatternMatcher
end Minigraf
