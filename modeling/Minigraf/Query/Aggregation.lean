import Minigraf.Query.AggregateValues

/-!
`compute_aggregation` of `src/query/datalog/executor.rs`, on find lists of variables and
built-in aggregates.

Rows are grouped by the values of the find variables and of the `:with` variables. There is
a row for each group, of the values of its first row and of the aggregates over its values
that are not nil. A group without a value for one of its `min` or `max` is left out.
-/

namespace Minigraf

inductive OrdinarySpec where
  | var (v : Var)
  | aggregate (func : Aggregate) (var : Var)
  deriving DecidableEq, Repr

/-- The keys of an output row: a variable, or `__agg_{i}`. -/
inductive OutKey where
  | var (v : Var)
  | agg (i : Nat)
  deriving DecidableEq, Repr

/-- A row of the output. As in `Bindings`, the first entry for a key counts. -/
abbrev OutRow := List (OutKey × Value)

def OrdinarySpec.var? : OrdinarySpec → Option Var
  | .var v => some v
  | .aggregate _ _ => none

def OrdinarySpec.isCount : OrdinarySpec → Bool
  | .aggregate .count _ => true
  | .aggregate .countDistinct _ => true
  | _ => false

def findVars (findSpecs : List OrdinarySpec) : List Var := findSpecs.filterMap OrdinarySpec.var?

/-- The variables of the grouping key. -/
def groupVarNames (findSpecs : List OrdinarySpec) (withVars : List Var) : List Var :=
  findVars findSpecs ++ withVars

/-- The values of a row at the variables of the key. -/
def groupKey (names : List Var) (b : Bindings) : List Value :=
  names.map fun v => (b.lookup (.var v)).getD .null

/-- A place in the order of keys. -/
def groupRank (key : List Value) : List Rank := key.map Value.rank

/-- `group_key_idx`: where a variable stands in the key, the last time it does. -/
def groupKeyIdx (findSpecs : List OrdinarySpec) : List (Var × Nat) := (findVars findSpecs).zipIdx.reverse

/-- The plain variables of a group. -/
def plainValues (findSpecs : List OrdinarySpec) (key : List Value) : OutRow :=
  (groupKeyIdx findSpecs).filterMap fun (v, idx) => key[idx]?.map fun value => (.var v, value)

/-- The values of a variable in a group that are not nil. -/
def nonNull (rows : List Bindings) (v : Var) : List Value :=
  (rows.filterMap fun b => b.lookup (.var v)).filter fun value => !value.isNull

/-- The aggregates of a group from the `i`-th entry of the find list on, unless the group is
skipped. -/
def aggregateGroup (rows : List Bindings) (i : Nat) : List OrdinarySpec → Except AggError (Option OutRow)
  | [] => .ok (some [])
  | .var _ :: findSpecs => aggregateGroup rows (i + 1) findSpecs
  | .aggregate func v :: findSpecs =>
      match applyBuiltinAggregate func (nonNull rows v) with
      | .ok value => (aggregateGroup rows (i + 1) findSpecs).map (Option.map ((.agg i, value) :: ·))
      | .error e => if e.skips then .ok none else .error e

/-- One row of zeros for no rows at all, where all is counted. -/
def emptyAggregation (findSpecs : List OrdinarySpec) : List OutRow :=
  if (findVars findSpecs).isEmpty && findSpecs.all OrdinarySpec.isCount then
    [findSpecs.zipIdx.map fun (_, i) => (.agg i, .integer 0)]
  else []

def groups (findSpecs : List OrdinarySpec) (withVars : List Var) (bindings : List Bindings) :
    List (List Rank × List Value × List Bindings) :=
  (Grouping.collect groupRank (groupKey (groupVarNames findSpecs withVars)) bindings).entries

/-- The row of a group, unless it is skipped. -/
def groupRow (findSpecs : List OrdinarySpec) (key : List Value) (rows : List Bindings) :
    Except AggError (Option OutRow) :=
  (aggregateGroup rows 0 findSpecs).map (Option.map (plainValues findSpecs key ++ ·))

def groupRows (findSpecs : List OrdinarySpec) (groups : List (List Rank × List Value × List Bindings)) :
    Except AggError (List (Option OutRow)) :=
  groups.mapM fun group => groupRow findSpecs group.2.1 group.2.2

def computeAggregation (bindings : List Bindings) (findSpecs : List OrdinarySpec) (withVars : List Var) :
    Except AggError (List OutRow) :=
  if bindings.isEmpty then .ok (emptyAggregation findSpecs)
  else (groupRows findSpecs (groups findSpecs withVars bindings)).map (List.filterMap id)

/-! ## One group -/

/-- The `i`-th entry of the find list takes the least or greatest of no values. -/
def Valueless (rows : List Bindings) : OrdinarySpec → Prop
  | .var _ => False
  | .aggregate func v => (func = .min ∨ func = .max) ∧ nonNull rows v = []

def OrdinarySpec.Accepted (rows : List Bindings) : OrdinarySpec → Prop
  | .var _ => True
  | .aggregate func v => func.Accepts (nonNull rows v)

/-- What a group makes of its aggregates: an error of the first that does not accept its
values, unless that one has no values, by which the group is skipped. -/
inductive Aggregates (rows : List Bindings) (i : Nat) (findSpecs : List OrdinarySpec) :
    Except AggError (Option OutRow) → Prop where
  | row (out : OutRow) (accepted : ∀ spec ∈ findSpecs, spec.Accepted rows)
      (keys : ∀ entry ∈ out, ∃ j, entry.1 = .agg j)
      (values : ∀ (j : Nat) (func : Aggregate) (v : Var), findSpecs[j]? = some (.aggregate func v) → ∃ value,
        applyBuiltinAggregate func (nonNull rows v) = .ok value ∧ out.lookup (.agg (i + j)) = some value) :
      Aggregates rows i findSpecs (.ok (some out))
  | skipped (before after : List OrdinarySpec) (spec : OrdinarySpec) (split : findSpecs = before ++ spec :: after)
      (accepted : ∀ spec ∈ before, spec.Accepted rows) (valueless : Valueless rows spec) :
      Aggregates rows i findSpecs (.ok none)
  | failed (e : AggError) (before after : List OrdinarySpec) (spec : OrdinarySpec)
      (split : findSpecs = before ++ spec :: after) (accepted : ∀ spec ∈ before, spec.Accepted rows)
      (unfit : ¬ spec.Accepted rows) (valued : ¬ Valueless rows spec) :
      Aggregates rows i findSpecs (.error e)

theorem Valueless.not_accepted {rows : List Bindings} {spec : OrdinarySpec} (h : Valueless rows spec) :
    ¬ spec.Accepted rows := by
  cases spec with
  | var v => exact h.elim
  | aggregate func v =>
      obtain ⟨rfl | rfl, empty⟩ := h
      · exact fun accepts => accepts.1 empty
      · exact fun accepts => accepts.1 empty

theorem Aggregates.cons {rows : List Bindings} {i : Nat} {spec : OrdinarySpec} {findSpecs : List OrdinarySpec}
    {e : Except AggError (Option OutRow)} (h : Aggregates rows (i + 1) findSpecs e)
    (accepted : spec.Accepted rows) (rest : ∀ out, e ≠ .ok (some out)) :
    Aggregates rows i (spec :: findSpecs) e := by
  cases h with
  | row out => exact absurd rfl (rest out)
  | skipped before after spec' split accepted' valueless =>
      refine .skipped (spec :: before) after spec' (by rw [split, List.cons_append]) ?_ valueless
      exact List.forall_mem_cons.mpr ⟨accepted, accepted'⟩
  | failed e before after spec' split accepted' unfit valued =>
      refine .failed e (spec :: before) after spec' (by rw [split, List.cons_append]) ?_ unfit valued
      exact List.forall_mem_cons.mpr ⟨accepted, accepted'⟩

theorem aggregateGroup_spec (rows : List Bindings) (i : Nat) (findSpecs : List OrdinarySpec) :
    Aggregates rows i findSpecs (aggregateGroup rows i findSpecs) := by
  induction findSpecs generalizing i with
  | nil =>
      refine .row [] (fun _ no => nomatch no) (fun _ no => nomatch no) fun j func v own => ?_
      cases own
  | cons spec findSpecs ih =>
      have rest := ih (i + 1)
      cases spec with
      | var v =>
          rw [aggregateGroup]
          cases result : aggregateGroup rows (i + 1) findSpecs with
          | error e =>
              rw [result] at rest
              exact rest.cons trivial (fun _ no => nomatch no)
          | ok out =>
              rw [result] at rest
              cases out with
              | none => exact rest.cons trivial (fun _ no => nomatch no)
              | some out =>
                  cases rest with
                  | row _ accepted keys values =>
                      refine .row out (List.forall_mem_cons.mpr ⟨trivial, accepted⟩) keys ?_
                      intro j func w own
                      cases j with
                      | zero => cases own
                      | succ j =>
                          have later := values j func w own
                          rwa [Nat.add_right_comm, Nat.add_assoc] at later
      | aggregate func v =>
          rw [aggregateGroup]
          cases ran : applyBuiltinAggregate func (nonNull rows v) with
          | error e =>
              have unfit : ¬ func.Accepts (nonNull rows v) := by
                rw [← applyBuiltin_isOk]
                intro ⟨value, ok⟩
                rw [ran] at ok
                cases ok
              by_cases skips : e.skips = true
              · simp only [skips, if_true]
                exact .skipped [] findSpecs _ rfl (fun _ no => nomatch no) ((applyBuiltin_skips ran).mp skips)
              · simp only [if_neg skips]
                refine .failed e [] findSpecs _ rfl (fun _ no => nomatch no) unfit fun valueless => ?_
                exact skips ((applyBuiltin_skips ran).mpr valueless)
          | ok value =>
              have accepted : func.Accepts (nonNull rows v) := applyBuiltin_isOk.mp ⟨value, ran⟩
              cases result : aggregateGroup rows (i + 1) findSpecs with
              | error e =>
                  rw [result] at rest
                  exact rest.cons accepted (fun _ no => nomatch no)
              | ok out =>
                  rw [result] at rest
                  cases out with
                  | none => exact rest.cons accepted (fun _ no => nomatch no)
                  | some out =>
                      cases rest with
                      | row _ accepted' keys values =>
                          refine .row _ (List.forall_mem_cons.mpr ⟨accepted, accepted'⟩)
                            (List.forall_mem_cons.mpr ⟨⟨i, rfl⟩, keys⟩) ?_
                          intro j func' w own
                          cases j with
                          | zero =>
                              cases own
                              exact ⟨value, ran, List.lookup_cons_self⟩
                          | succ j =>
                              obtain ⟨value', ran', found⟩ := values j func' w own
                              refine ⟨value', ran', ?_⟩
                              rw [List.lookup_cons, ← found, Nat.add_right_comm, Nat.add_assoc]
                              have apart : ((OutKey.agg (i + (j + 1))) == .agg i) = false := by
                                simp
                              rw [apart]

/-- A group has a row, or is skipped, when whatever does not accept its values comes after, or
is, a `min` or `max` without values. -/
def GroupFits (findSpecs : List OrdinarySpec) (rows : List Bindings) : Prop :=
  ∀ (i : Nat) (spec : OrdinarySpec), findSpecs[i]? = some spec → ¬ spec.Accepted rows →
    ∃ j ≤ i, ∃ spec', findSpecs[j]? = some spec' ∧ Valueless rows spec'

def GroupKept (findSpecs : List OrdinarySpec) (rows : List Bindings) : Prop :=
  ∀ spec ∈ findSpecs, ¬ Valueless rows spec

theorem getElem?_split_lt {α : Type} {before after : List α} {a b : α} {i : Nat} (h : i < before.length)
    (own : (before ++ a :: after)[i]? = some b) : b ∈ before := by
  rw [List.getElem?_append_left h] at own
  exact List.mem_of_getElem? own

theorem getElem?_split {α : Type} (before after : List α) (a : α) :
    (before ++ a :: after)[before.length]? = some a := by
  rw [List.getElem?_append_right (Nat.le_refl _), Nat.sub_self]
  rfl

theorem aggregateGroup_isOk {rows : List Bindings} {findSpecs : List OrdinarySpec} :
    (∃ out, aggregateGroup rows 0 findSpecs = .ok out) ↔ GroupFits findSpecs rows := by
  have spec := aggregateGroup_spec rows 0 findSpecs
  cases result : aggregateGroup rows 0 findSpecs with
  | ok out =>
      refine iff_of_true ⟨out, rfl⟩ fun i spec' own unfit => ?_
      rw [result] at spec
      cases spec with
      | row out accepted => exact absurd (accepted spec' (List.mem_of_getElem? own)) unfit
      | skipped before after spec split accepted valueless =>
          subst split
          refine ⟨before.length, ?_, spec, getElem?_split before after spec, valueless⟩
          by_contra early
          exact unfit (accepted spec' (getElem?_split_lt (Nat.lt_of_not_le early) own))
  | error e =>
      refine iff_of_false (fun ⟨out, no⟩ => nomatch no) fun fits => ?_
      rw [result] at spec
      cases spec with
      | failed e before after spec split accepted unfit valued =>
          subst split
          obtain ⟨j, le, spec', own, valueless⟩ := fits before.length spec (getElem?_split before after spec) unfit
          cases Nat.lt_or_eq_of_le le with
          | inl early => exact valueless.not_accepted (accepted spec' (getElem?_split_lt early own))
          | inr here =>
              subst here
              rw [getElem?_split] at own
              cases own
              exact valued valueless

theorem aggregateGroup_isSome {rows : List Bindings} {findSpecs : List OrdinarySpec} {out : Option OutRow}
    (ran : aggregateGroup rows 0 findSpecs = .ok out) : GroupKept findSpecs rows ↔ out.isSome = true := by
  have spec := aggregateGroup_spec rows 0 findSpecs
  rw [ran] at spec
  cases spec with
  | row out accepted => exact iff_of_true (fun spec mem valueless => valueless.not_accepted (accepted spec mem)) rfl
  | skipped before after spec split accepted valueless =>
      refine iff_of_false (fun kept => kept spec ?_ valueless) (fun no => nomatch no)
      rw [split]
      exact List.mem_append_right _ List.mem_cons_self

/-! ## Plain variables -/

theorem mem_plainValues {findSpecs : List OrdinarySpec} {withVars : List Var} {b : Bindings}
    {key : OutKey} {x : Value} :
    (key, x) ∈ plainValues findSpecs (groupKey (groupVarNames findSpecs withVars) b) ↔
      ∃ v ∈ findVars findSpecs, key = .var v ∧ x = (b.lookup (.var v)).getD .null := by
  have at_ : ∀ (v : Var) (idx : Nat), (findVars findSpecs)[idx]? = some v →
      (groupKey (groupVarNames findSpecs withVars) b)[idx]? = some ((b.lookup (.var v)).getD .null) := by
    intro v idx own
    have short := (List.getElem?_eq_some_iff.mp own).1
    rw [groupKey, List.getElem?_map, groupVarNames, List.getElem?_append_left short, own]
    rfl
  rw [plainValues, List.mem_filterMap]
  constructor
  · intro ⟨⟨v, idx⟩, mem, entry⟩
    rw [groupKeyIdx, List.mem_reverse, List.mem_zipIdx_iff_getElem?] at mem
    simp only [at_ v idx mem, Option.map_some, Option.some.injEq, Prod.mk.injEq] at entry
    exact ⟨v, List.mem_of_getElem? mem, entry.1.symm, entry.2.symm⟩
  · intro ⟨v, mem, hkey, hx⟩
    obtain ⟨idx, own⟩ := List.mem_iff_getElem?.mp mem
    refine ⟨(v, idx), ?_, ?_⟩
    · rw [groupKeyIdx, List.mem_reverse, List.mem_zipIdx_iff_getElem?]
      exact own
    · simp only [at_ v idx own, hkey, hx, Option.map_some]

theorem lookup_plainValues {findSpecs : List OrdinarySpec} {withVars : List Var} {b : Bindings} {v : Var}
    (mem : v ∈ findVars findSpecs) :
    (plainValues findSpecs (groupKey (groupVarNames findSpecs withVars) b)).lookup (.var v) =
      some ((b.lookup (.var v)).getD .null) := by
  have held := (@mem_plainValues findSpecs withVars b _ _).mpr ⟨v, mem, rfl, rfl⟩
  have there := List.lookup_isSome_iff.mpr ⟨_, held, BEq.rfl⟩
  obtain ⟨x, found⟩ := Option.isSome_iff_exists.mp there
  obtain ⟨before, after, split, _⟩ := List.lookup_eq_some_iff.mp found
  have entry : (OutKey.var v, x) ∈ plainValues findSpecs (groupKey (groupVarNames findSpecs withVars) b) := by
    rw [split]
    exact List.mem_append_right _ List.mem_cons_self
  obtain ⟨w, _, same, own⟩ := mem_plainValues.mp entry
  cases same
  rw [found, own]

theorem lookup_plainValues_agg {findSpecs : List OrdinarySpec} {withVars : List Var} {b : Bindings} {i : Nat} :
    (plainValues findSpecs (groupKey (groupVarNames findSpecs withVars) b)).lookup (.agg i) = none := by
  rw [List.lookup_eq_none_iff]
  intro ⟨key, x⟩ mem
  obtain ⟨v, _, same, _⟩ := mem_plainValues.mp mem
  rw [same]
  rfl

/-! ## Rows of the output -/

section

variable (findSpecs : List OrdinarySpec) (withVars : List Var)

/-- Where a row stands in the order of the groups. -/
def rowRank (b : Bindings) : List Rank := groupRank (groupKey (groupVarNames findSpecs withVars) b)

/-- The rows grouped under a rank. -/
def groupAt (bindings : List Bindings) (r : List Rank) : List Bindings :=
  Grouping.rowsAt groupRank (groupKey (groupVarNames findSpecs withVars)) bindings r

/-- A row of the output that is that of a group. -/
structure IsGroupRow (rows : List Bindings) (row : OutRow) : Prop where
  plain : ∀ v ∈ findVars findSpecs, ∃ x, row.lookup (.var v) = some x ∧
    ∀ b ∈ rows, x.rank = ((b.lookup (.var v)).getD .null).rank
  values : ∀ (i : Nat) (func : Aggregate) (v : Var), findSpecs[i]? = some (.aggregate func v) → ∃ x, row.lookup (.agg i) = some x ∧
    applyBuiltinAggregate func (nonNull rows v) = .ok x ∧ func.IsValue (nonNull rows v) x

/-- Rows with the same values, where the order of the rows of the group does not tell. -/
structure SameRow (rows : List Bindings) (row row' : OutRow) : Prop where
  plain : ∀ v ∈ findVars findSpecs,
    (row.lookup (.var v)).map Value.rank = (row'.lookup (.var v)).map Value.rank
  values : ∀ (i : Nat) (func : Aggregate) (v : Var), findSpecs[i]? = some (.aggregate func v) → func.OrderFree (nonNull rows v) →
    (row.lookup (.agg i)).map Value.rank = (row'.lookup (.agg i)).map Value.rank

variable {findSpecs withVars}

theorem mem_groups {bindings : List Bindings} {g : List Rank × List Value × List Bindings} :
    g ∈ groups findSpecs withVars bindings ↔ g.2.2 = groupAt findSpecs withVars bindings g.1 ∧
      g.2.2.head?.map (groupKey (groupVarNames findSpecs withVars)) = some g.2.1 := by
  obtain ⟨r, key, rows⟩ := g
  exact Grouping.mem_collect groupRank (groupKey (groupVarNames findSpecs withVars))

theorem mem_group_ranks {bindings : List Bindings} {r : List Rank} :
    r ∈ (groups findSpecs withVars bindings).map Prod.fst ↔
      ∃ b ∈ bindings, rowRank findSpecs withVars b = r :=
  Grouping.mem_ranks groupRank (groupKey (groupVarNames findSpecs withVars))

/-- What a group becomes. -/
theorem groupRow_spec {bindings : List Bindings} {g : List Rank × List Value × List Bindings}
    (mem : g ∈ groups findSpecs withVars bindings) {out : Option OutRow}
    (ran : groupRow findSpecs g.2.1 g.2.2 = .ok out) :
    (GroupKept findSpecs (groupAt findSpecs withVars bindings g.1) ↔ out.isSome = true) ∧
      ∀ row ∈ out, IsGroupRow findSpecs (groupAt findSpecs withVars bindings g.1) row := by
  obtain ⟨own, head⟩ := mem_groups.mp mem
  rw [own] at head ran
  obtain ⟨first, first_, key⟩ := Option.map_eq_some_iff.mp head
  have first_ := List.mem_of_head? first_
  rw [groupRow] at ran
  cases result : aggregateGroup (groupAt findSpecs withVars bindings g.1) 0 findSpecs with
  | error e =>
      rw [result] at ran
      cases ran
  | ok aggs =>
      rw [result] at ran
      cases ran
      refine ⟨(aggregateGroup_isSome result).trans ?_, ?_⟩
      · rw [Option.isSome_map]
      · intro row mem_
        obtain ⟨vals, rfl, rfl⟩ := Option.map_eq_some_iff.mp mem_
        have spec := aggregateGroup_spec (groupAt findSpecs withVars bindings g.1) 0 findSpecs
        rw [result] at spec
        cases spec with
        | row _ accepted keys values =>
            rw [← key]
            constructor
            · intro v mem
              refine ⟨(first.lookup (.var v)).getD .null, ?_, fun b hb => ?_⟩
              · rw [List.lookup_append, lookup_plainValues mem]
                rfl
              · have same := (Grouping.mem_rowsAt.mp first_).2.trans (Grouping.mem_rowsAt.mp hb).2.symm
                rw [groupRank, groupRank, groupKey, groupKey, List.map_map,
                  List.map_map, List.map_inj_left] at same
                exact same v (List.mem_append_left _ mem)
            · intro i func v spec
              obtain ⟨x, ran, found⟩ := values i func v spec
              refine ⟨x, ?_, ran, applyBuiltin_isValue ran⟩
              rw [List.lookup_append, lookup_plainValues_agg, ← found, Nat.zero_add]
              rfl

/-- A result is made of a row for each group that is kept, in the order of the groups. -/
def Partitions (findSpecs : List OrdinarySpec) (withVars : List Var) (bindings : List Bindings)
    (out : List OutRow) : Prop :=
  ∃ ranks : List (List Rank), ranks.Pairwise (· < ·) ∧
    (∀ r, r ∈ ranks ↔ (∃ b ∈ bindings, rowRank findSpecs withVars b = r) ∧
      GroupKept findSpecs (groupAt findSpecs withVars bindings r)) ∧
    List.Forall₂ (fun r row => IsGroupRow findSpecs (groupAt findSpecs withVars bindings r) row) ranks out

theorem computeAggregation_cons {bindings : List Bindings} (rows : bindings ≠ []) :
    computeAggregation bindings findSpecs withVars =
      (groupRows findSpecs (groups findSpecs withVars bindings)).map (List.filterMap id) := by
  rw [computeAggregation, if_neg]
  rwa [List.isEmpty_iff]

theorem groupRow_isOk {bindings : List Bindings} {g : List Rank × List Value × List Bindings}
    (mem : g ∈ groups findSpecs withVars bindings) : (∃ out, groupRow findSpecs g.2.1 g.2.2 = .ok out) ↔
      GroupFits findSpecs (groupAt findSpecs withVars bindings g.1) := by
  obtain ⟨own, -⟩ := mem_groups.mp mem
  rw [own, groupRow, ← aggregateGroup_isOk]
  cases aggregateGroup (groupAt findSpecs withVars bindings g.1) 0 findSpecs with
  | error e => exact iff_of_false (fun ⟨out, no⟩ => nomatch no) (fun ⟨out, no⟩ => nomatch no)
  | ok out => exact iff_of_true ⟨_, rfl⟩ ⟨_, rfl⟩

/-- Aggregation succeeds if every group fits. -/
theorem computeAggregation_isOk {bindings : List Bindings} :
    (∃ out, computeAggregation bindings findSpecs withVars = .ok out) ↔
      ∀ b ∈ bindings, GroupFits findSpecs
        (groupAt findSpecs withVars bindings (rowRank findSpecs withVars b)) := by
  by_cases rows : bindings = []
  · subst rows
    exact iff_of_true ⟨_, rfl⟩ (fun _ no => nomatch no)
  · rw [computeAggregation_cons rows]
    constructor
    · intro ⟨out, ran⟩ b mem
      cases each : groupRows findSpecs (groups findSpecs withVars bindings) with
      | error e =>
          rw [each] at ran
          cases ran
      | ok outs =>
          obtain ⟨g, hg, rank⟩ := List.mem_map.mp (mem_group_ranks.mpr ⟨b, mem, rfl⟩)
          obtain ⟨o, -, here⟩ := (List.forall₂_of_mapM_ok each).exists_right hg
          rw [← rank]
          exact (groupRow_isOk hg).mp ⟨o, here⟩
    · intro fits
      have ⟨outs, each⟩ : ∃ outs, groupRows findSpecs (groups findSpecs withVars bindings) = .ok outs := by
        refine List.exists_mapM_ok fun g hg => (groupRow_isOk hg).mpr ?_
        obtain ⟨b, mem, rank⟩ := mem_group_ranks.mp (List.mem_map_of_mem hg)
        rw [← rank]
        exact fits b mem
      rw [each]
      exact ⟨_, rfl⟩

open Classical in
/-- The rows of a result are those of the groups that are kept. -/
theorem computeAggregation_partitions {bindings : List Bindings} (rows : bindings ≠ []) {out : List OutRow}
    (ran : computeAggregation bindings findSpecs withVars = .ok out) :
    Partitions findSpecs withVars bindings out := by
  rw [computeAggregation_cons rows] at ran
  cases each : groupRows findSpecs (groups findSpecs withVars bindings) with
  | error e =>
      rw [each] at ran
      cases ran
  | ok outs =>
      rw [each] at ran
      cases ran
      have pairs : List.Forall₂ (fun g o => g ∈ groups findSpecs withVars bindings ∧
          groupRow findSpecs g.2.1 g.2.2 = .ok o) (groups findSpecs withVars bindings) outs :=
        (List.forall₂_and_left _ _).mpr ⟨fun _ mem => mem, List.forall₂_of_mapM_ok each⟩
      have results : List.Forall₂ (fun r o =>
          (GroupKept findSpecs (groupAt findSpecs withVars bindings r) ↔ o.isSome = true) ∧
            ∀ row ∈ o, IsGroupRow findSpecs (groupAt findSpecs withVars bindings r) row)
          ((groups findSpecs withVars bindings).map Prod.fst) outs := by
        rw [List.forall₂_map_left_iff]
        exact pairs.imp fun g o ⟨mem, ran⟩ => groupRow_spec mem ran
      refine ⟨_, ?_, fun r => ?_, (results.filterMap_id (p := fun r => decide (GroupKept findSpecs
        (groupAt findSpecs withVars bindings r))) fun r o ⟨kept, _⟩ => ?_).imp fun r row own => own.2 row rfl⟩
      · exact (List.pairwise_map.mpr (Grouping.collect groupRank _ bindings).sorted).filter _
      · rw [List.mem_filter, mem_group_ranks, decide_eq_true_eq]
      · rw [decide_eq_true_eq, kept]

/-! ## Rows in another order -/

theorem nonNull_perm {rows rows' : List Bindings} (perm : rows.Perm rows') (v : Var) :
    (nonNull rows v).Perm (nonNull rows' v) := (perm.filterMap _).filter _

theorem groupAt_perm {bindings bindings' : List Bindings} (perm : bindings.Perm bindings') (r : List Rank) :
    (groupAt findSpecs withVars bindings r).Perm (groupAt findSpecs withVars bindings' r) := perm.filter _

theorem Valueless.perm {rows rows' : List Bindings} (perm : rows.Perm rows') {spec : OrdinarySpec} :
    Valueless rows spec ↔ Valueless rows' spec := by
  cases spec with
  | var v => exact Iff.rfl
  | aggregate func v =>
      have empty : nonNull rows v = [] ↔ nonNull rows' v = [] := by
        rw [← List.length_eq_zero_iff, ← List.length_eq_zero_iff, (nonNull_perm perm v).length_eq]
      exact and_congr Iff.rfl empty

theorem OrdinarySpec.Accepted.perm {rows rows' : List Bindings} (perm : rows.Perm rows') {spec : OrdinarySpec} :
    spec.Accepted rows ↔ spec.Accepted rows' := by
  cases spec with
  | var v => exact Iff.rfl
  | aggregate func v => exact Aggregate.Accepts.perm (nonNull_perm perm v)

theorem GroupFits.perm {rows rows' : List Bindings} (perm : rows.Perm rows') :
    GroupFits findSpecs rows ↔ GroupFits findSpecs rows' := by
  unfold GroupFits
  simp only [Valueless.perm perm, OrdinarySpec.Accepted.perm perm]

theorem IsGroupRow.same {rows rows' : List Bindings} (perm : rows.Perm rows') {b : Bindings} (mem : b ∈ rows)
    {row row' : OutRow} (own : IsGroupRow findSpecs rows row) (own' : IsGroupRow findSpecs rows' row') :
    SameRow findSpecs rows row row' := by
  constructor
  · intro v hv
    obtain ⟨x, found, alike⟩ := own.plain v hv
    obtain ⟨x', found', alike'⟩ := own'.plain v hv
    rw [found, found', Option.map_some, Option.map_some, alike b mem, alike' b (perm.mem_iff.mp mem)]
  · intro i func v spec free
    obtain ⟨x, found, ran, -⟩ := own.values i func v spec
    obtain ⟨x', found', ran', -⟩ := own'.values i func v spec
    rw [found, found', Option.map_some, Option.map_some, applyBuiltin_rank (nonNull_perm perm v) free ran ran']

/-- The rows of two results are one by one of the same groups. -/
theorem computeAggregation_sameRows {bindings bindings' : List Bindings} (perm : bindings.Perm bindings')
    {out out' : List OutRow} (ran : computeAggregation bindings findSpecs withVars = .ok out)
    (ran' : computeAggregation bindings' findSpecs withVars = .ok out') (rows : bindings ≠ []) :
    List.Forall₂ (fun row row' => ∃ b ∈ bindings,
      IsGroupRow findSpecs (groupAt findSpecs withVars bindings (rowRank findSpecs withVars b)) row ∧
      SameRow findSpecs (groupAt findSpecs withVars bindings (rowRank findSpecs withVars b)) row row')
      out out' := by
  have rows' : bindings' ≠ [] := by
    intro empty
    rw [empty] at perm
    exact rows perm.eq_nil
  obtain ⟨ranks, sorted, mem, each⟩ := computeAggregation_partitions rows ran
  obtain ⟨ranks', sorted', mem', each'⟩ := computeAggregation_partitions rows' ran'
  have same : ranks = ranks' := by
    refine sorted.eq_of_mem_iff sorted' fun r => ?_
    rw [mem, mem', GroupKept, GroupKept]
    have group := @groupAt_perm findSpecs withVars bindings bindings' perm r
    simp only [perm.mem_iff, Valueless.perm group]
  subst same
  have known : List.Forall₂ (fun r row => r ∈ ranks ∧
      IsGroupRow findSpecs (groupAt findSpecs withVars bindings r) row) ranks out :=
    (List.forall₂_and_left _ _).mpr ⟨fun _ mem => mem, each⟩
  refine known.square (List.forall₂_same.mpr fun _ _ => rfl) each' fun r row r' row' here same here' => ?_
  subst same
  obtain ⟨b, hb, rank⟩ := ((mem r).mp here.1).1
  subst rank
  exact ⟨b, hb, here.2, here.2.same (groupAt_perm perm _) (Grouping.mem_rowsAt.mpr ⟨hb, rfl⟩) here'⟩

/-- Aggregation partitions its rows, and does not depend on their order but for the values of
aggregates that do. -/
theorem computeAggregation_orderFree (bindings bindings' : List Bindings) (findSpecs : List OrdinarySpec)
    (withVars : List Var) (perm : bindings.Perm bindings') :
    ((∃ out, computeAggregation bindings findSpecs withVars = .ok out) ↔
      ∃ out, computeAggregation bindings' findSpecs withVars = .ok out) ∧
    ∀ out, computeAggregation bindings findSpecs withVars = .ok out →
      (bindings = [] → out = emptyAggregation findSpecs) ∧
      (bindings ≠ [] → Partitions findSpecs withVars bindings out ∧
        ∀ out', computeAggregation bindings' findSpecs withVars = .ok out' →
          List.Forall₂ (fun row row' => ∃ b ∈ bindings,
            IsGroupRow findSpecs (groupAt findSpecs withVars bindings (rowRank findSpecs withVars b)) row ∧
            SameRow findSpecs (groupAt findSpecs withVars bindings (rowRank findSpecs withVars b)) row row')
            out out') := by
  refine ⟨?_, fun out ran => ⟨fun empty => ?_, fun rows => ⟨?_, fun out' ran' => ?_⟩⟩⟩
  · rw [computeAggregation_isOk, computeAggregation_isOk]
    simp only [perm.mem_iff, GroupFits.perm (groupAt_perm perm _)]
  · subst empty
    cases ran
    rfl
  · exact computeAggregation_partitions rows ran
  · exact computeAggregation_sameRows perm ran ran' rows

end

/-- The rows that bind `?x` to these integers. -/
def integerRows (is : List Int64) : List Bindings := is.map fun i => [(.var (.named "x"), .integer i)]

theorem computeAggregation_orderFree_two :
    Partitions [.aggregate .sum (.named "x")] [] (integerRows [1, 2]) [[(.agg 0, .integer 3)]] ∧
      ∃ out, computeAggregation (integerRows [2, 1]) [.aggregate .sum (.named "x")] [] = .ok out :=
  have swapped := computeAggregation_orderFree (integerRows [1, 2]) (integerRows [2, 1])
    [.aggregate .sum (.named "x")] [] (List.Perm.swap _ _ _)
  ⟨((swapped.2 _ rfl).2 (List.cons_ne_nil _ _)).1, swapped.1.mp ⟨_, rfl⟩⟩

/-- The greatest integer, 1 and -1 in two orders have two sums. -/
theorem computeAggregation_saturates :
    (integerRows [9223372036854775807, 1, -1]).Perm (integerRows [1, -1, 9223372036854775807]) ∧
    computeAggregation (integerRows [9223372036854775807, 1, -1]) [.aggregate .sum (.named "x")] [] =
      .ok [[(.agg 0, .integer 9223372036854775806)]] ∧
    computeAggregation (integerRows [1, -1, 9223372036854775807]) [.aggregate .sum (.named "x")] [] =
      .ok [[(.agg 0, .integer 9223372036854775807)]] :=
  ⟨List.Perm.map _ (by decide), rfl, rfl⟩

end Minigraf
