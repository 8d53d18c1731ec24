import Mathlib.Data.List.Find
import Minigraf.Query.Slots

/-!
What the substitution of a prepared query does: where the bindings have a value of the right
kind for every slot outside vectors, lists and maps, it gives the template with these slots
replaced; where they do not, an error. Slots inside are left as they are.
-/

namespace Minigraf

/-- The bindings have a value for a slot, of the kind its place takes. -/
def Bound (bindings : List (String × BindValue)) (o : Occurrence) : Prop :=
  ∃ value, boundValue bindings o.2 = some value ∧ o.1.takes value = true

/-- The slots outside vectors, lists and maps are bound. -/
def Fits (bindings : List (String × BindValue)) (os : List Occurrence) : Prop :=
  ∀ o ∈ os, o.1 ≠ .inner → Bound bindings o

theorem Fits.append {bindings : List (String × BindValue)} {os os' : List Occurrence} :
    Fits bindings (os ++ os') ↔ Fits bindings os ∧ Fits bindings os' := List.forall_mem_append

/-- What a substitution does to a part of a template with these slots. -/
structure Substitutes {α : Type} (os : List Occurrence) (left : α → List Occurrence)
    (run : List (String × BindValue) → Except PreparedError α)
    (filled : List (String × BindValue) → α) : Prop where
  ok : ∀ bindings, Fits bindings os → ∃ a, run bindings = .ok a ∧
    (∀ o ∈ os, o.1 = .inner → o ∈ left a) ∧ ((∀ o ∈ os, o.1 ≠ .inner) → a = filled bindings ∧ left a = [])
  fails : ∀ bindings, ¬ Fits bindings os → ∃ e, run bindings = .error e
  reads : ∀ bindings bindings', (∀ o ∈ os, boundValue bindings o.2 = boundValue bindings' o.2) →
    run bindings = run bindings'

namespace Substitutes

variable {α β γ : Type} {os os' : List Occurrence} {left : α → List Occurrence} {left' : β → List Occurrence}
  {run : List (String × BindValue) → Except PreparedError α} {filled : List (String × BindValue) → α}
  {run' : List (String × BindValue) → Except PreparedError β} {filled' : List (String × BindValue) → β}

/-- A part whose slots are all inside is left as it is. -/
theorem unchanged {a : α} (inner : ∀ o ∈ os, o.1 = .inner) (kept : left a = os)
    (same : os = [] → ∀ bindings, filled bindings = a) :
    Substitutes os left (fun _ => .ok a) filled where
  ok := by
    intro bindings _
    refine ⟨a, rfl, fun o mem _ => by rwa [kept], fun none => ?_⟩
    have empty : os = [] := List.eq_nil_iff_forall_not_mem.mpr fun o mem => none o mem (inner o mem)
    exact ⟨(same empty bindings).symm, kept.trans empty⟩
  fails := by
    intro bindings unfit
    exact absurd (fun o mem outer => absurd (inner o mem) outer) unfit
  reads := fun _ _ _ => rfl

/-- A slot is replaced by what its place takes of its value. -/
theorem slot {place : SlotPlace} (outer : place ≠ .inner) (name : String) {position expected : String}
    {take : BindValue → Option α} (takes : ∀ value, place.takes value = (take value).isSome)
    (value : ∀ v a, take v = some a → left a = []) (filled : List (String × BindValue) → α)
    (own : ∀ bindings v a, boundValue bindings name = some v → take v = some a → filled bindings = a) :
    Substitutes [(place, name)] left (Prepared.resolveSlot position expected take name) filled where
  ok := by
    intro bindings fits
    obtain ⟨v, bound, takes_⟩ := fits _ List.mem_cons_self outer
    rw [takes, Option.isSome_iff_exists] at takes_
    obtain ⟨a, taken⟩ := takes_
    refine ⟨a, ?_, ?_, fun _ => ⟨(own bindings v a bound taken).symm, value v a taken⟩⟩
    · simp only [Prepared.resolveSlot, bound, taken]
    · intro o mem inner
      rw [List.mem_singleton.mp mem] at inner
      exact absurd inner outer
  fails := by
    intro bindings unfit
    cases bound : boundValue bindings name with
    | none => exact ⟨.int033 name, by simp only [Prepared.resolveSlot, bound]⟩
    | some v =>
        cases taken : take v with
        | none => exact ⟨.int035 name position expected v.typeName, by simp only [Prepared.resolveSlot, bound, taken]⟩
        | some a =>
            refine absurd (fun o mem _ => ?_) unfit
            rw [List.mem_singleton.mp mem]
            exact ⟨v, bound, by rw [takes, taken, Option.isSome_some]⟩
  reads := by
    intro bindings bindings' same
    simp only [Prepared.resolveSlot, same _ List.mem_cons_self]

theorem congr {filled₁ : List (String × BindValue) → α} (part : Substitutes os left run filled)
    (same : ∀ bindings, Fits bindings os → filled bindings = filled₁ bindings) :
    Substitutes os left run filled₁ where
  ok := by
    intro bindings fits
    obtain ⟨a, ran, kept, all⟩ := part.ok bindings fits
    exact ⟨a, ran, kept, fun outer => ⟨(all outer).1.trans (same bindings fits), (all outer).2⟩⟩
  fails := part.fails
  reads := part.reads

theorem of_run {run₁ : List (String × BindValue) → Except PreparedError α}
    (part : Substitutes os left run filled) (same : ∀ bindings, run₁ bindings = run bindings) :
    Substitutes os left run₁ filled := by
  rwa [funext same]

/-- What is made of one part. -/
theorem map {c : α → γ} {whole : γ → List Occurrence} (part : Substitutes os left run filled)
    (slots : ∀ a, whole (c a) = left a) :
    Substitutes os whole (fun bindings => do
      let a ← run bindings
      pure (c a)) fun bindings => c (filled bindings) where
  ok := by
    intro bindings fits
    obtain ⟨a, ran, kept, all⟩ := part.ok bindings fits
    refine ⟨c a, by rw [ran]; rfl, ?_, fun outer => ?_⟩
    · rw [slots]
      exact kept
    · rw [slots, (all outer).1]
      exact ⟨rfl, (all outer).1 ▸ (all outer).2⟩
  fails := by
    intro bindings unfit
    obtain ⟨e, failed⟩ := part.fails bindings unfit
    exact ⟨e, by rw [failed]; rfl⟩
  reads := by
    intro bindings bindings' same
    simp only [part.reads bindings bindings' same]

/-- What is made of two parts, one after the other. -/
theorem seq {c : α → β → γ} {whole : γ → List Occurrence} (first : Substitutes os left run filled)
    (second : Substitutes os' left' run' filled') (slots : ∀ a b, whole (c a b) = left a ++ left' b) :
    Substitutes (os ++ os') whole (fun bindings => do
      let a ← run bindings
      let b ← run' bindings
      pure (c a b)) fun bindings => c (filled bindings) (filled' bindings) where
  ok := by
    intro bindings fits
    obtain ⟨fits, fits'⟩ := Fits.append.mp fits
    obtain ⟨a, ran, kept, all⟩ := first.ok bindings fits
    obtain ⟨b, ran', kept', all'⟩ := second.ok bindings fits'
    refine ⟨c a b, by rw [ran, ran']; rfl, fun o mem inner => ?_, fun outer => ?_⟩
    · rw [slots]
      cases List.mem_append.mp mem with
      | inl mem => exact List.mem_append_left _ (kept o mem inner)
      | inr mem => exact List.mem_append_right _ (kept' o mem inner)
    · obtain ⟨outer, outer'⟩ := List.forall_mem_append.mp outer
      obtain ⟨rfl, none⟩ := all outer
      obtain ⟨rfl, none'⟩ := all' outer'
      exact ⟨rfl, by rw [slots, none, none']; rfl⟩
  fails := by
    intro bindings unfit
    by_cases fits : Fits bindings os
    · obtain ⟨a, ran, _⟩ := first.ok bindings fits
      obtain ⟨e, failed⟩ := second.fails bindings fun fits' => unfit (Fits.append.mpr ⟨fits, fits'⟩)
      exact ⟨e, by rw [ran, failed]; rfl⟩
    · obtain ⟨e, failed⟩ := first.fails bindings fits
      exact ⟨e, by rw [failed]; rfl⟩
  reads := by
    intro bindings bindings' same
    obtain ⟨same, same'⟩ := List.forall_mem_append.mp same
    simp only [first.reads bindings bindings' same, second.reads bindings bindings' same']

/-- One part after the other in a list. -/
theorem mapM {run : List (String × BindValue) → α → Except PreparedError α}
    {filled : List (String × BindValue) → α → α} (items : List α)
    (each : ∀ a ∈ items, Substitutes (left a) left (fun bindings => run bindings a) fun bindings => filled bindings a) :
    Substitutes (items.flatMap left) (List.flatMap left) (fun bindings => items.mapM (run bindings))
      fun bindings => items.map (filled bindings) := by
  induction items with
  | nil => exact unchanged (a := []) (fun _ no => nomatch no) rfl fun _ _ => rfl
  | cons a items ih =>
      have rest := ih fun a' mem => each a' (List.mem_cons_of_mem _ mem)
      simp only [List.mapM_cons, List.flatMap_cons, List.map_cons]
      exact (each a List.mem_cons_self).seq rest fun a' items' => List.flatMap_cons

end Substitutes

namespace Prepared

theorem placed_of_plain {e : EdnValue} {place : SlotPlace} (plain : ∀ name, e ≠ .bindSlot name) :
    e.placed place = e.slots.map fun name => (.inner, name) := by
  cases e with
  | bindSlot name => exact absurd rfl (plain name)
  | keyword _ | var _ | underscore | symbol _ | string _ | integer _ | float _ | boolean _ | uuid _
  | vector _ | list _ | map _ | nil => rfl

theorem inner_of_mem_slots {names : List String} : ∀ o ∈ names.map fun name => (SlotPlace.inner, name),
    o.1 = .inner := by
  intro o mem
  obtain ⟨name, _, rfl⟩ := List.mem_map.mp mem
  rfl

theorem placed_valueToEdn (v : Value) (place : SlotPlace) : (valueToEdn v).placed place = [] := by
  cases v <;> rfl

/-- A part that is no slot itself. -/
theorem plain_substitutes {e : EdnValue} {place : SlotPlace} (plain : ∀ name, e ≠ .bindSlot name)
    (filled : List (String × BindValue) → EdnValue)
    (own : ∀ bindings, ∃ f, filled bindings = e.fill f) :
    Substitutes (e.placed place) (EdnValue.placed place) (fun _ => .ok e) filled := by
  refine Substitutes.unchanged ?_ rfl fun none bindings => ?_
  · rw [placed_of_plain plain]
    exact inner_of_mem_slots
  · rw [placed_of_plain plain, List.map_eq_nil_iff] at none
    obtain ⟨f, same⟩ := own bindings
    rw [same, EdnValue.fill_of_slots_nil none]

theorem substituteEdnValue_spec {place : SlotPlace} (takes : ∀ v, place.takes v = (takeVal v).isSome)
    (outer : place ≠ .inner) (e : EdnValue) :
    Substitutes (e.placed place) (EdnValue.placed place) (fun bindings => substituteEdnValue bindings e)
      fun bindings => e.fill (valueAt (boundValue bindings)) := by
  cases e with
  | bindSlot name =>
      refine Substitutes.slot outer name (fun v => ?_) (fun v a taken => ?_) _ fun bindings v a bound taken => ?_
      · rw [takes, takeValue, Option.isSome_map]
      · obtain ⟨w, _, rfl⟩ := Option.map_eq_some_iff.mp taken
        exact placed_valueToEdn w place
      · rw [EdnValue.fill, valueAt, bound, Option.bind_some, taken, Option.getD_some]
  | keyword _ | var _ | underscore | symbol _ | string _ | integer _ | float _ | boolean _ | uuid _
  | vector _ | list _ | map _ | nil =>
      refine plain_substitutes ?_ _ fun bindings => ⟨valueAt (boundValue bindings), rfl⟩
      intro name no
      cases no

theorem substituteEntity_spec (e : EdnValue) :
    Substitutes (e.placed .entity) (EdnValue.placed .entity) (fun bindings => substituteEntity bindings e)
      fun bindings => e.fillAt (valueAt (boundValue bindings)) (entityAt (boundValue bindings)) := by
  cases e with
  | bindSlot name =>
      refine Substitutes.slot (by decide) name (fun v => rfl) (fun v a taken => ?_) _
        fun bindings v a bound taken => ?_
      · cases v <;> cases taken
        rfl
      · rw [EdnValue.fillAt, entityAt, bound, Option.bind_some, taken, Option.getD_some]
  | keyword _ | var _ | underscore | symbol _ | string _ | integer _ | float _ | boolean _ | uuid _
  | vector _ | list _ | map _ | nil =>
      refine plain_substitutes ?_ _ fun bindings => ⟨valueAt (boundValue bindings), rfl⟩
      intro name no
      cases no

theorem substitutePattern_spec (p : Pattern) : Substitutes p.occurrences Pattern.occurrences
    (fun bindings => substitutePattern bindings p) fun bindings => p.fill (boundValue bindings) := by
  have value := @substituteEdnValue_spec .value (fun _ => rfl) (by decide) p.value
  have attr : Substitutes p.attr.occurrences AttributeSpec.occurrences (fun _ => .ok p.attr)
      fun bindings => p.attr.fill (boundValue bindings) := by
    refine Substitutes.unchanged ?_ rfl fun none bindings => ?_
    · cases p.attr with
      | real edn => exact inner_of_mem_slots
      | pseudo _ => exact fun _ no => nomatch no
    · cases attr : p.attr with
      | real edn =>
          rw [attr, AttributeSpec.occurrences, List.map_eq_nil_iff] at none
          rw [AttributeSpec.fill, EdnValue.fill_of_slots_nil none]
      | pseudo _ => rfl
  have front : Substitutes _ (fun part : EdnValue × AttributeSpec => part.1.placed .entity ++ part.2.occurrences) _ _ :=
    (substituteEntity_spec p.entity).seq attr (c := fun entity attr => (entity, attr)) fun _ _ => rfl
  have parts : Substitutes _ Pattern.occurrences _ _ :=
    front.seq value (c := fun part value => ⟨part.1, part.2, value⟩) fun _ _ => rfl
  refine parts.of_run fun bindings => ?_
  rw [substitutePattern]
  cases substituteEntity bindings p.entity <;> rfl

theorem substituteExpr_spec (expr : Expr) : Substitutes expr.occurrences Expr.occurrences
    (fun bindings => substituteExpr bindings expr) fun bindings => expr.fill (boundValue bindings) := by
  induction expr with
  | slot name =>
      have resolved : Substitutes [(SlotPlace.expression, name)] (fun _ => []) (resolveSlot "expression" "Val" takeVal name)
          fun bindings => ((boundValue bindings name).bind takeVal).getD .null := by
        refine Substitutes.slot (by decide) name (fun v => rfl) (fun v a _ => rfl) _ fun bindings v a bound taken => ?_
        rw [bound, Option.bind_some, taken, Option.getD_some]
      refine (resolved.map (c := Expr.lit) fun _ => rfl).congr fun bindings fits => ?_
      obtain ⟨v, bound, takes⟩ := fits _ List.mem_cons_self (by simp)
      obtain ⟨a, taken⟩ := Option.isSome_iff_exists.mp takes
      have taken : takeVal v = some a := taken
      rw [Expr.fill, bound, Option.bind_some, taken]
      rfl
  | binOp op lhs rhs ihl ihr => exact ihl.seq ihr fun a b => rfl
  | unaryOp op arg ih => exact ih.map fun a => rfl
  | var v => exact Substitutes.unchanged (fun _ no => absurd no List.not_mem_nil) rfl fun _ _ => rfl
  | lit v => exact Substitutes.unchanged (fun _ no => absurd no List.not_mem_nil) rfl fun _ _ => rfl

mutual

theorem substituteWhereClause_spec : ∀ clause : WhereClause,
    Substitutes clause.occurrences WhereClause.occurrences
      (fun bindings => substituteWhereClause bindings clause) fun bindings => clause.fill (boundValue bindings)
  | .pattern p => (substitutePattern_spec p).map fun _ => rfl
  | .not inner => (substituteClauses_spec inner).map fun _ => rfl
  | .notJoin joinVars inner => (substituteClauses_spec inner).map fun _ => rfl
  | .or branches => (substituteBranches_spec branches).map fun _ => rfl
  | .orJoin joinVars branches => (substituteBranches_spec branches).map fun _ => rfl
  | .expr expr binding => (substituteExpr_spec expr).map fun _ => rfl
  | .ruleInvocation predicate args => (Substitutes.mapM args fun arg _ =>
      substituteEdnValue_spec (fun _ => rfl) (by decide) arg).map fun _ => rfl

theorem substituteClauses_spec : ∀ clauses : List WhereClause,
    Substitutes (bodyOccurrences clauses) bodyOccurrences
      (fun bindings => substituteClauses bindings clauses) fun bindings => fillBody (boundValue bindings) clauses
  | [] => Substitutes.unchanged (fun _ no => nomatch no) rfl fun _ _ => rfl
  | clause :: clauses =>
      (substituteWhereClause_spec clause).seq (substituteClauses_spec clauses) fun _ _ => rfl

theorem substituteBranches_spec : ∀ branches : List (List WhereClause),
    Substitutes (branchOccurrences branches) branchOccurrences
      (fun bindings => substituteBranches bindings branches)
      fun bindings => fillBranches (boundValue bindings) branches
  | [] => Substitutes.unchanged (fun _ no => nomatch no) rfl fun _ _ => rfl
  | branch :: branches => (substituteClauses_spec branch).seq (substituteBranches_spec branches) fun _ _ => rfl

end

theorem substituteAsOf_spec (asOf : Option AsOf) : Substitutes (asOfOccurrences asOf) asOfOccurrences
    (fun bindings => substituteAsOf bindings asOf) fun bindings => fillAsOf (boundValue bindings) asOf := by
  cases asOf with
  | none => exact Substitutes.unchanged (fun _ no => nomatch no) rfl fun _ _ => rfl
  | some selector =>
      cases selector with
      | slot name =>
          have resolved : Substitutes [(SlotPlace.asOf, name)] (fun a => asOfOccurrences (some a))
              (resolveSlot ":as-of" "TxCount or Timestamp" takeAsOf name)
              fun bindings => ((boundValue bindings name).bind takeAsOf).getD (.slot name) := by
            refine Substitutes.slot (by decide) name (fun v => rfl) (fun v a taken => ?_) _
              fun bindings v a bound taken => ?_
            · cases v <;> cases taken <;> rfl
            · rw [bound, Option.bind_some, taken, Option.getD_some]
          exact resolved.map fun _ => rfl
      | counter _ | timestamp _ => exact Substitutes.unchanged (fun _ no => nomatch no) rfl fun _ _ => rfl

theorem substituteValidAt_spec (validAt : Option ValidAt) :
    Substitutes (validAtOccurrences validAt) validAtOccurrences
      (fun bindings => substituteValidAt bindings validAt)
      fun bindings => fillValidAt (boundValue bindings) validAt := by
  cases validAt with
  | none => exact Substitutes.unchanged (fun _ no => nomatch no) rfl fun _ _ => rfl
  | some selector =>
      cases selector with
      | slot name =>
          have resolved : Substitutes [(SlotPlace.validAt, name)] (fun a => validAtOccurrences (some a))
              (resolveSlot ":valid-at" "Timestamp or AnyValidTime" takeValidAt name)
              fun bindings => ((boundValue bindings name).bind takeValidAt).getD (.slot name) := by
            refine Substitutes.slot (by decide) name (fun v => rfl) (fun v a taken => ?_) _
              fun bindings v a bound taken => ?_
            · cases v <;> cases taken <;> rfl
            · rw [bound, Option.bind_some, taken, Option.getD_some]
          exact resolved.map fun _ => rfl
      | timestamp _ | anyValidTime => exact Substitutes.unchanged (fun _ no => nomatch no) rfl fun _ _ => rfl

/-- The substitution of a whole template. -/
theorem substitute_spec (template : DatalogQuery) :
    Substitutes template.occurrences DatalogQuery.occurrences
      (fun bindings => substitute bindings template) fun bindings => template.fill (boundValue bindings) := by
  have clocks : Substitutes _ (fun part : Option AsOf × Option ValidAt =>
      asOfOccurrences part.1 ++ validAtOccurrences part.2) _ _ :=
    (substituteAsOf_spec template.asOf).seq (substituteValidAt_spec template.validAt)
      (c := fun asOf validAt => (asOf, validAt)) fun _ _ => rfl
  have parts : Substitutes _ DatalogQuery.occurrences _ _ :=
    clocks.seq (substituteClauses_spec template.whereClauses)
      (c := fun part whereClauses => { template with asOf := part.1, validAt := part.2, whereClauses := whereClauses })
      fun _ _ => rfl
  refine parts.of_run fun bindings => ?_
  rw [substitute]
  cases substituteAsOf bindings template.asOf with
  | error e => rfl
  | ok asOf => cases substituteValidAt bindings template.validAt <;> rfl

/-! ## The names of the slots -/

/-- A name of a slot outside vectors, lists and maps. -/
def Outer (os : List Occurrence) (name : String) : Prop := ∃ place, place ≠ SlotPlace.inner ∧ (place, name) ∈ os

theorem Outer.left {os os' : List Occurrence} {name : String} (h : Outer os name) : Outer (os ++ os') name :=
  h.imp fun _ ⟨outer, mem⟩ => ⟨outer, List.mem_append_left _ mem⟩

theorem Outer.right {os os' : List Occurrence} {name : String} (h : Outer os' name) : Outer (os ++ os') name :=
  h.imp fun _ ⟨outer, mem⟩ => ⟨outer, List.mem_append_right _ mem⟩

theorem eq_bindSlot {e : EdnValue} {name : String} (own : e.slot? = some name) : e = .bindSlot name := by
  cases e <;> cases own
  rfl

theorem placed_slot {e : EdnValue} {name : String} (own : name ∈ e.slot?.toList) (place : SlotPlace) :
    (place, name) ∈ e.placed place := by
  rw [Option.mem_toList] at own
  rw [eq_bindSlot own]
  exact List.mem_cons_self

theorem collectExpr_outer {expr : Expr} {name : String} (mem : name ∈ collectSlotsFromExpr expr) :
    Outer expr.occurrences name := by
  induction expr with
  | slot own =>
      rw [collectSlotsFromExpr, List.mem_singleton] at mem
      rw [mem]
      exact ⟨.expression, by decide, List.mem_cons_self⟩
  | binOp op lhs rhs ihl ihr =>
      cases List.mem_append.mp mem with
      | inl mem => exact (ihl mem).left
      | inr mem => exact (ihr mem).right
  | unaryOp op arg ih => exact ih mem
  | var v => cases mem
  | lit v => cases mem

theorem validate_append {x y : Except PreparedError Unit} (h : (do x; y) = .ok ()) : x = .ok () ∧ y = .ok () := by
  cases x with
  | error e => cases h
  | ok _ => exact ⟨rfl, h⟩

mutual

theorem collectClause_outer : ∀ (clause : WhereClause), validateClause clause = .ok () →
    ∀ name ∈ collectSlotsFromClause clause, Outer clause.occurrences name
  | .pattern p, valid, name, mem => by
      rw [validateClause] at valid
      rcases List.mem_append.mp mem with mem | mem
      · rcases List.mem_append.mp mem with mem | mem
        · exact Outer.left (Outer.left ⟨.entity, by decide, placed_slot mem _⟩)
        · cases attr : p.attr with
          | pseudo _ =>
              rw [attr] at mem
              cases mem
          | real edn =>
              rw [attr, collectAttribute, Option.mem_toList] at mem
              rw [attr, eq_bindSlot mem] at valid
              cases valid
      · exact Outer.right ⟨.value, by decide, placed_slot mem _⟩
  | .not inner, valid, name, mem => collectClauses_outer inner valid name mem
  | .notJoin _ inner, valid, name, mem => collectClauses_outer inner valid name mem
  | .or branches, valid, name, mem => collectBranches_outer branches valid name mem
  | .orJoin _ branches, valid, name, mem => collectBranches_outer branches valid name mem
  | .expr _ _, _, _, mem => collectExpr_outer mem
  | .ruleInvocation _ args, _, name, mem => by
      obtain ⟨arg, own, slot⟩ := List.mem_filterMap.mp mem
      refine ⟨.argument, by decide, List.mem_flatMap.mpr ⟨arg, own, ?_⟩⟩
      exact placed_slot (Option.mem_toList.mpr slot) _

theorem collectClauses_outer : ∀ (clauses : List WhereClause), validateClausesNoAttrSlots clauses = .ok () →
    ∀ name ∈ collectSlotsFromClauses clauses, Outer (bodyOccurrences clauses) name
  | [], _, _, mem => nomatch mem
  | clause :: clauses, valid, name, mem => by
      obtain ⟨here, rest⟩ := validate_append valid
      rcases List.mem_append.mp mem with mem | mem
      · exact (collectClause_outer clause here name mem).left
      · exact (collectClauses_outer clauses rest name mem).right

theorem collectBranches_outer : ∀ (branches : List (List WhereClause)), validateBranches branches = .ok () →
    ∀ name ∈ collectSlotsFromBranches branches, Outer (branchOccurrences branches) name
  | [], _, _, mem => nomatch mem
  | branch :: branches, valid, name, mem => by
      obtain ⟨here, rest⟩ := validate_append valid
      rcases List.mem_append.mp mem with mem | mem
      · exact (collectClauses_outer branch here name mem).left
      · exact (collectBranches_outer branches rest name mem).right

end

theorem collectSlotNames_outer {template : DatalogQuery}
    (valid : validateClausesNoAttrSlots template.whereClauses = .ok ()) {name : String}
    (mem : name ∈ collectSlotNames template) : Outer template.occurrences name := by
  rw [collectSlotNames, List.mem_insertionSort, List.mem_dedup] at mem
  rcases List.mem_append.mp mem with mem | mem
  · rcases List.mem_append.mp mem with mem | mem
    · refine Outer.left (Outer.left ⟨.asOf, by decide, ?_⟩)
      cases asOf : template.asOf with
      | none =>
          rw [asOf] at mem
          cases mem
      | some selector =>
          rw [asOf] at mem
          cases selector with
          | slot own => exact List.mem_singleton.mpr (congrArg _ (List.mem_singleton.mp mem))
          | counter _ | timestamp _ => cases mem
    · refine Outer.left (Outer.right ⟨.validAt, by decide, ?_⟩)
      cases validAt : template.validAt with
      | none =>
          rw [validAt] at mem
          cases mem
      | some selector =>
          rw [validAt] at mem
          cases selector with
          | slot own => exact List.mem_singleton.mpr (congrArg _ (List.mem_singleton.mp mem))
          | timestamp _ | anyValidTime => cases mem
  · exact (collectClauses_outer _ valid name mem).right

end Prepared

theorem prepareQuery_ok {template : DatalogQuery} {pq : PreparedQuery} (prepared : prepareQuery template = .ok pq) :
    Prepared.validateClausesNoAttrSlots template.whereClauses = .ok () ∧
      pq = ⟨template, Prepared.collectSlotNames template⟩ := by
  rw [prepareQuery] at prepared
  cases valid : Prepared.validateClausesNoAttrSlots template.whereClauses with
  | error e =>
      rw [valid] at prepared
      cases prepared
  | ok _ =>
      rw [valid] at prepared
      cases prepared
      exact ⟨rfl, rfl⟩

/-- Executing a prepared query: the check for missing values changes the error alone. -/
theorem PreparedQuery.filledQuery_spec {template : DatalogQuery} {pq : PreparedQuery}
    (prepared : prepareQuery template = .ok pq) :
    Substitutes template.occurrences DatalogQuery.occurrences pq.filledQuery
      fun bindings => template.fill (boundValue bindings) := by
  obtain ⟨valid, rfl⟩ := prepareQuery_ok prepared
  have spec := Prepared.substitute_spec template
  refine ⟨fun bindings fits => ?_, fun bindings unfit => ?_, fun bindings bindings' same => ?_⟩
  · have bound : (Prepared.collectSlotNames template).find? (fun name => (boundValue bindings name).isNone) = none := by
      rw [List.find?_eq_none]
      intro name mem
      obtain ⟨place, outer, own⟩ := Prepared.collectSlotNames_outer valid mem
      obtain ⟨value, bound, _⟩ := fits _ own outer
      rw [bound]
      exact Bool.false_ne_true
    simp only [filledQuery, bound]
    exact spec.ok bindings fits
  · simp only [filledQuery]
    cases (Prepared.collectSlotNames template).find? fun name => (boundValue bindings name).isNone with
    | some name => exact ⟨_, rfl⟩
    | none => exact spec.fails bindings unfit
  · have names : (Prepared.collectSlotNames template).find? (fun name => (boundValue bindings name).isNone) =
        (Prepared.collectSlotNames template).find? fun name => (boundValue bindings' name).isNone := by
      refine List.find?_congr fun name mem => ?_
      obtain ⟨place, _, own⟩ := Prepared.collectSlotNames_outer valid mem
      rw [same _ own]
    simp only [filledQuery, names, spec.reads bindings bindings' same]

end Minigraf
