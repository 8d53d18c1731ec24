import Minigraf.Graph.Types

/-!
`EdnValue` of `src/query/datalog/types.rs`.

A symbol is kept apart by what the code asks of its first characters: `?name` and
`?_name` are variables, `_` is the wildcard, any other symbol stands for itself.
-/

namespace Minigraf

/-- A logic variable: `?name`, or `?_name`, which a pattern never binds. -/
inductive Var where
  | named (name : String)
  | anon (name : String)
  deriving DecidableEq, Repr

inductive EdnValue where
  | keyword (k : String)
  | var (v : Var)
  | underscore
  | symbol (s : String)
  | string (s : String)
  | integer (i : Int64)
  | float (f : F64)
  | boolean (b : Bool)
  | uuid (id : EntityId)
  | vector (items : List EdnValue)
  | list (items : List EdnValue)
  | map (entries : List (EdnValue × EdnValue))
  | nil
  | bindSlot (name : String)
  deriving Repr

def EdnValue.asVariable : EdnValue → Option Var
  | .var v => some v
  | _ => none

/-- The text of a symbol, of a variable or the wildcard too. -/
def EdnValue.asSymbol : EdnValue → Option String
  | .symbol s => some s
  | .underscore => some "_"
  | .var (.named name) => some ("?" ++ name)
  | .var (.anon name) => some ("?_" ++ name)
  | _ => none

def EdnValue.isVariable (e : EdnValue) : Bool := e.asVariable.isSome

/-! ## Equality -/

mutual

def EdnValue.same : EdnValue → EdnValue → Bool
  | .keyword k, .keyword l => decide (k = l)
  | .var v, .var w => decide (v = w)
  | .underscore, .underscore => true
  | .symbol s, .symbol t => decide (s = t)
  | .string s, .string t => decide (s = t)
  | .integer i, .integer j => decide (i = j)
  | .float f, .float g => decide (f = g)
  | .boolean b, .boolean c => decide (b = c)
  | .uuid x, .uuid y => decide (x = y)
  | .vector es, .vector es' => EdnValue.sameItems es es'
  | .list es, .list es' => EdnValue.sameItems es es'
  | .map es, .map es' => EdnValue.sameEntries es es'
  | .nil, .nil => true
  | .bindSlot n, .bindSlot n' => decide (n = n')
  | _, _ => false

def EdnValue.sameItems : List EdnValue → List EdnValue → Bool
  | [], [] => true
  | e :: es, e' :: es' => e.same e' && EdnValue.sameItems es es'
  | _, _ => false

def EdnValue.sameEntries : List (EdnValue × EdnValue) → List (EdnValue × EdnValue) → Bool
  | [], [] => true
  | (k, v) :: es, (k', v') :: es' => k.same k' && v.same v' && EdnValue.sameEntries es es'
  | _, _ => false

end

mutual

theorem EdnValue.eq_of_same : ∀ (e e' : EdnValue), e.same e' = true → e = e'
  | .vector es, e', h => by
      cases e' <;> first
        | exact congrArg _ (EdnValue.eq_of_sameItems es _ h)
        | exact absurd h Bool.false_ne_true
  | .list es, e', h => by
      cases e' <;> first
        | exact congrArg _ (EdnValue.eq_of_sameItems es _ h)
        | exact absurd h Bool.false_ne_true
  | .map es, e', h => by
      cases e' <;> first
        | exact congrArg _ (EdnValue.eq_of_sameEntries es _ h)
        | exact absurd h Bool.false_ne_true
  | .keyword _, e', h | .var _, e', h | .symbol _, e', h | .string _, e', h | .integer _, e', h
  | .float _, e', h | .boolean _, e', h | .uuid _, e', h | .bindSlot _, e', h => by
      cases e' <;> first
        | exact congrArg _ (of_decide_eq_true h)
        | exact absurd h Bool.false_ne_true
  | .underscore, e', h | .nil, e', h => by
      cases e' <;> first
        | rfl
        | exact absurd h Bool.false_ne_true

theorem EdnValue.eq_of_sameItems : ∀ (es es' : List EdnValue), EdnValue.sameItems es es' = true → es = es'
  | [], [], _ => rfl
  | [], _ :: _, h => absurd h Bool.false_ne_true
  | _ :: _, [], h => absurd h Bool.false_ne_true
  | e :: es, e' :: es', h => by
      have ⟨here, rest⟩ := (Bool.and_eq_true_iff).mp h
      rw [EdnValue.eq_of_same e e' here, EdnValue.eq_of_sameItems es es' rest]

theorem EdnValue.eq_of_sameEntries : ∀ (es es' : List (EdnValue × EdnValue)),
    EdnValue.sameEntries es es' = true → es = es'
  | [], [], _ => rfl
  | [], _ :: _, h => absurd h Bool.false_ne_true
  | _ :: _, [], h => absurd h Bool.false_ne_true
  | (k, v) :: es, (k', v') :: es', h => by
      have ⟨here, rest⟩ := (Bool.and_eq_true_iff).mp h
      have ⟨key, value⟩ := (Bool.and_eq_true_iff).mp here
      rw [EdnValue.eq_of_same k k' key, EdnValue.eq_of_same v v' value, EdnValue.eq_of_sameEntries es es' rest]

end

mutual

theorem EdnValue.same_self : ∀ e : EdnValue, e.same e = true
  | .vector es => EdnValue.sameItems_self es
  | .list es => EdnValue.sameItems_self es
  | .map es => EdnValue.sameEntries_self es
  | .keyword _ | .var _ | .symbol _ | .string _ | .integer _ | .float _ | .boolean _ | .uuid _
  | .bindSlot _ => decide_eq_true rfl
  | .underscore | .nil => rfl

theorem EdnValue.sameItems_self : ∀ es : List EdnValue, EdnValue.sameItems es es = true
  | [] => rfl
  | e :: es => Bool.and_eq_true_iff.mpr ⟨EdnValue.same_self e, EdnValue.sameItems_self es⟩

theorem EdnValue.sameEntries_self : ∀ es : List (EdnValue × EdnValue), EdnValue.sameEntries es es = true
  | [] => rfl
  | (k, v) :: es => Bool.and_eq_true_iff.mpr ⟨Bool.and_eq_true_iff.mpr
      ⟨EdnValue.same_self k, EdnValue.same_self v⟩, EdnValue.sameEntries_self es⟩

end

instance : DecidableEq EdnValue := fun e e' =>
  decidable_of_iff (e.same e' = true) ⟨EdnValue.eq_of_same e e', fun h => h ▸ e.same_self⟩

end Minigraf
