import Mathlib.Data.Finset.Card
import Mathlib.Logic.Relation

/-!
Walks along a partial successor function. A walk over finitely many places ends exactly if it
meets no cycle.
-/

namespace Walk

variable {α : Type} (next : α → Option α)

def Step (a b : α) : Prop := next a = some b

def Reaches : α → α → Prop := Relation.ReflTransGen (Step next)

/-- The walk from here stops before it has made so many steps. -/
def Within : Nat → α → Prop
  | 0, _ => False
  | n + 1, a => ∀ b, next a = some b → Within n b

/-- The walk from here comes to a place it returns to. -/
def Circular (a : α) : Prop := ∃ j, Reaches next a j ∧ Relation.TransGen (Step next) j j

variable {next}

theorem Circular.head {a b : α} (step : next a = some b) (h : Circular next b) : Circular next a := by
  obtain ⟨j, reaches, cycle⟩ := h
  exact ⟨j, .head step reaches, cycle⟩

theorem Within.step {n : Nat} {a b : α} (h : Within next n a) (step : next a = some b) :
    ∃ m, m < n ∧ Within next m b := by
  cases n with
  | zero => exact h.elim
  | succ n => exact ⟨n, Nat.lt_succ_self n, h b step⟩

theorem Within.reaches {n : Nat} {a b : α} (h : Within next n a) (reaches : Reaches next a b) :
    ∃ m, m ≤ n ∧ Within next m b := by
  induction reaches with
  | refl => exact ⟨n, le_rfl, h⟩
  | tail _ step ih =>
      obtain ⟨m, le, before⟩ := ih
      obtain ⟨k, less, after⟩ := before.step step
      exact ⟨k, less.le.trans le, after⟩

theorem Within.transGen {n : Nat} {a b : α} (h : Within next n a) (path : Relation.TransGen (Step next) a b) :
    ∃ m, m < n ∧ Within next m b := by
  obtain ⟨c, step, reaches⟩ := Relation.TransGen.head'_iff.mp path
  obtain ⟨m, less, here⟩ := h.step step
  obtain ⟨k, le, there⟩ := here.reaches reaches
  exact ⟨k, le.trans_lt less, there⟩

/-- A walk has one end. -/
theorem Reaches.end_unique {a b c : α} (h : Reaches next a b) (stop : next b = none) (h' : Reaches next a c)
    (stop' : next c = none) : b = c := by
  induction h using Relation.ReflTransGen.head_induction_on with
  | refl =>
      obtain same | ⟨d, step, -⟩ := Relation.ReflTransGen.cases_head h'
      · exact same
      · rw [Step, stop] at step
        cases step
  | head step _ ih =>
      obtain rfl | ⟨d, step', later⟩ := Relation.ReflTransGen.cases_head h'
      · rw [Step, stop'] at step
        cases step
      · rw [Step, step', Option.some.injEq] at step
        exact ih (step ▸ later)

/-- A place the walk returns to is never left behind. -/
theorem not_within_of_cycle {j : α} (cycle : Relation.TransGen (Step next) j j) (n : Nat) :
    ¬ Within next n j := by
  induction n using Nat.strong_induction_on with
  | _ n ih =>
      intro within
      obtain ⟨m, less, again⟩ := within.transGen cycle
      exact ih m less again

theorem Within.not_circular {n : Nat} {a : α} (h : Within next n a) : ¬ Circular next a := by
  rintro ⟨j, reaches, cycle⟩
  obtain ⟨m, -, here⟩ := h.reaches reaches
  exact not_within_of_cycle cycle m here

/-- Where the walk meets no cycle, it steps from each place once. -/
theorem within_of_not_circular [DecidableEq α] {n : Nat} {places : Finset α} (few : places.card ≤ n) {a : α}
    (inside : ∀ b c, Reaches next a b → next b = some c → b ∈ places) (free : ¬ Circular next a) :
    Within next (n + 1) a := by
  induction n generalizing places a with
  | zero =>
      intro b step
      have here := inside a b .refl step
      rw [Finset.card_eq_zero.mp (Nat.le_zero.mp few)] at here
      cases here
  | succ n ih =>
      intro b step
      have here := inside a b .refl step
      refine @ih (places.erase a) ?_ b (fun c d reaches later => ?_) fun circular => free (circular.head step)
      · rw [Finset.card_erase_of_mem here]
        omega
      · refine Finset.mem_erase.mpr ⟨?_, inside c d (.head step reaches) later⟩
        rintro rfl
        exact free ⟨c, .refl, .head' step reaches⟩

end Walk
