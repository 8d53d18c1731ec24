import Mathlib.Order.Defs.Unbundled
import Minigraf.Lib.Wp

/-!
Programs that only move the state along a preorder. `Moves R x Q` says that whatever `x`
is started in, the state it ends in is related to the one it started in, also when it
fails, and that a value it returns satisfies `Q`. With `R` the equality of an observation
this is a frame rule.
-/

namespace EStateM

variable {ε σ α β : Type} {R : σ → σ → Prop}

def Moves (R : σ → σ → Prop) (x : EStateM ε σ α) (Q : α → Prop) : Prop :=
  ∀ s, Wp x s (fun a t => R s t ∧ Q a) (fun _ t => R s t)

theorem moves_modify {f : σ → σ} (h : ∀ s, R s (f s)) :
    Moves R (modify f : EStateM ε σ PUnit) fun _ => True :=
  fun s => ⟨h s, trivial⟩

theorem Moves.mono {x : EStateM ε σ α} {Q Q' : α → Prop} (h : Moves R x Q) (imp : ∀ a, Q a → Q' a) :
    Moves R x Q' :=
  fun s => (h s).mono (fun a _ post => ⟨post.1, imp a post.2⟩) fun _ _ post => post

theorem moves_ite {c : Prop} [Decidable c] {x y : EStateM ε σ α} {Q : α → Prop}
    (hx : c → Moves R x Q) (hy : ¬ c → Moves R y Q) : Moves R (if c then x else y) Q := by
  split
  · exact hx ‹c›
  · exact hy ‹¬ c›

theorem Moves.wp {x : EStateM ε σ α} {Q : α → Prop} (h : Moves R x Q) (s : σ) :
    Wp x s (fun _ t => R s t) (fun _ t => R s t) :=
  (h s).mono (fun _ _ post => post.1) fun _ _ post => post

section Preorder

variable [IsPreorder σ R]

theorem moves_pure {Q : α → Prop} {a : α} (h : Q a) : Moves R (pure a : EStateM ε σ α) Q :=
  fun s => ⟨refl_of R s, h⟩

theorem moves_throw {Q : α → Prop} (e : ε) : Moves R (throw e : EStateM ε σ α) Q :=
  fun s => refl_of R s

theorem moves_get : Moves R (get : EStateM ε σ σ) fun _ => True :=
  fun s => ⟨refl_of R s, trivial⟩

theorem moves_ofResult (r : Except ε α) : Moves R (ofResult r : EStateM ε σ α) fun a => r = .ok a := by
  intro s
  refine wp_ofResult ?_ ?_
  · intro a h
    exact ⟨refl_of R s, h⟩
  · intro _ _
    exact refl_of R s

theorem Moves.bind {x : EStateM ε σ β} {f : β → EStateM ε σ α} {Q : β → Prop} {Q' : α → Prop}
    (h : Moves R x Q) (next : ∀ b, Q b → Moves R (f b) Q') : Moves R (x >>= f) Q' := by
  intro s
  rw [wp_bind]
  refine (h s).mono ?_ fun _ _ moved => moved
  rintro b t ⟨moved, post⟩
  refine (next b post t).mono ?_ ?_
  · rintro a u ⟨moved', post'⟩
    exact ⟨trans_of R moved moved', post'⟩
  · intro _ u moved'
    exact trans_of R moved moved'

end Preorder
end EStateM
