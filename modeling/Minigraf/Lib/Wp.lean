import Mathlib.Tactic.Basic

/-!
Weakest preconditions for programs with state and errors, where a failing program
keeps the state it had reached. `Wp x s Q E` says that `x`, started in `s`, ends in
`Q` when it returns and in `E` when it fails, so one statement covers the run that
succeeds and every run that is cut short.
-/

namespace EStateM

variable {ε σ α β : Type}

def Wp (x : EStateM ε σ α) (s : σ) (Q : α → σ → Prop) (E : ε → σ → Prop) : Prop :=
  match x s with
  | .ok a s' => Q a s'
  | .error e s' => E e s'

variable {Q : α → σ → Prop} {E : ε → σ → Prop} {s : σ}

@[simp] theorem wp_pure (a : α) : Wp (pure a : EStateM ε σ α) s Q E ↔ Q a s := Iff.rfl

@[simp] theorem wp_throw (e : ε) : Wp (throw e : EStateM ε σ α) s Q E ↔ E e s := Iff.rfl

@[simp] theorem wp_get {Q : σ → σ → Prop} : Wp (get : EStateM ε σ σ) s Q E ↔ Q s s := Iff.rfl

@[simp] theorem wp_set {Q : PUnit → σ → Prop} (t : σ) :
    Wp (set t : EStateM ε σ PUnit) s Q E ↔ Q ⟨⟩ t := Iff.rfl

@[simp] theorem wp_modify {Q : PUnit → σ → Prop} (f : σ → σ) :
    Wp (modify f : EStateM ε σ PUnit) s Q E ↔ Q ⟨⟩ (f s) := Iff.rfl

@[simp] theorem wp_modifyGet (f : σ → α × σ) :
    Wp (modifyGet f : EStateM ε σ α) s Q E ↔ Q (f s).1 (f s).2 := Iff.rfl

@[simp] theorem wp_bind (x : EStateM ε σ β) (f : β → EStateM ε σ α) :
    Wp (x >>= f) s Q E ↔ Wp x s (fun b t => Wp (f b) t Q E) E := by
  simp only [Wp, bind, EStateM.bind]
  cases x s with
  | ok b t => exact Iff.rfl
  | error e t => exact Iff.rfl

@[simp] theorem wp_map (f : β → α) (x : EStateM ε σ β) :
    Wp (f <$> x) s Q E ↔ Wp x s (fun b t => Q (f b) t) E := by
  simp only [Wp, Functor.map, EStateM.map]
  cases x s with
  | ok b t => exact Iff.rfl
  | error e t => exact Iff.rfl

/-- What reading the state returns. -/
theorem get_at (s : σ) : (EStateM.get : EStateM ε σ σ) s = .ok s s := rfl

theorem modifyGet_at (f : σ → α × σ) (s : σ) : (EStateM.modifyGet f : EStateM ε σ α) s = .ok (f s).1 (f s).2 := rfl

theorem Wp.mono {x : EStateM ε σ α} {Q' : α → σ → Prop} {E' : ε → σ → Prop}
    (h : Wp x s Q E) (hQ : ∀ a t, Q a t → Q' a t) (hE : ∀ e t, E e t → E' e t) :
    Wp x s Q' E' := by
  unfold Wp at h ⊢
  cases hx : x s with
  | ok a t =>
      rw [hx] at h
      exact hQ a t h
  | error e t =>
      rw [hx] at h
      exact hE e t h

theorem Wp.post {x : EStateM ε σ α} {Q' : α → σ → Prop} (h : Wp x s Q E)
    (hQ : ∀ a t, Q a t → Q' a t) : Wp x s Q' E :=
  h.mono hQ fun _ _ he => he

theorem Wp.and {x : EStateM ε σ α} {Q' : α → σ → Prop} {E' : ε → σ → Prop}
    (h : Wp x s Q E) (h' : Wp x s Q' E') :
    Wp x s (fun a t => Q a t ∧ Q' a t) (fun e t => E e t ∧ E' e t) := by
  unfold Wp at h h' ⊢
  cases hx : x s with
  | ok a t =>
      rw [hx] at h h'
      exact ⟨h, h'⟩
  | error e t =>
      rw [hx] at h h'
      exact ⟨h, h'⟩

/-- A program has one run, so what holds of it for every index holds for all at once. -/
theorem wp_forall {ι : Type} {x : EStateM ε σ α} {Q : ι → α → σ → Prop}
    {E : ι → ε → σ → Prop} (h : ∀ i, Wp x s (Q i) (E i)) :
    Wp x s (fun a t => ∀ i, Q i a t) (fun e t => ∀ i, E i e t) := by
  unfold Wp at h ⊢
  cases hx : x s with
  | ok a t =>
      intro i
      have := h i
      rwa [hx] at this
  | error e t =>
      intro i
      have := h i
      rwa [hx] at this

/-- What a program does is what it does. -/
theorem wp_self (x : EStateM ε σ α) (s : σ) : Wp x s (fun a t => x s = .ok a t) fun e t => x s = .error e t := by
  unfold Wp
  cases x s with
  | ok a t => rfl
  | error e t => rfl

theorem Wp.of_ok {x : EStateM ε σ α} (h : Wp x s Q E) {a : α} {t : σ} (hx : x s = .ok a t) :
    Q a t := by
  unfold Wp at h
  rwa [hx] at h

theorem Wp.of_error {x : EStateM ε σ α} (h : Wp x s Q E) {e : ε} {t : σ}
    (hx : x s = .error e t) : E e t := by
  unfold Wp at h
  rwa [hx] at h

/-- A program that cannot fail returns. -/
theorem Wp.exists_ok {x : EStateM ε σ α} (h : Wp x s Q fun _ _ => False) :
    ∃ a t, x s = .ok a t ∧ Q a t := by
  unfold Wp at h
  cases hx : x s with
  | ok a t =>
      rw [hx] at h
      exact ⟨a, t, rfl, h⟩
  | error e t =>
      rw [hx] at h
      exact h.elim

theorem wp_ite {c : Prop} [Decidable c] {x y : EStateM ε σ α} (hx : c → Wp x s Q E)
    (hy : ¬ c → Wp y s Q E) : Wp (if c then x else y) s Q E := by
  split
  · exact hx ‹c›
  · exact hy ‹¬ c›

/-- A result that needs no state. -/
def ofResult : Except ε α → EStateM ε σ α
  | .ok a => pure a
  | .error e => throw e

theorem wp_ofResult {r : Except ε α} (hok : ∀ a, r = .ok a → Q a s)
    (herr : ∀ e, r = .error e → E e s) : Wp (ofResult r) s Q E := by
  cases r with
  | ok a => exact hok a rfl
  | error e => exact herr e rfl

/-- A program over one part of a larger state. -/
def zoom {τ : Type} (part : σ → τ) (put : τ → σ → σ) (x : EStateM ε τ α) : EStateM ε σ α := fun s =>
  match x (part s) with
  | .ok a t => .ok a (put t s)
  | .error e t => .error e (put t s)

@[simp] theorem wp_zoom {τ : Type} (part : σ → τ) (put : τ → σ → σ) (x : EStateM ε τ α) :
    Wp (zoom part put x) s Q E ↔
      Wp x (part s) (fun a t => Q a (put t s)) (fun e t => E e (put t s)) := by
  simp only [Wp, zoom]
  cases x (part s) with
  | ok a t => exact Iff.rfl
  | error e t => exact Iff.rfl

/-- The state part of a result, whichever way the program ended. -/
def finalState : EStateM.Result ε σ α → σ
  | .ok _ s => s
  | .error _ s => s

theorem Wp.final {x : EStateM ε σ α} {P : σ → Prop} (h : Wp x s (fun _ t => P t) (fun _ t => P t)) :
    P (finalState (x s)) := by
  unfold Wp at h
  cases hx : x s with
  | ok a t =>
      rw [hx] at h
      exact h
  | error e t =>
      rw [hx] at h
      exact h

/-! ## Two runs -/

/-- Two runs end alike: both fail, or both return the same result in related states. -/
def Alike (x y : EStateM ε σ α) (s t : σ) (R : α → σ → σ → Prop) : Prop :=
  match x s, y t with
  | .ok a s', .ok b t' => a = b ∧ R a s' t'
  | .error _ _, .error _ _ => True
  | _, _ => False

variable {x y : EStateM ε σ α} {t : σ} {R : α → σ → σ → Prop}

theorem Alike.refl (h : ∀ a u, R a u u) : Alike x x s s R := by
  unfold Alike
  cases x s with
  | ok a u => exact ⟨rfl, h a u⟩
  | error e u => trivial

theorem alike_pure {a : α} (h : R a s t) : Alike (pure a : EStateM ε σ α) (pure a) s t R := ⟨rfl, h⟩

theorem alike_modify {R : PUnit → σ → σ → Prop} {f : σ → σ} (h : R ⟨⟩ (f s) (f t)) :
    Alike (modify f : EStateM ε σ PUnit) (modify f) s t R := ⟨rfl, h⟩

theorem alike_get {f : σ → EStateM ε σ α} (h : Alike (f s) (f t) s t R) :
    Alike (get >>= f) (get >>= f) s t R := h

theorem alike_ofResult {r : Except ε α} (h : ∀ a, r = .ok a → R a s t) :
    Alike (ofResult r) (ofResult r) s t R := by
  cases r with
  | ok a => exact ⟨rfl, h a rfl⟩
  | error e => trivial

theorem Alike.bind {f g : α → EStateM ε σ β} {R' : β → σ → σ → Prop} (h : Alike x y s t R)
    (next : ∀ a u v, R a u v → Alike (f a) (g a) u v R') : Alike (x >>= f) (y >>= g) s t R' := by
  unfold Alike at h
  simp only [Alike, Bind.bind, EStateM.bind]
  cases hx : x s with
  | ok a u =>
      cases hy : y t with
      | ok b v =>
          rw [hx, hy] at h
          obtain ⟨rfl, related⟩ := h
          exact next a u v related
      | error e v =>
          rw [hx, hy] at h
          exact h.elim
  | error e u =>
      cases hy : y t with
      | ok b v =>
          rw [hx, hy] at h
          exact h.elim
      | error e' v => trivial

theorem Alike.mono {R' : α → σ → σ → Prop} (h : Alike x y s t R) (weaken : ∀ a u v, R a u v → R' a u v) :
    Alike x y s t R' := by
  unfold Alike at h ⊢
  cases hx : x s <;> cases hy : y t <;> rw [hx, hy] at h
  · exact ⟨h.1, weaken _ _ _ h.2⟩
  · exact h
  · exact h
  · trivial

/-- What one run ends in, the other does, when they end in the same state. -/
theorem Alike.wp {Q : α → σ → Prop} {P : Prop} (h : Alike x y s t fun _ u v => u = v)
    (known : Wp y t Q fun _ _ => P) : Wp x s Q fun _ _ => P := by
  unfold Alike at h
  unfold Wp at known ⊢
  cases hx : x s <;> cases hy : y t <;> rw [hx, hy] at h <;> rw [hy] at known
  · obtain ⟨rfl, rfl⟩ := h
    exact known
  · exact h.elim
  · exact h.elim
  · exact known

end EStateM
