import Mathlib.Data.List.Forall2

/-!
Lists related element by element: fallible results, where every element succeeds and
what a success says of the elements, folds that may fail, and lists cut into consecutive
parts.
-/

namespace List

variable {ε α β : Type}

theorem mapM_ok {l : List α} {f : α → Except ε β} {g : α → β} (h : ∀ a ∈ l, f a = .ok (g a)) :
    l.mapM f = .ok (l.map g) := by
  induction l with
  | nil => rfl
  | cons a l ih =>
      rw [mapM_cons, h a mem_cons_self, ih fun b hb => h b (mem_cons_of_mem a hb)]
      rfl

theorem forM_ok {l : List α} {f : α → Except ε PUnit} (h : ∀ a ∈ l, f a = .ok ⟨⟩) :
    l.forM f = .ok ⟨⟩ := by
  induction l with
  | nil => rfl
  | cons a l ih =>
      rw [List.forM, h a mem_cons_self]
      exact ih fun b hb => h b (mem_cons_of_mem a hb)

theorem of_forM_ok {l : List α} {f : α → Except ε PUnit} (h : l.forM f = .ok ⟨⟩) {a : α} (ha : a ∈ l) :
    f a = .ok ⟨⟩ := by
  induction l with
  | nil => cases ha
  | cons b l ih =>
      rw [List.forM] at h
      cases hb : f b with
      | error e =>
          rw [hb] at h
          cases h
      | ok _ =>
          rw [hb] at h
          obtain rfl | ha := mem_cons.mp ha
          · exact hb
          · exact ih h ha

theorem mapM_congr {l : List α} {f g : α → Except ε β} (h : ∀ a ∈ l, f a = g a) : l.mapM f = l.mapM g := by
  induction l with
  | nil => rfl
  | cons a l ih => rw [mapM_cons, mapM_cons, h a mem_cons_self, ih fun b hb => h b (mem_cons_of_mem a hb)]

theorem exists_mapM_ok {l : List α} {f : α → Except ε β} (h : ∀ a ∈ l, ∃ b, f a = .ok b) :
    ∃ bs, l.mapM f = .ok bs := by
  induction l with
  | nil => exact ⟨[], rfl⟩
  | cons a l ih =>
      obtain ⟨b, hb⟩ := h a mem_cons_self
      obtain ⟨bs, hbs⟩ := ih fun c hc => h c (mem_cons_of_mem a hc)
      exact ⟨b :: bs, by rw [mapM_cons, hb, hbs]; rfl⟩

theorem mapM_cons_eq_ok {a : α} {l : List α} {f : α → Except ε β} {r : List β}
    (h : (a :: l).mapM f = .ok r) :
    ∃ b bs, f a = .ok b ∧ l.mapM f = .ok bs ∧ r = b :: bs := by
  rw [mapM_cons] at h
  cases ha : f a with
  | error e =>
      rw [ha] at h
      cases h
  | ok b =>
      cases hl : l.mapM f with
      | error e =>
          rw [ha, hl] at h
          cases h
      | ok bs =>
          rw [ha, hl] at h
          cases h
          exact ⟨b, bs, rfl, rfl, rfl⟩

theorem forall₂_of_mapM_ok {l : List α} {f : α → Except ε β} {r : List β}
    (h : l.mapM f = .ok r) : Forall₂ (fun a b => f a = .ok b) l r := by
  induction l generalizing r with
  | nil =>
      cases h
      exact .nil
  | cons a l ih =>
      obtain ⟨b, bs, hb, hbs, rfl⟩ := mapM_cons_eq_ok h
      exact .cons hb (ih hbs)

theorem Forall₂.exists_right {R : α → β → Prop} {l : List α} {r : List β} (h : Forall₂ R l r) {a : α}
    (ha : a ∈ l) : ∃ b ∈ r, R a b := by
  induction h with
  | nil => cases ha
  | @cons a' b l r here _ ih =>
      obtain rfl | ha := mem_cons.mp ha
      · exact ⟨b, mem_cons_self, here⟩
      · obtain ⟨c, hc, hr⟩ := ih ha
        exact ⟨c, mem_cons_of_mem b hc, hr⟩

/-- Every result comes from an element. -/
theorem exists_of_mapM_ok {l : List α} {f : α → Except ε β} {r : List β} (h : l.mapM f = .ok r)
    {b : β} (hb : b ∈ r) : ∃ a ∈ l, f a = .ok b :=
  (forall₂_of_mapM_ok h).flip.exists_right hb

theorem Forall₂.split_append {R : α → β → Prop} {l l' : List α} {r : List β}
    (h : Forall₂ R (l ++ l') r) : ∃ a b, r = a ++ b ∧ Forall₂ R l a ∧ Forall₂ R l' b := by
  induction l generalizing r with
  | nil => exact ⟨[], r, rfl, .nil, h⟩
  | cons x l ih =>
      cases h with
      | cons hx rest =>
          obtain ⟨a, b, rfl, ha, hb⟩ := ih rest
          exact ⟨_ :: a, b, rfl, .cons hx ha, hb⟩

/-- A relation over a list cut into parts is cut with it. -/
theorem Forall₂.split_flatMap {γ : Type} {R : α → β → Prop} {f : γ → List α} {gs : List γ}
    {r : List β} (h : Forall₂ R (gs.flatMap f) r) :
    ∃ rs : List (List β), r = rs.flatten ∧ Forall₂ (fun g part => Forall₂ R (f g) part) gs rs := by
  induction gs generalizing r with
  | nil =>
      cases h
      exact ⟨[], rfl, .nil⟩
  | cons g gs ih =>
      rw [flatMap_cons] at h
      obtain ⟨a, b, rfl, ha, hb⟩ := h.split_append
      obtain ⟨rs, rfl, hrs⟩ := ih hb
      exact ⟨a :: rs, rfl, .cons ha hrs⟩

/-- Two lists of results whose origins are related are related. -/
theorem Forall₂.square {α' β' : Type} {R : α → β → Prop} {S : α → α' → Prop} {R' : α' → β' → Prop}
    {T : β → β' → Prop} {l : List α} {r : List β} {l' : List α'} {r' : List β'} (h : Forall₂ R l r)
    (origins : Forall₂ S l l') (h' : Forall₂ R' l' r')
    (side : ∀ a b a' b', R a b → S a a' → R' a' b' → T b b') : Forall₂ T r r' := by
  induction h generalizing l' r' with
  | nil =>
      cases origins
      cases h'
      exact .nil
  | cons here _ ih =>
      cases origins with
      | cons same origins =>
          cases h' with
          | cons here' h' => exact .cons (side _ _ _ _ here same here') (ih origins h')

/-- The results that are there are those of the elements that give one. -/
theorem Forall₂.filterMap_id {R : α → Option β → Prop} {p : α → Bool} {l : List α} {r : List (Option β)}
    (h : Forall₂ R l r) (given : ∀ a o, R a o → (p a = true ↔ o.isSome = true)) :
    Forall₂ (fun a b => R a (some b)) (l.filter p) (r.filterMap id) := by
  induction h with
  | nil => exact .nil
  | @cons a o l r here _ ih =>
      have known := given a o here
      cases o with
      | none =>
          rw [filter_cons_of_neg (by simp [known])]
          exact ih
      | some b =>
          rw [filter_cons_of_pos (by simp [known])]
          exact .cons here ih

/-! ## Folds -/

section

variable {σ : Type}

theorem foldlM_cons_ok {a : α} {l : List α} {f : σ → α → Except ε σ} {s s' : σ} (h : f s a = .ok s') :
    (a :: l).foldlM f s = l.foldlM f s' := by
  rw [foldlM_cons, h]
  rfl

theorem foldlM_cons_error {a : α} {l : List α} {f : σ → α → Except ε σ} {s : σ} {e : ε}
    (h : f s a = .error e) : (a :: l).foldlM f s = .error e := by
  rw [foldlM_cons, h]
  rfl

/-- An element that fails in every state makes the fold fail. -/
theorem exists_foldlM_error {l : List α} {f : σ → α → Except ε σ} {a : α} (ha : a ∈ l)
    (fails : ∀ s, ∃ e, f s a = .error e) (s : σ) : ∃ e, l.foldlM f s = .error e := by
  induction l generalizing s with
  | nil => cases ha
  | cons b l ih =>
      cases step : f s b with
      | error e => exact ⟨e, foldlM_cons_error step⟩
      | ok s' =>
          rw [foldlM_cons_ok step]
          cases mem_cons.mp ha with
          | inl same =>
              obtain ⟨e, failed⟩ := fails s
              rw [same, step] at failed
              cases failed
          | inr later => exact ih later s'

/-- An invariant under which no element fails holds of the result. -/
theorem foldlM_invariant {l : List α} {f : σ → α → Except ε σ} (I : σ → Prop)
    (step : ∀ a ∈ l, ∀ s, I s → ∃ s', f s a = .ok s' ∧ I s') {s : σ} (start : I s) :
    ∃ s', l.foldlM f s = .ok s' ∧ I s' := by
  induction l generalizing s with
  | nil => exact ⟨s, rfl, start⟩
  | cons a l ih =>
      obtain ⟨s', ran, kept⟩ := step a mem_cons_self s start
      rw [foldlM_cons_ok ran]
      exact ih (fun b hb => step b (mem_cons_of_mem a hb)) kept

/-- A fold fails with the error of an element. -/
theorem of_foldlM_error {l : List α} {f : σ → α → Except ε σ} {s : σ} {e : ε}
    (h : l.foldlM f s = .error e) : ∃ a ∈ l, ∃ s, f s a = .error e := by
  induction l generalizing s with
  | nil => cases h
  | cons a l ih =>
      cases step : f s a with
      | error e' =>
          rw [foldlM_cons_error step] at h
          exact ⟨a, mem_cons_self, s, by rw [step, h]⟩
      | ok s' =>
          rw [foldlM_cons_ok step] at h
          obtain ⟨b, hb, s'', failed⟩ := ih h
          exact ⟨b, mem_cons_of_mem a hb, s'', failed⟩

end

end List
