import Mathlib.Data.List.Basic

/-!
Greedy grouping: cut a list into consecutive groups, each taking elements for as
long as it is not full. A group always has a first element, so every group makes
progress however little room there is.
-/

namespace Greedy

variable {α σ : Type} (full : σ → α → Bool) (add : σ → α → σ)

/-- The elements that still join a group in state `acc`, and those that are left. -/
def fill (acc : σ) : List α → List α × List α
  | [] => ([], [])
  | a :: rest =>
      if full acc a then ([], a :: rest)
      else
        let (joined, left) := fill (add acc a) rest
        (a :: joined, left)

theorem fill_append (acc : σ) (l : List α) :
    (fill full add acc l).1 ++ (fill full add acc l).2 = l := by
  induction l generalizing acc with
  | nil => rfl
  | cons a rest ih =>
      rw [fill]
      split
      · rfl
      · simpa using ih (add acc a)

theorem length_fill (acc : σ) (l : List α) :
    (fill full add acc l).2.length ≤ l.length := by
  have split := congrArg List.length (fill_append full add acc l)
  rw [List.length_append] at split
  omega

/-- Whatever holds of a group as it starts, and of a group that takes one more element it
has room for, holds of the group when it is full. The elements that join may be known to
be of a kind. -/
theorem fill_joined {P : σ → Prop} {Q : α → Prop}
    (step : ∀ acc a, Q a → P acc → full acc a = false → P (add acc a)) {acc : σ} (start : P acc)
    {l : List α} (kind : ∀ a ∈ (fill full add acc l).1, Q a) :
    P ((fill full add acc l).1.foldl add acc) := by
  induction l generalizing acc with
  | nil => exact start
  | cons a rest ih =>
      rw [fill] at kind ⊢
      split at kind
      · rename_i closed
        rw [if_pos closed]
        exact start
      · rename_i room
        rw [if_neg room]
        exact ih (step acc a (kind a List.mem_cons_self) start (by simpa using room))
          fun b hb => kind b (List.mem_cons_of_mem a hb)

variable (start : α → σ)

def groups : List α → List (α × List α)
  | [] => []
  | a :: rest =>
      (a, (fill full add (start a) rest).1) :: groups (fill full add (start a) rest).2
  termination_by l => l.length
  decreasing_by
    have := length_fill full add (start a) rest
    simp only [List.length_cons]
    omega

/-- The elements of a group, in order. -/
def members (g : α × List α) : List α := g.1 :: g.2

theorem groups_flatMap (l : List α) : (groups full add start l).flatMap members = l := by
  induction l using groups.induct full add start with
  | case1 => simp [groups]
  | case2 a rest ih =>
      rw [groups, List.flatMap_cons, ih, members, List.cons_append, fill_append]

theorem groups_length_le (l : List α) : (groups full add start l).length ≤ l.length := by
  induction l using groups.induct full add start with
  | case1 => simp [groups]
  | case2 a rest ih =>
      have := length_fill full add (start a) rest
      rw [groups, List.length_cons, List.length_cons]
      omega

/-- When a group that has just started takes any element, grouping a list of two or
more elements takes at most half of it, rounded up. -/
theorem groups_length_half (open_ : ∀ a b, full (start a) b = false) (l : List α) :
    2 * (groups full add start l).length ≤ l.length + 1 := by
  induction l using groups.induct full add start with
  | case1 => simp [groups]
  | case2 a rest ih =>
      rw [groups, List.length_cons, List.length_cons]
      cases rest with
      | nil => simp [fill, groups]
      | cons b rest =>
          have taken : (fill full add (start a) (b :: rest)).2.length ≤ rest.length := by
            rw [fill, open_ a b]
            exact length_fill full add (add (start a) b) rest
          rw [List.length_cons]
          omega

/-- A group that is full stays as it is however long the list goes on. -/
theorem fill_append_left {acc : σ} {l : List α} (full_ : (fill full add acc l).2 ≠ []) (m : List α) :
    (fill full add acc (l ++ m)).2 = (fill full add acc l).2 ++ m := by
  induction l generalizing acc with
  | nil => exact absurd rfl full_
  | cons a rest ih =>
      rw [List.cons_append, fill, fill]
      rw [fill] at full_
      split
      · rfl
      · rename_i room
        rw [if_neg room] at full_
        exact ih full_

theorem groups_length_append (l m : List α) :
    (groups full add start l).length ≤ (groups full add start (l ++ m)).length := by
  induction l using groups.induct full add start with
  | case1 => simp [groups]
  | case2 a rest ih =>
      rw [List.cons_append, groups, groups, List.length_cons, List.length_cons]
      by_cases full_ : (fill full add (start a) rest).2 = []
      · rw [full_]
        simp [groups]
      · rw [fill_append_left full add full_]
        omega

theorem mem_of_mem_groups {l : List α} {g : α × List α} (hg : g ∈ groups full add start l) {a : α}
    (ha : a ∈ members g) : a ∈ l := by
  rw [← groups_flatMap full add start l]
  exact List.mem_flatMap.mpr ⟨g, hg, ha⟩

theorem groups_joined {P : σ → Prop} {Q : α → Prop} {l : List α} (begin_ : ∀ a ∈ l, P (start a))
    (step : ∀ acc a, Q a → P acc → full acc a = false → P (add acc a)) :
    ∀ g ∈ groups full add start l, (∀ a ∈ g.2, Q a) → P (g.2.foldl add (start g.1)) := by
  induction l using groups.induct full add start with
  | case1 => simp [groups]
  | case2 a rest ih =>
      intro g hg
      rw [groups, List.mem_cons] at hg
      obtain rfl | hg := hg
      · exact fill_joined full add step (begin_ a List.mem_cons_self)
      · refine ih (fun b hb => begin_ b ?_) g hg
        rw [← fill_append full add (start a) rest]
        exact List.mem_cons_of_mem a (List.mem_append_right _ hb)

theorem groups_invariant {P : σ → Prop} {l : List α} (begin_ : ∀ a ∈ l, P (start a))
    (step : ∀ acc a, a ∈ l → P acc → full acc a = false → P (add acc a)) :
    ∀ g ∈ groups full add start l, P (g.2.foldl add (start g.1)) := fun g hg =>
  groups_joined full add start begin_ step g hg fun _ ha =>
    mem_of_mem_groups full add start hg (List.mem_cons_of_mem _ ha)

end Greedy
