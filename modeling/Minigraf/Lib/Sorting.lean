import Mathlib.Data.List.Sort

/-!
A stable sort by a comparison, as one is documented: given a preorder on the elements of a
list it sorts the list, given anything else it may stop, or leave the elements in any
order.
-/

namespace Minigraf

section

variable {α : Type}

/-- What a sort asks of its comparison. -/
structure PreorderOn (cmp : α → α → Ordering) (l : List α) : Prop where
  reverse : ∀ a ∈ l, ∀ b ∈ l, cmp a b = (cmp b a).swap
  trans : ∀ a ∈ l, ∀ b ∈ l, ∀ c ∈ l, cmp a b ≠ .gt → cmp b c ≠ .gt → cmp a c ≠ .gt

/-- Sorted, with elements that compare equal in the order they had. -/
structure Sorts (cmp : α → α → Ordering) (l r : List α) : Prop where
  perm : r.Perm l
  sorted : r.Pairwise fun a b => cmp a b ≠ .gt
  stable : ∀ a ∈ l, r.filter (fun b => decide (cmp a b = .eq)) = l.filter fun b => decide (cmp a b = .eq)

structure SortBy (α : Type) where
  sort : (α → α → Ordering) → List α → Option (List α)
  perm : ∀ {cmp : α → α → Ordering} {l r : List α}, sort cmp l = some r → r.Perm l
  sorts : ∀ {cmp : α → α → Ordering} {l : List α}, PreorderOn cmp l → ∃ r, sort cmp l = some r ∧ Sorts cmp l r

namespace PreorderOn

variable {cmp : α → α → Ordering} {l : List α}

theorem refl (pre : PreorderOn cmp l) {a : α} (mem : a ∈ l) : cmp a a = .eq := by
  have self := pre.reverse a mem a mem
  cases own : cmp a a with
  | eq => rfl
  | lt =>
      rw [own] at self
      cases self
  | gt =>
      rw [own] at self
      cases self

theorem trans_eq (pre : PreorderOn cmp l) {a b c : α} (ha : a ∈ l) (hb : b ∈ l) (hc : c ∈ l) (left : cmp a b = .eq)
    (right : cmp b c = .eq) : cmp a c = .eq := by
  have forth : cmp a c ≠ .gt := pre.trans a ha b hb c hc (by rw [left]; nofun) (by rw [right]; nofun)
  have back : cmp c a ≠ .gt := by
    apply pre.trans c hc b hb a ha
    · rw [pre.reverse c hc b hb, right]
      nofun
    · rw [pre.reverse b hb a ha, left]
      nofun
  rw [pre.reverse c hc a ha] at back
  cases own : cmp a c with
  | eq => rfl
  | lt =>
      rw [own] at back
      exact absurd rfl back
  | gt => exact absurd own forth

theorem of_subset (pre : PreorderOn cmp l) {l' : List α} (sub : ∀ a ∈ l', a ∈ l) : PreorderOn cmp l' where
  reverse a ha b hb := pre.reverse a (sub a ha) b (sub b hb)
  trans a ha b hb c hc := pre.trans a (sub a ha) b (sub b hb) c (sub c hc)

end PreorderOn

theorem exists_sorts {cmp : α → α → Ordering} {l : List α} (pre : PreorderOn cmp l) : ∃ r, Sorts cmp l r := by
  let le : {a // a ∈ l} → {a // a ∈ l} → Bool := fun a b => decide (cmp a.1 b.1 ≠ .gt)
  have trans : ∀ a b c, le a b = true → le b c = true → le a c = true := by
    intro a b c first second
    rw [decide_eq_true_iff] at first second ⊢
    exact pre.trans a.1 a.2 b.1 b.2 c.1 c.2 first second
  have total : ∀ a b, (le a b || le b a) = true := by
    intro a b
    rw [Bool.or_eq_true, decide_eq_true_iff, decide_eq_true_iff, pre.reverse b.1 b.2 a.1 a.2]
    cases cmp a.1 b.1 <;> simp
  have perm : ((l.attach.mergeSort le).map Subtype.val).Perm l := by
    have sorted := (List.mergeSort_perm l.attach le).map Subtype.val
    rwa [List.attach_map_subtype_val] at sorted
  refine ⟨(l.attach.mergeSort le).map Subtype.val, perm, ?_, ?_⟩
  · rw [List.pairwise_map]
    exact (List.pairwise_mergeSort trans total l.attach).imp fun le => of_decide_eq_true le
  · intro a ha
    have own : (l.attach.filter fun b => decide (cmp a b.1 = .eq)).Pairwise fun b c => le b c = true := by
      apply List.pairwise_of_forall_mem_list
      intro b hb c hc
      have left := of_decide_eq_true (List.mem_filter.mp hb).2
      have right := of_decide_eq_true (List.mem_filter.mp hc).2
      rw [decide_eq_true_iff, pre.trans_eq b.2 ha c.2 (by rw [pre.reverse b.1 b.2 a ha, left]; rfl) right]
      nofun
    have equals : (l.attach.filter fun b => decide (cmp a b.1 = .eq)).map Subtype.val =
        l.filter fun b => decide (cmp a b = .eq) := by
      conv => rhs; rw [← List.attach_map_subtype_val l, List.filter_map]
      rfl
    have sub := (List.sublist_mergeSort trans total own List.filter_sublist).map Subtype.val
    rw [equals] at sub
    have kept := sub.filter fun b => decide (cmp a b = .eq)
    rw [List.filter_filter] at kept
    simp only [Bool.and_self] at kept
    exact (kept.eq_of_length (perm.filter _).length_eq.symm).symm

open Classical in
/-- A sort that stops wherever it may. -/
noncomputable def SortBy.strict (α : Type) : SortBy α where
  sort cmp l := if pre : PreorderOn cmp l then some (exists_sorts pre).choose else none
  perm {cmp l r} sorted := by
    by_cases pre : PreorderOn cmp l
    · rw [dif_pos pre] at sorted
      cases sorted
      exact (exists_sorts pre).choose_spec.perm
    · rw [dif_neg pre] at sorted
      cases sorted
  sorts pre := ⟨_, dif_pos pre, (exists_sorts pre).choose_spec⟩

theorem SortBy.strict_preorder {cmp : α → α → Ordering} {l r : List α} (sorted : (strict α).sort cmp l = some r) :
    PreorderOn cmp l := by
  by_contra none_
  have stops : (strict α).sort cmp l = none := dif_neg none_
  rw [stops] at sorted
  cases sorted

end

end Minigraf
