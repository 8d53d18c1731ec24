import Mathlib.Data.List.Forall2
import Mathlib.Data.List.Induction
import Mathlib.Data.List.Sort
import Minigraf.Lib.Sorted

/-!
Grouping by a key in an ordered map whose order need not tell all keys apart: the map is
ordered by the rank of a key, and a group keeps the first key it was made with. Whatever
depends on the order of the rows of a group, the groups themselves do not.
-/

namespace Grouping

variable {α κ L : Type} [LinearOrder L] (rank : κ → L) (key : α → κ)

/-- The rows whose key has this rank. -/
def rowsAt (as : List α) (r : L) : List α := as.filter fun a => decide (rank (key a) = r)

variable {rank key} in
theorem mem_rowsAt {as : List α} {r : L} {a : α} : a ∈ rowsAt rank key as r ↔ a ∈ as ∧ rank (key a) = r := by
  rw [rowsAt, List.mem_filter, decide_eq_true_eq]

/-- `entry(key).or_default().push(a)`. -/
def push (groups : OrdMap L (κ × List α)) (a : α) : OrdMap L (κ × List α) :=
  groups.insert (rank (key a))
    ((groups.get? (rank (key a))).elim (key a, [a]) fun group => (group.1, group.2 ++ [a]))

def collect (as : List α) : OrdMap L (κ × List α) := as.foldl (push rank key) OrdMap.empty

/-- A group has the rows of its rank, in order, and the key of the first. -/
theorem get?_collect (as : List α) (r : L) : (collect rank key as).get? r =
    (rowsAt rank key as r).head?.map fun first => (key first, rowsAt rank key as r) := by
  induction as using List.reverseRecOn with
  | nil => rfl
  | append_singleton as a ih =>
      rw [collect, List.foldl_concat, ← collect, push, OrdMap.get?_insert]
      by_cases here : r = rank (key a)
      · subst here
        have more : rowsAt rank key (as ++ [a]) (rank (key a)) = rowsAt rank key as (rank (key a)) ++ [a] := by
          simp only [rowsAt, List.filter_append, List.filter_cons_of_pos, decide_true, List.filter_nil]
        rw [if_pos rfl, ih, more]
        cases rowsAt rank key as (rank (key a)) with
        | nil => rfl
        | cons first rest => rfl
      · have same : rowsAt rank key (as ++ [a]) r = rowsAt rank key as r := by
          simp only [rowsAt, List.filter_append]
          rw [List.filter_cons_of_neg (by simpa using Ne.symm here), List.filter_nil, List.append_nil]
        rw [if_neg here, ih, same]

theorem mem_collect {as : List α} {r : L} {k : κ} {rows : List α} :
    (r, k, rows) ∈ (collect rank key as).entries ↔
      rows = rowsAt rank key as r ∧ rows.head?.map key = some k := by
  rw [← OrdMap.get?_eq_some, get?_collect]
  cases h : rowsAt rank key as r with
  | nil =>
      simp only [List.head?_nil, Option.map_none, reduceCtorEq, false_iff, not_and]
      rintro rfl
      simp
  | cons first rest =>
      simp only [List.head?_cons, Option.map_some, Option.some.injEq, Prod.mk.injEq]
      constructor
      · intro ⟨hk, hrows⟩
        exact ⟨hrows.symm, by rw [← hrows, List.head?_cons, Option.map_some, hk]⟩
      · intro ⟨hrows, hk⟩
        rw [hrows, List.head?_cons, Option.map_some, Option.some.injEq] at hk
        exact ⟨hk, hrows.symm⟩

/-- Every row is in a group. -/
theorem covered {as : List α} {a : α} (mem : a ∈ as) : ∃ k, (rank (key a), k, rowsAt rank key as
    (rank (key a))) ∈ (collect rank key as).entries ∧ a ∈ rowsAt rank key as (rank (key a)) := by
  have here : a ∈ rowsAt rank key as (rank (key a)) := mem_rowsAt.mpr ⟨mem, rfl⟩
  obtain ⟨first, rest, rows⟩ := List.exists_cons_of_ne_nil (List.ne_nil_of_mem here)
  refine ⟨key first, (mem_collect rank key).mpr ⟨rfl, ?_⟩, here⟩
  rw [rows, List.head?_cons, Option.map_some]

theorem mem_ranks {as : List α} {r : L} : r ∈ (collect rank key as).entries.map Prod.fst ↔
    ∃ a ∈ as, rank (key a) = r := by
  constructor
  · intro mem
    obtain ⟨⟨r, k, rows⟩, group, rfl⟩ := List.mem_map.mp mem
    obtain ⟨same, head⟩ := (mem_collect rank key).mp group
    obtain ⟨first, first_, -⟩ := Option.map_eq_some_iff.mp head
    have first_ := List.mem_of_head? first_
    rw [same] at first_
    exact ⟨first, mem_rowsAt.mp first_⟩
  · intro ⟨a, mem, same⟩
    obtain ⟨k, group, -⟩ := covered rank key mem
    exact List.mem_map.mpr ⟨_, group, same⟩

end Grouping
