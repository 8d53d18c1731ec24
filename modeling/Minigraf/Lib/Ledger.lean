import Mathlib.Data.List.Basic
import Mathlib.Order.Lattice

/-!
Transactions kept in two places: on pages, which are written rarely, and in a log, which
is written first and replayed above a mark. What a recovery keeps depends on the mark it
finds. A log with its pages is in order when every mark between a floor and a ceiling
recovers the same acknowledged transactions, each attempt at most once.
-/

namespace Ledger

variable {α T : Type} [LinearOrder T] (tx : α → T) (acked : α → Bool)

/-- The transactions above a mark. -/
def above (mark : T) (l : List α) : List α := l.filter fun a => decide (mark < tx a)

/-- What is seen of the attempts: every acknowledged one, and of the others some. -/
structure Seen (attempts seen : List α) : Prop where
  sound : seen.Sublist attempts
  complete : seen.filter acked = attempts.filter acked

/-- The pages hold `paged` and the log `stored`; a recovery takes a mark between the floor
and the ceiling. -/
structure Kept (floor ceiling : T) (attempts paged stored : List α) : Prop where
  ordered : stored.Pairwise fun a b => tx a < tx b
  below : ∀ a ∈ paged, tx a ≤ floor
  marks : floor ≤ ceiling
  sound : (paged ++ above tx floor stored).Sublist attempts
  complete : (paged ++ above tx ceiling stored).filter acked = attempts.filter acked

/-- A handle with `mem` in memory: the transactions of the log above the mark that were
acknowledged, and whichever others a recovery found. -/
structure Live (floor mark counter : T) (attempts paged mem stored : List α) : Prop where
  kept : Kept tx acked floor mark attempts paged stored
  counted : mark ≤ counter
  bounded : ∀ a ∈ stored, tx a ≤ counter
  logged : mem.Sublist (above tx mark stored)
  complete : (paged ++ mem).filter acked = attempts.filter acked

variable {tx}

theorem mem_above {mark : T} {l : List α} {a : α} : a ∈ above tx mark l ↔ a ∈ l ∧ mark < tx a := by
  simp [above]

theorem above_append (mark : T) (l l' : List α) :
    above tx mark (l ++ l') = above tx mark l ++ above tx mark l' := List.filter_append l l'

theorem above_sublist (mark : T) (l : List α) : (above tx mark l).Sublist l := List.filter_sublist

theorem above_eq_nil {mark : T} {l : List α} (low : ∀ a ∈ l, tx a ≤ mark) : above tx mark l = [] := by
  rw [above, List.filter_eq_nil_iff]
  intro a ha
  simpa using low a ha

theorem above_singleton {mark : T} {a : α} (high : mark < tx a) : above tx mark [a] = [a] := by
  simp [above, high]

theorem above_above {mark mark' : T} (le : mark ≤ mark') (l : List α) :
    above tx mark' (above tx mark l) = above tx mark' l := by
  rw [above, above, List.filter_filter]
  refine List.filter_congr fun a _ => ?_
  rw [Bool.and_eq_left_iff_imp, decide_eq_true_iff, decide_eq_true_iff]
  exact le.trans_lt

theorem above_mono {mark mark' : T} (le : mark ≤ mark') (l : List α) :
    (above tx mark' l).Sublist (above tx mark l) := by
  rw [← above_above le]
  exact above_sublist _ _

/-- A log in order falls apart at every mark. -/
theorem sublist_above {mark : T} {l front : List α} (ordered : l.Pairwise fun a b => tx a < tx b)
    (part : front.Sublist l) (low : ∀ a ∈ front, tx a ≤ mark) :
    (front ++ above tx mark l).Sublist l := by
  induction l generalizing front with
  | nil =>
      rw [List.sublist_nil] at part
      rw [part]
      exact .refl _
  | cons a l ih =>
      obtain ⟨first, rest⟩ := List.pairwise_cons.mp ordered
      by_cases high : mark < tx a
      · -- Everything from here on is above the mark, so nothing is in front.
        have none_ : front = [] := by
          rw [List.eq_nil_iff_forall_not_mem]
          intro b hb
          obtain rfl | hb' := List.mem_cons.mp (part.subset hb)
          · exact absurd high (not_lt.mpr (low b hb))
          · exact absurd (high.trans (first b hb')) (not_lt.mpr (low b hb))
        rw [none_]
        exact above_sublist mark _
      · have skipped : above tx mark (a :: l) = above tx mark l := by
          simp [above, high]
        rw [skipped]
        cases part with
        | cons _ part => exact (ih rest part low).cons a
        | cons_cons _ part =>
            exact (ih rest part fun b hb => low b (List.mem_cons_of_mem a hb)).cons_cons a

/-! ## What is seen -/

section Seen

variable {β : Type} {done : β → Bool} {attempts found : List β}

theorem Seen.append (h : Seen done attempts found) (a : β) : Seen done (attempts ++ [a]) (found ++ [a]) :=
  ⟨h.sound.append (.refl _), by rw [List.filter_append, List.filter_append, h.complete]⟩

theorem Seen.skip {a : β} (h : Seen done attempts found) (lost : done a = false) :
    Seen done (attempts ++ [a]) found := by
  refine ⟨h.sound.trans (List.sublist_append_left _ _), ?_⟩
  rw [h.complete, List.filter_append]
  simp [lost]

/-- Where nothing is seen that was not acknowledged. -/
theorem Seen.exact (h : Seen done attempts found) (only : ∀ a ∈ found, done a = true) :
    found = attempts.filter done := by
  rw [← h.complete, List.filter_eq_self.mpr only]

/-- Between attempts and what is seen of them. -/
theorem Seen.between {more : List β} (h : Seen done attempts found) (less : found.Sublist more)
    (sound : more.Sublist attempts) : Seen done attempts more :=
  ⟨sound, (sound.filter done).antisymm (by rw [← h.complete]; exact less.filter done)⟩

end Seen

/-! ## What the pages and the log keep -/

variable {acked} {floor floor' ceiling mark counter counter' : T}
variable {attempts paged mem front back stored : List α} {a : α}

theorem Kept.seen (h : Kept tx acked floor ceiling attempts paged stored) (low : floor ≤ mark)
    (high : mark ≤ ceiling) : Seen acked attempts (paged ++ above tx mark stored) := by
  have least : Seen acked attempts (paged ++ above tx ceiling stored) :=
    ⟨((List.Sublist.refl paged).append (above_mono h.marks stored)).trans h.sound, h.complete⟩
  refine least.between ((List.Sublist.refl paged).append (above_mono high stored)) ?_
  exact ((List.Sublist.refl paged).append (above_mono low stored)).trans h.sound

/-- A recovery may put the ceiling at its mark. -/
theorem Kept.lower (h : Kept tx acked floor ceiling attempts paged stored) (low : floor ≤ mark)
    (high : mark ≤ ceiling) : Kept tx acked floor mark attempts paged stored :=
  ⟨h.ordered, h.below, low, h.sound, (h.seen low high).complete⟩

/-- An attempt that reaches the log, acknowledged or not. -/
theorem Kept.append (h : Kept tx acked floor ceiling attempts paged stored)
    (counted : ceiling ≤ counter) (bounded : ∀ b ∈ stored, tx b ≤ counter) (next : counter < tx a) :
    Kept tx acked floor ceiling (attempts ++ [a]) paged (stored ++ [a]) := by
  have high := counted.trans_lt next
  refine ⟨?_, h.below, h.marks, ?_, ?_⟩
  · rw [List.pairwise_append]
    refine ⟨h.ordered, List.pairwise_singleton _ _, fun b hb c hc => ?_⟩
    rw [List.mem_singleton.mp hc]
    exact (bounded b hb).trans_lt next
  · rw [above_append, above_singleton (h.marks.trans_lt high), ← List.append_assoc]
    exact h.sound.append (.refl _)
  · rw [above_append, above_singleton high, ← List.append_assoc, List.filter_append, h.complete,
      ← List.filter_append]

/-- An attempt that does not. -/
theorem Kept.skip (h : Kept tx acked floor ceiling attempts paged stored) (lost : acked a = false) :
    Kept tx acked floor ceiling (attempts ++ [a]) paged stored := by
  refine ⟨h.ordered, h.below, h.marks, h.sound.trans (List.sublist_append_left _ _), ?_⟩
  rw [h.complete, List.filter_append]
  simp [lost]

/-! ## An open handle -/

theorem Live.seen (h : Live tx acked floor mark counter attempts paged mem stored) :
    Seen acked attempts (paged ++ mem) :=
  ⟨((List.Sublist.refl paged).append (h.logged.trans (above_mono h.kept.marks stored))).trans
    h.kept.sound, h.complete⟩

theorem Live.inside (h : Live tx acked floor mark counter attempts paged mem stored) (ha : a ∈ mem) :
    mark < tx a ∧ tx a ≤ counter := by
  obtain ⟨inLog, high⟩ := mem_above.mp (h.logged.subset ha)
  exact ⟨high, h.bounded a inLog⟩

/-- Recovery at a mark replays the log above it. -/
theorem Kept.live (h : Kept tx acked floor ceiling attempts paged stored) (low : floor ≤ mark)
    (high : mark ≤ ceiling) (counted : mark ≤ counter)
    (replayed : ∀ a ∈ above tx mark stored, tx a ≤ counter) :
    Live tx acked floor mark counter attempts paged (above tx mark stored) stored := by
  refine ⟨h.lower low high, counted, fun a ha => ?_, .refl _, (h.seen low high).complete⟩
  by_cases above_ : mark < tx a
  · exact replayed a (mem_above.mpr ⟨ha, above_⟩)
  · exact (not_lt.mp above_).trans counted

theorem Live.bounded_append (h : Live tx acked floor mark counter attempts paged mem stored)
    (next : counter < tx a) : ∀ b ∈ stored ++ [a], tx b ≤ tx a := by
  intro b hb
  obtain hb | hb := List.mem_append.mp hb
  · exact (h.bounded b hb).trans next.le
  · rw [List.mem_singleton.mp hb]

/-- An attempt that is logged and taken into memory. -/
theorem Live.apply (h : Live tx acked floor mark counter attempts paged mem stored)
    (next : counter < tx a) :
    Live tx acked floor mark (tx a) (attempts ++ [a]) paged (mem ++ [a]) (stored ++ [a]) := by
  refine ⟨h.kept.append h.counted h.bounded next, h.counted.trans next.le, h.bounded_append next, ?_, ?_⟩
  · rw [above_append, above_singleton (h.counted.trans_lt next)]
    exact h.logged.append (.refl _)
  · rw [← List.append_assoc]
    exact (h.seen.append a).complete

/-- An attempt that is logged but fails. -/
theorem Live.fail (h : Live tx acked floor mark counter attempts paged mem stored)
    (next : counter < tx a) (lost : acked a = false) :
    Live tx acked floor mark (tx a) (attempts ++ [a]) paged mem (stored ++ [a]) := by
  refine ⟨h.kept.append h.counted h.bounded next, h.counted.trans next.le, h.bounded_append next, ?_,
    (h.seen.skip lost).complete⟩
  rw [above_append]
  exact h.logged.trans (List.sublist_append_left _ _)

/-- An attempt that does not reach the log. -/
theorem Live.skip (h : Live tx acked floor mark counter attempts paged mem stored)
    (later : counter ≤ counter') (lost : acked a = false) :
    Live tx acked floor mark counter' (attempts ++ [a]) paged mem stored :=
  ⟨h.kept.skip lost, h.counted.trans later, fun b hb => (h.bounded b hb).trans later, h.logged,
    (h.seen.skip lost).complete⟩

/-- The counter may run ahead. -/
theorem Live.count (h : Live tx acked floor mark counter attempts paged mem stored)
    (later : counter ≤ counter') : Live tx acked floor mark counter' attempts paged mem stored :=
  ⟨h.kept, h.counted.trans later, fun b hb => (h.bounded b hb).trans later, h.logged, h.complete⟩

/-- A checkpoint moves what is in memory to the pages. -/
theorem Live.save (h : Live tx acked floor mark counter attempts paged mem stored)
    (le : floor ≤ floor') (below : ∀ a ∈ paged ++ mem, tx a ≤ floor') (counted : floor' ≤ counter) :
    Live tx acked floor' counter counter attempts (paged ++ mem) [] stored := by
  have cut : (mem ++ above tx floor' stored).Sublist (above tx floor stored) := by
    rw [← above_above le stored]
    exact sublist_above (h.kept.ordered.sublist (above_sublist _ _))
      (h.logged.trans (above_mono h.kept.marks stored))
      fun a ha => below a (List.mem_append_right _ ha)
  refine ⟨⟨h.kept.ordered, below, counted, ?_, ?_⟩, le_rfl, h.bounded, List.nil_sublist _, ?_⟩
  · rw [List.append_assoc]
    exact ((List.Sublist.refl paged).append cut).trans h.kept.sound
  · rw [above_eq_nil h.bounded, List.append_nil]
    exact h.complete
  · rw [List.append_nil]
    exact h.complete

/-- With nothing in memory the log may go. -/
theorem Live.delete (h : Live tx acked floor mark counter attempts paged [] stored) :
    Live tx acked floor mark counter attempts paged [] [] := by
  have seen := h.seen
  rw [List.append_nil] at seen
  refine ⟨⟨.nil, h.kept.below, h.kept.marks, ?_, ?_⟩, h.counted, nofun, List.nil_sublist _, h.complete⟩
  · simpa [above] using seen.sound
  · simpa [above] using seen.complete

/-- A first checkpoint that stops between two transactions leaves the front of the memory
on the pages; a recovery takes the last of them for its mark. -/
theorem Live.tear (h : Live tx acked floor mark counter attempts [] (front ++ back) stored)
    (le : floor ≤ floor') (below : ∀ a ∈ front, tx a ≤ floor') (rest : ∀ a ∈ back, floor' < tx a) :
    Kept tx acked floor' floor' attempts front stored := by
  have cut : (front ++ above tx floor' stored).Sublist (above tx floor stored) := by
    rw [← above_above le stored]
    refine sublist_above (h.kept.ordered.sublist (above_sublist _ _)) ?_ below
    exact ((List.sublist_append_left front back).trans h.logged).trans (above_mono h.kept.marks stored)
  have tail : back.Sublist (above tx floor' stored) := by
    have whole : above tx floor' back = back := by
      rw [above, List.filter_eq_self]
      exact fun a ha => decide_eq_true (rest a ha)
    rw [← whole]
    exact ((List.sublist_append_right front back).trans (h.logged.trans (above_sublist _ _))).filter _
  have sound := cut.trans (by simpa using h.kept.sound)
  exact ⟨h.kept.ordered, below, le_rfl, sound,
    (h.seen.between ((List.Sublist.refl front).append tail) sound).complete⟩

end Ledger
