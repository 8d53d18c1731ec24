import Minigraf.Db.World
import Minigraf.Lib.Ledger
import Minigraf.Storage.Answers

/-!
The files of a database and its open handle, read as a ledger: the fact pages hold whole
transactions, the log holds entries, and together they keep every acknowledged attempt.
-/

namespace Minigraf

open EStateM Wal Ledger

/-! ## Attempts and what they add -/

/-- The count of an attempt. -/
def attemptTx (a : Attempt) : UInt64 := a.entry.txCount

/-- The facts attempts add, in order. -/
def attemptFacts (attempts : List Attempt) : List Fact :=
  attempts.flatMap fun a => newFacts a.entry

/-- A recorded attempt has facts, and they carry its count. -/
structure Recorded (a : Attempt) : Prop where
  facts : a.entry.facts ≠ []
  stamped : Stamped a.entry

theorem attemptFacts_append (l l' : List Attempt) :
    attemptFacts (l ++ l') = attemptFacts l ++ attemptFacts l' := List.flatMap_append

theorem mem_attemptFacts {l : List Attempt} (recorded : ∀ a ∈ l, Recorded a) {f : Fact}
    (hf : f ∈ attemptFacts l) : ∃ a ∈ l, f.txCount = attemptTx a := by
  obtain ⟨a, ha, hf⟩ := List.mem_flatMap.mp hf
  exact ⟨a, ha, mem_newFacts (recorded a ha).stamped hf⟩

theorem newFacts_ne_nil {entry : WalEntry} (some_ : entry.facts ≠ []) : newFacts entry ≠ [] := by
  obtain ⟨f, hf⟩ := List.exists_mem_of_ne_nil _ some_
  obtain ⟨g, hg, _⟩ := @exists_freshFacts [] _ f hf List.not_mem_nil
  exact List.ne_nil_of_mem hg

theorem Recorded.exists_fact {a : Attempt} (h : Recorded a) {l : List Attempt} (ha : a ∈ l) :
    ∃ f ∈ attemptFacts l, f.txCount = attemptTx a := by
  obtain ⟨f, hf⟩ := List.exists_mem_of_ne_nil _ (newFacts_ne_nil h.facts)
  exact ⟨f, List.mem_flatMap.mpr ⟨a, ha, hf⟩, mem_newFacts h.stamped hf⟩

/-- The largest count on pages that hold whole attempts. -/
theorem maxTxCount_attempts {l : List Attempt} (recorded : ∀ a ∈ l, Recorded a) {a : Attempt}
    (ha : a ∈ l) : attemptTx a ≤ maxTxCount (attemptFacts l) := by
  obtain ⟨f, hf, same⟩ := (recorded a ha).exists_fact ha
  rw [← same]
  exact le_maxTxCount hf

theorem maxTxCount_attempts_le {l : List Attempt} (recorded : ∀ a ∈ l, Recorded a) {m : UInt64}
    (h : ∀ a ∈ l, attemptTx a ≤ m) : maxTxCount (attemptFacts l) ≤ m := by
  refine maxTxCount_le fun f hf => ?_
  obtain ⟨a, ha, same⟩ := mem_attemptFacts recorded hf
  rw [same]
  exact h a ha

/-- Facts cut where no attempt is cut are the facts of the attempts in front. -/
theorem attemptFacts_split {l : List Attempt} (recorded : ∀ a ∈ l, Recorded a)
    {front back : List Fact} (whole : attemptFacts l = front ++ back)
    (apart : ∀ f ∈ front, ∀ f' ∈ back, f.txCount ≠ f'.txCount) :
    ∃ first rest, l = first ++ rest ∧ attemptFacts first = front := by
  induction l generalizing front with
  | nil =>
      have none_ := (List.append_eq_nil_iff.mp whole.symm).1
      exact ⟨[], [], rfl, none_.symm⟩
  | cons a l ih =>
      have stamped := (recorded a List.mem_cons_self).stamped
      have whole' : newFacts a.entry ++ attemptFacts l = front ++ back := whole
      obtain ⟨more, hfront, hrest⟩ | ⟨more, hnew, hback⟩ := List.append_eq_append_iff.mp whole'
      · obtain ⟨first, tail, hl, hfacts⟩ :=
          ih (fun b hb => recorded b (List.mem_cons_of_mem a hb)) hrest
            fun f hf => apart f (by rw [hfront]; exact List.mem_append_right _ hf)
        refine ⟨a :: first, tail, by rw [hl]; rfl, ?_⟩
        rw [hfront, ← hfacts]
        rfl
      · -- The cut is inside the first attempt, so on one of its edges.
        cases more with
        | nil =>
            rw [List.append_nil] at hnew
            refine ⟨[a], l, rfl, ?_⟩
            rw [← hnew, attemptFacts, List.flatMap_singleton]
        | cons f more =>
            cases front with
            | nil => exact ⟨[], a :: l, rfl, rfl⟩
            | cons g front =>
                have left := mem_newFacts stamped (f := g) (by rw [hnew]; exact List.mem_cons_self)
                have right := mem_newFacts stamped (f := f) (by rw [hnew]; simp)
                exact absurd (left.trans right.symm)
                  (apart g List.mem_cons_self f (by rw [hback]; exact List.mem_cons_self))

/-! ## The log -/

/-- The entries of the log that have facts are those of `stored`. When no append was ever
torn, all that is stored was acknowledged. -/
structure Logbook (exact : Prop) (attempts paged stored : List Attempt) (entries : List WalEntry) :
    Prop where
  logged : entries.filter (fun e => !e.facts.isEmpty) = stored.map Attempt.entry
  attempted : ∀ a ∈ attempts, Recorded a
  recorded : ∀ a ∈ stored, Recorded a
  acked : exact → ∀ a ∈ paged ++ stored, a.acked = true

section Logbook

variable {exact : Prop} {attempts paged mem stored : List Attempt} {entries : List WalEntry}

theorem Logbook.stamped (h : Logbook exact attempts paged stored entries) : ∀ e ∈ entries, Stamped e := by
  intro e he
  by_cases none_ : e.facts = []
  · intro f hf
    rw [none_] at hf
    cases hf
  · have found : e ∈ stored.map Attempt.entry := by
      rw [← h.logged, List.mem_filter]
      exact ⟨he, by simpa using none_⟩
    obtain ⟨a, ha, rfl⟩ := List.mem_map.mp found
    exact (h.recorded a ha).stamped

theorem Logbook.ordered (h : Logbook exact attempts paged stored entries)
    (ordered : stored.Pairwise fun a b => attemptTx a < attemptTx b) : Ordered entries := by
  have kept : (entries.filter fun e => !e.facts.isEmpty).Pairwise fun a b => a.txCount < b.txCount := by
    rw [h.logged, List.pairwise_map]
    exact ordered
  rw [List.pairwise_filter] at kept
  refine kept.imp fun {a b} lt some_ some' => lt ?_ ?_
  · simpa using some_
  · simpa using some'

/-- Entries without facts add nothing. -/
theorem flatMap_newFacts (entries : List WalEntry) :
    entries.flatMap newFacts = (entries.filter fun e => !e.facts.isEmpty).flatMap newFacts := by
  induction entries with
  | nil => rfl
  | cons e entries ih =>
      rw [List.filter_cons, List.flatMap_cons, ih]
      split
      · rfl
      · rename_i none_
        have none_ : e.facts = [] := by simpa using none_
        rw [newFacts, none_]
        rfl

theorem Logbook.above (h : Logbook exact attempts paged stored entries) (last : UInt64) :
    (replayedEntries last entries).filter (fun e => !e.facts.isEmpty) =
      (above attemptTx last stored).map Attempt.entry := by
  have swapped : (replayedEntries last entries).filter (fun e => !e.facts.isEmpty) =
      (entries.filter fun e => !e.facts.isEmpty).filter fun e => last < e.txCount := by
    rw [replayedEntries, List.filter_filter, List.filter_filter]
    refine List.filter_congr fun e _ => ?_
    rw [Bool.and_comm]
  rw [swapped, h.logged, List.filter_map]
  rfl

/-- What a replay above a mark takes into memory. -/
theorem Logbook.replayed (h : Logbook exact attempts paged stored entries) (last : UInt64) :
    (replayedEntries last entries).flatMap newFacts = attemptFacts (Ledger.above attemptTx last stored) := by
  rw [flatMap_newFacts, h.above, List.flatMap_map]
  rfl

theorem Recorded.of_mem {entry : WalEntry} (stamped : Stamped entry) {b : Bool} {a : Attempt}
    (h : a ∈ attemptOf entry b) : Recorded a ∧ a = ⟨entry, b⟩ := by
  rw [attemptOf] at h
  split at h
  · cases h
  · rename_i some_
    rw [List.mem_singleton.mp h]
    exact ⟨⟨some_, stamped⟩, rfl⟩

theorem forall_mem_attemptOf {l : List Attempt} (h : ∀ a ∈ l, Recorded a) {entry : WalEntry}
    (stamped : Stamped entry) (b : Bool) : ∀ a ∈ l ++ attemptOf entry b, Recorded a := by
  intro a ha
  obtain ha | ha := List.mem_append.mp ha
  · exact h a ha
  · exact (Recorded.of_mem stamped ha).1

/-- An entry reaches the log. -/
theorem Logbook.write (h : Logbook exact attempts paged stored entries) {entry : WalEntry}
    (stamped : Stamped entry) {b : Bool} (acked : exact → b = true) :
    Logbook exact (attempts ++ attemptOf entry b) paged (stored ++ attemptOf entry b)
      (entries ++ [entry]) := by
  refine ⟨?_, forall_mem_attemptOf h.attempted stamped b, forall_mem_attemptOf h.recorded stamped b, ?_⟩
  · rw [List.filter_append, List.map_append, h.logged, attemptOf]
    split
    · rename_i none_
      simp [none_]
    · rename_i some_
      simp [some_]
  · intro calm a ha
    rw [← List.append_assoc] at ha
    obtain ha | ha := List.mem_append.mp ha
    · exact h.acked calm a ha
    · rw [(Recorded.of_mem stamped ha).2]
      exact acked calm

/-- An entry does not reach the log. -/
theorem Logbook.skip (h : Logbook exact attempts paged stored entries) {entry : WalEntry}
    (stamped : Stamped entry) (b : Bool) :
    Logbook exact (attempts ++ attemptOf entry b) paged stored entries :=
  ⟨h.logged, forall_mem_attemptOf h.attempted stamped b, h.recorded, h.acked⟩

/-- The log is deleted. -/
theorem Logbook.delete (h : Logbook exact attempts paged stored entries) :
    Logbook exact attempts paged [] [] :=
  ⟨rfl, h.attempted, nofun, fun calm a ha => h.acked calm a (by simp_all)⟩

end Logbook

/-! ## Marks -/

section Marks

variable {floor mark counter : UInt64} {attempts seen paged mem stored : List Attempt}
  {entry : WalEntry}

theorem seen_record (h : Seen Attempt.acked attempts seen) (entry : WalEntry) (b : Bool) :
    Seen Attempt.acked (attempts ++ attemptOf entry b) (seen ++ attemptOf entry b) := by
  rw [attemptOf]
  split
  · simpa using h
  · exact h.append _

theorem seen_miss (h : Seen Attempt.acked attempts seen) (entry : WalEntry) :
    Seen Attempt.acked (attempts ++ attemptOf entry false) seen := by
  rw [attemptOf]
  split
  · simpa using h
  · exact h.skip rfl

theorem kept_record (h : Kept attemptTx Attempt.acked floor mark attempts paged stored)
    (counted : mark ≤ counter) (bounded : ∀ a ∈ stored, attemptTx a ≤ counter)
    (next : counter < entry.txCount) (b : Bool) :
    Kept attemptTx Attempt.acked floor mark (attempts ++ attemptOf entry b) paged
      (stored ++ attemptOf entry b) := by
  rw [attemptOf]
  split
  · simpa using h
  · exact h.append counted bounded next

theorem kept_miss (h : Kept attemptTx Attempt.acked floor mark attempts paged stored)
    (entry : WalEntry) :
    Kept attemptTx Attempt.acked floor mark (attempts ++ attemptOf entry false) paged stored := by
  rw [attemptOf]
  split
  · simpa using h
  · exact h.skip rfl

theorem live_record (h : Live attemptTx Attempt.acked floor mark counter attempts paged mem stored)
    (next : counter < entry.txCount) (b : Bool) :
    Live attemptTx Attempt.acked floor mark entry.txCount (attempts ++ attemptOf entry b) paged
      (mem ++ attemptOf entry b) (stored ++ attemptOf entry b) := by
  rw [attemptOf]
  split
  · simpa using h.count next.le
  · exact h.apply (a := Attempt.mk entry b) next

theorem live_recordFailed (h : Live attemptTx Attempt.acked floor mark counter attempts paged mem stored)
    (next : counter < entry.txCount) :
    Live attemptTx Attempt.acked floor mark entry.txCount (attempts ++ attemptOf entry false) paged mem
      (stored ++ attemptOf entry false) := by
  rw [attemptOf]
  split
  · simpa using h.count next.le
  · exact h.fail (a := Attempt.mk entry false) next rfl

theorem live_miss (h : Live attemptTx Attempt.acked floor mark counter attempts paged mem stored)
    (next : counter < entry.txCount) :
    Live attemptTx Attempt.acked floor mark entry.txCount (attempts ++ attemptOf entry false) paged mem
      stored := by
  rw [attemptOf]
  split
  · simpa using h.count next.le
  · exact h.skip next.le rfl

end Marks

end Minigraf
