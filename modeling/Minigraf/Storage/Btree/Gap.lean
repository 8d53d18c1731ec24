import Minigraf.Storage.Btree.Rebuild

/-!
A rebuild may start past the known pages, which leaves a gap of pages never written. Its
first write is to the page it starts at, so it ends as if the pages up to there had been
known, and fails when that page is out of reach.
-/

namespace Minigraf

open Bytes EStateM

section Gap

variable {H C : Type} (crc : Crc H C) {n : Nat} {s t : Dev C}

/-- The device with the pages before `n` known. -/
def Dev.padTo (s : Dev C) (n : Nat) : Dev C :=
  { s with header := s.header.grown crc n, disk := { s.disk with len := max s.disk.len n } }

theorem Dev.Ok.padTo (h : s.Ok) (n : Nat) : (s.padTo crc n).Ok :=
  fun _ => ⟨Nat.le_max_right _ _, fun e he data _ => h.cached e he data, h.disabled⟩

/-- The same device, or one where the pages before `n` are known. -/
def Padded (n : Nat) (s t : Dev C) : Prop := s = t ∨ s.header.pageCount < n ∧ t = s.padTo crc n

theorem alike_tick (same : t.faults = s.faults) : Alike (tick : Io C Unit) tick s t fun _ u v =>
    ∃ f, u = { s with faults := f } ∧ v = { t with faults := f } := by
  refine alike_get ?_
  rw [same]
  cases faults : s.faults with
  | none => exact ⟨rfl, none, by rw [← faults], by rw [← faults, ← same]⟩
  | some k =>
      cases k with
      | zero => trivial
      | succ k => exact ⟨rfl, some k, rfl, rfl⟩

/-- A failing first write fails on both devices; else they agree from there on. -/
theorem Padded.writeCached (h : Padded crc n s t) (page : Page) :
    Alike (writeCached crc n page) (writeCached crc n page) s t fun _ u v => u = v := by
  obtain rfl | ⟨few, rfl⟩ := h
  · exact .refl fun _ _ => rfl
  refine Alike.bind (R := fun _ u v => u = v) ?_ fun _ u v same => by rw [same]; exact .refl fun _ _ => rfl
  unfold writePage
  split
  · trivial
  refine (alike_tick (s := s) (t := s.padTo crc n) rfl).bind fun _ u v both => ?_
  obtain ⟨f, rfl, rfl⟩ := both
  have write := @alike_modify ErrorCode (Dev C) { s with faults := f } { s.padTo crc n with faults := f }
    (fun _ u v => u = { s with disk := s.disk.writePage n page, faults := f } ∧
      v = { s.padTo crc n with disk := (s.padTo crc n).disk.writePage n page, faults := f })
    (fun s => { s with disk := s.disk.writePage n page }) ⟨rfl, rfl⟩
  refine write.bind fun _ u v both => ?_
  obtain ⟨rfl, rfl⟩ := both
  refine alike_get ?_
  rw [if_pos (by exact few.le), if_pos (by exact le_rfl)]
  -- The header is grown to the same page count, and the files have the same length.
  have grow := @alike_modify ErrorCode (Dev C)
    { s with disk := s.disk.writePage n page, faults := f }
    { s.padTo crc n with disk := (s.padTo crc n).disk.writePage n page, faults := f }
    (fun _ u v => u = v) (fun s => { s with header := s.header.grown crc (n + 1) }) (by
      have len : max (max s.disk.len n) (n + 1) = max s.disk.len (n + 1) := by omega
      simp only [Dev.padTo, Disk.writePage, FileHeader.grown_grown, len])
  refine grow.bind fun _ u v same => ?_
  rw [same]
  exact .refl fun _ _ => rfl

theorem writeCached_far (far : 2 ^ 64 ≤ n * PAGE_SIZE) (page : Page) (s t : Dev C) :
    Alike (writeCached crc n page) (writeCached crc n page) s t fun _ _ _ => False := by
  refine Alike.bind (R := fun _ _ _ => False) ?_ fun _ _ _ no => no.elim
  rw [writePage, if_pos far]
  trivial

/-! ## Up to the first write -/

/-- The write to page `n` takes devices related by `P` to devices related by `Q`, which
stay so. -/
structure FirstWrite (n : Nat) (P Q : Dev C → Dev C → Prop) : Prop where
  first : ∀ (page : Page) (s t : Dev C), P s t →
    Alike (writeCached crc n page) (writeCached crc n page) s t fun _ => Q
  rest : ∀ {α : Type} (x : Io C α) (s t : Dev C), Q s t → Alike x x s t fun _ => Q

/-- While the emitter holds no page but the first, nothing is written. -/
def Waits (n : Nat) (P Q : Dev C → Dev C → Prop) (emitter : LeafEmitter) (s t : Dev C) : Prop :=
  Q s t ∨ P s t ∧ (emitter.held = none ∧ emitter.nextPage = n ∧ emitter.infos = [] ∨
    ∃ page, emitter.held = some (n, page))

variable {crc} {P Q : Dev C → Dev C → Prop} (write : FirstWrite crc n P Q)

include write

theorem Waits.releaseHeld {emitter : LeafEmitter} (h : Waits n P Q emitter s t) (link : Nat) :
    Alike (releaseHeld crc emitter.held link) (releaseHeld crc emitter.held link) s t fun _ u v =>
      Q u v ∨ P u v ∧ emitter.held = none ∧ emitter.nextPage = n ∧ emitter.infos = [] := by
  obtain done | ⟨waiting, ⟨held, next, infos⟩ | ⟨page, held⟩⟩ := h
  · exact (write.rest _ s t done).mono fun _ _ _ => .inl
  · rw [held]
    exact alike_pure (.inr ⟨waiting, rfl, next, infos⟩)
  · rw [held, Minigraf.releaseHeld]
    refine (alike_ofResult (R := fun _ => P) fun _ _ => waiting).bind ?_
    intro page' u v waiting'
    exact (write.first page' u v waiting').mono fun _ _ _ => .inl

theorem Waits.push {emitter : LeafEmitter} (h : Waits n P Q emitter s t) (page : Page)
    (firstKeyBytes : List UInt8) :
    Alike (emitter.push crc page firstKeyBytes) (emitter.push crc page firstKeyBytes) s t
      fun emitter' => Waits n P Q emitter' := by
  refine (h.releaseHeld write emitter.nextPage).bind ?_
  intro _ u v waits
  refine alike_pure ?_
  exact waits.imp_right fun ⟨waiting, _, next, _⟩ => ⟨waiting, .inr ⟨page, by rw [next]⟩⟩

section Entries

variable {K : Type} (codec : IndexCodec K)

theorem Waits.pushLeaves {emitter : LeafEmitter} (h : Waits n P Q emitter s t)
    (leaves : List ((K × FactRef) × List (K × FactRef))) :
    Alike (pushLeaves crc codec emitter leaves) (pushLeaves crc codec emitter leaves) s t
      fun emitter' => Waits n P Q emitter' := by
  induction leaves generalizing emitter s t with
  | nil => exact alike_pure h
  | cons leaf leaves ih =>
      refine (alike_ofResult (R := fun _ => Waits n P Q emitter) fun _ _ => h).bind ?_
      intro page u v waits
      refine (waits.push write page _).bind ?_
      intro emitter' u' v' waits'
      exact ih waits'

theorem FirstWrite.buildBtree (h : P s t) (entries : List (K × FactRef)) :
    Alike (buildBtree crc codec entries n) (buildBtree crc codec entries n) s t fun _ => Q := by
  have first (records : List (List UInt8)) (link : Nat) :
      Alike (writeLeafPage crc n records link) (writeLeafPage crc n records link) s t fun _ => Q := by
    refine (alike_ofResult (R := fun _ => P) fun _ _ => h).bind ?_
    intro page u v waiting
    exact write.first page u v waiting
  unfold Minigraf.buildBtree
  split
  · exact (first [] 0).bind fun _ u v done => write.rest _ u v done
  · rename_i some_
    refine Alike.bind (R := fun _ => Q) ?_ fun _ u v done => write.rest _ u v done
    cases leaves : packLeaves codec leafOverflows entries with
    | nil => exact absurd leaves some_
    | cons leaf later => exact (first _ 0).bind fun _ u v done => write.rest _ u v done

variable [LinearOrder K]

theorem Waits.rebuildLeaf {emitter : LeafEmitter} (h : Waits n P Q emitter s t) (page : Page)
    (firstKey : K) (batch : List (K × FactRef)) :
    Alike (rebuildLeaf crc codec emitter page firstKey batch)
      (rebuildLeaf crc codec emitter page firstKey batch) s t fun emitter' => Waits n P Q emitter' := by
  unfold Minigraf.rebuildLeaf
  split
  · exact h.push write page _
  · refine (alike_ofResult (R := fun _ => Waits n P Q emitter) fun _ _ => h).bind ?_
    intro old u v waits
    exact waits.pushLeaves write codec _

theorem Waits.rebuildLeaves {emitter : LeafEmitter} (h : Waits n P Q emitter s t)
    (leaves : List (Page × K)) (pending : List (K × FactRef)) :
    Alike (rebuildLeaves crc codec emitter leaves pending)
      (rebuildLeaves crc codec emitter leaves pending) s t fun emitter' => Waits n P Q emitter' := by
  induction leaves generalizing emitter pending s t with
  | nil => exact alike_pure h
  | cons leaf leaves ih =>
      refine (h.rebuildLeaf write codec leaf.1 leaf.2 _).bind ?_
      intro emitter' u v waits
      exact ih waits _

theorem FirstWrite.rebuildBtreeIncremental (h : P s t) (pages : List Page) (pending : List (K × FactRef)) :
    Alike (rebuildBtreeIncremental crc codec pages pending n)
      (rebuildBtreeIncremental crc codec pages pending n) s t fun _ => Q := by
  refine (alike_ofResult (R := fun _ => P) fun _ _ => h).bind ?_
  intro leaves u v waiting
  split
  · exact write.buildBtree codec waiting pending
  · have begin_ : Waits n P Q ⟨n, none, []⟩ u v := .inr ⟨waiting, .inl ⟨rfl, rfl, rfl⟩⟩
    refine (begin_.rebuildLeaves write codec leaves pending).bind ?_
    intro emitter u v waits
    refine Alike.bind (R := fun r u v => Q u v ∨ r.1 = []) ?_ ?_
    · refine (waits.releaseHeld write 0).bind fun _ _ _ done => alike_pure ?_
      exact done.imp_right fun waits => waits.2.2.2
    · intro ⟨infos, nextPage⟩ u v done
      obtain done | rfl := done
      · exact write.rest _ u v done
      · -- Nothing was pushed, so there is nothing to build levels over.
        simp only [buildInternalLevels]
        trivial

end Entries
end Gap

section Start

variable {H C K : Type} (crc : Crc H C) (codec : IndexCodec K) [LinearOrder K]

/-- A rebuild ends as if the pages before its start had been known. -/
theorem rebuildBtreeIncremental_padTo {s : Dev C} {start : Nat} (gap : s.header.pageCount < start)
    (pages : List Page) (pending : List (K × FactRef)) :
    Alike (rebuildBtreeIncremental crc codec pages pending start)
      (rebuildBtreeIncremental crc codec pages pending start) s (s.padTo crc start)
      fun _ u v => u = v := by
  have write : FirstWrite crc start (Padded crc start) (fun s t => s = t) := by
    refine ⟨fun page s t padded => padded.writeCached crc page, fun x s t same => ?_⟩
    rw [same]
    exact .refl fun _ _ => rfl
  exact write.rebuildBtreeIncremental codec (.inr ⟨gap, rfl⟩) pages pending

/-- No page past the reach of a file offset is written, so a rebuild that starts there
fails. -/
theorem wp_rebuildBtreeIncremental_far {start : Nat} (far : PAGE_LIMIT ≤ start) (pages : List Page)
    (pending : List (K × FactRef)) (s : Dev C) :
    Wp (rebuildBtreeIncremental crc codec pages pending start) s (fun _ _ => False) fun _ _ => True := by
  have write : FirstWrite crc start (fun _ _ : Dev C => True) (fun _ _ => False) :=
    ⟨fun page s t _ => writeCached_far crc ((far_iff start).mpr far) page s t, fun _ _ _ no => no.elim⟩
  have alike := write.rebuildBtreeIncremental (s := s) (t := s) codec trivial pages pending
  unfold Alike at alike
  unfold Wp
  cases run : rebuildBtreeIncremental crc codec pages pending start s with
  | ok r t =>
      rw [run] at alike
      exact alike.2
  | error e t => trivial

end Start
end Minigraf
