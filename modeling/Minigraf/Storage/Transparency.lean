import Minigraf.Storage.Answers
import Minigraf.Storage.Postcard
import Minigraf.Storage.Rounds

/-!
A checkpoint is not seen by readers: whatever was done on a handle before, after a save,
and after reopening the saved file, every fact is there in the same order and every
lookup finds the same facts. The one exception is the last UUID, whose range wraps
around: the pending indexes refuse it, so it can only be looked up when nothing is
pending.
-/

namespace Minigraf

open EStateM

section Transparency

variable {H C : Type} (crc : Crc H C) (postcard : Postcard) [DecidableEq C]

/-- What can be done on a handle. -/
inductive HandleOp where
  | transact (tuples : List (EntityId × Attribute × Value)) (opts : Option TransactOptions) (txId : TxId)
  | retract (tuples : List (EntityId × Attribute × Value)) (txId : TxId)
  | load
  | save

/-- A change is followed by `mark_dirty`, as everywhere in the source. -/
def changing {α : Type} (x : FactM α) : StoreM H C Unit := do
  let _ ← onFacts x
  markDirty

def HandleOp.run : HandleOp → StoreM H C Unit
  | .transact tuples opts txId => changing (Minigraf.transact tuples opts txId)
  | .retract tuples txId => changing (Minigraf.retract tuples txId)
  | .load => Minigraf.load crc postcard
  | .save => Minigraf.save crc postcard

/-- A save finds room: the entries of the pending facts fit the pages of the indexes, and
the file stays within reach of its offsets. -/
structure Store.Roomy (s : Store H C) : Prop where
  fits : IndexFits postcard (s.pendingAt postcard)
  near : 5 + s.committedFactPages + (packGroups postcard.fact s.storage.facts).length +
    12 * (s.dev.header.nodeCount + s.storage.facts.length) ≤ PAGE_LIMIT

/-- The states of a handle on a new file. A call may fail; saves find room. -/
inductive Reached (capacity : Nat) : Store H C → Prop
  | start : Reached capacity (Store.init (Dev.create crc capacity none))
  | call {s : Store H C} (earlier : Reached capacity s) (op : HandleOp)
      (room : op = .save → s.dirty = true → s.Roomy postcard) :
      Reached capacity (finalState (op.run crc postcard s))

/-- The same facts in the same order. -/
def SameFacts (s t : Store H C) : Prop :=
  ∃ facts u v, allFacts crc postcard s = .ok facts u ∧ allFacts crc postcard t = .ok facts v

/-- A lookup finds the same facts, in whatever order. -/
def SameAnswers (lookup : Lookup) (s t : Store H C) : Prop :=
  ∃ found found' u v, lookupFacts crc postcard lookup s = .ok found u ∧
    lookupFacts crc postcard lookup t = .ok found' v ∧ found.Perm found'

/-- No two facts share entity, attribute, valid time and transaction. -/
def KeysDistinct (s : Store H C) : Prop :=
  ∀ facts u, allFacts crc postcard s = .ok facts u → (facts.map Fact.eavtKey).Nodup

variable {crc postcard} {s t : Store H C} {placed placed' : List (Fact × FactRef)}

/-! ## Reached states are in good order -/

/-- In good order, on a device without faults, and with nothing pending that a save would
not see. -/
structure Store.Calm (crc : Crc H C) (postcard : Postcard) (s : Store H C) : Prop where
  faults : s.dev.faults = none
  pending : s.dirty = true ∨ s.storage.facts = []
  clean : ∃ placed, s.Clean crc postcard placed

theorem Store.Calm.changing {α : Type} (h : s.Calm crc postcard) {x : FactM α}
    (stamps : Wp x s.storage
      (fun _ t => ∃ new, Appended { s.storage with txCounter := s.storage.txCounter + 1 } new t)
      (fun _ t => Appended { s.storage with txCounter := s.storage.txCounter + 1 } [] t)) :
    Store.Calm crc postcard (finalState ((Minigraf.changing x : StoreM H C Unit) s)) := by
  obtain ⟨calm, pending, placed, clean⟩ := h
  have counted : FactStorage.Ok { s.storage with txCounter := s.storage.txCounter + 1 } :=
    ⟨clean.pending.keys, clean.pending.indexes⟩
  apply Wp.final
  simp only [Minigraf.changing, markDirty, wp_bind, onFacts, wp_zoom, wp_modify]
  refine stamps.mono ?_ ?_
  · rintro _ storage ⟨new, appended⟩
    exact ⟨calm, .inl rfl, placed,
      clean.withStorage appended.committed appended.reader (appended.ok counted) true⟩
  · rintro _ storage appended
    refine ⟨calm, pending.imp_right fun none_ => ?_, placed,
      clean.withStorage appended.committed appended.reader (appended.ok counted) s.dirty⟩
    rw [appended.facts, List.append_nil]
    exact none_

theorem Store.Clean.wp_load (h : s.Clean crc postcard placed) :
    Wp (load crc postcard) s (fun _ t => Loaded crc postcard s placed t) (fun _ _ => False) := by
  have hashed := h.hashed
  rw [← h.factPages] at hashed
  refine (h.sound.wp_load h.trusted h.okay h.synced hashed).mono (fun _ _ loaded => loaded) ?_
  intro _ t failed
  have := failed.rebuilt
  rw [h.rebuilds] at this
  cases this

theorem Store.Clean.limits (h : s.Clean crc postcard placed) (room : s.Roomy postcard)
    (limits : SaveLimits postcard s placed) : ∃ f ∈ s.storage.facts, ¬ f.Fits postcard.fact := by
  have near := room.near
  rw [h.nodes] at near
  obtain large | far | many := limits
  · exact large
  · omega
  · simp only [PAGE_LIMIT] at near
    omega

omit [DecidableEq C] in
/-- Without the flag there is nothing to do. -/
theorem save_clean (clean : s.dirty = false) : save crc postcard s = .ok () s := by
  simp only [save, bind, EStateM.bind, get, getThe, MonadStateOf.get, EStateM.get_at, clean]
  rfl

theorem Store.Calm.step (h : s.Calm crc postcard) (op : HandleOp)
    (room : op = .save → s.dirty = true → s.Roomy postcard) :
    Store.Calm crc postcard (finalState (op.run crc postcard s)) := by
  cases op with
  | transact tuples opts txId => exact h.changing (wp_transact s.storage tuples opts txId)
  | retract tuples txId => exact h.changing (wp_retract s.storage tuples txId)
  | load =>
      obtain ⟨calm, _, placed, clean⟩ := h
      apply Wp.final
      refine clean.wp_load.mono (fun _ t loaded => ?_) (fun _ _ no => no.elim)
      exact ⟨loaded.calm calm, .inr loaded.facts, placed, loaded.clean⟩
  | save =>
      cases dirty : s.dirty with
      | false =>
          rw [HandleOp.run, save_clean dirty]
          exact h
      | true =>
          obtain ⟨calm, pending, placed, clean⟩ := h
          have roomy := room rfl dirty
          apply Wp.final
          refine (clean.wp_save dirty roomy.fits).mono ?_ ?_
          · intro _ t saved
            exact ⟨saved.calm calm, .inr saved.facts, _, saved.clean⟩
          · intro _ t failed
            obtain fault | limits := failed.why
            · exact absurd calm fault
            · obtain ⟨clean', calm'⟩ := failed.refused (clean.limits roomy limits)
              exact ⟨calm' calm, .inl (failed.dirty.trans dirty), placed, clean'⟩

theorem Reached.calm {capacity : Nat} (h : Reached crc postcard capacity s) :
    s.Calm crc postcard := by
  induction h with
  | start => exact ⟨rfl, .inr rfl, [], .create capacity none⟩
  | call _ op room ih => exact ih.step op room

/-! ## Saving and reopening -/

/-- Stores in good order with the same facts give the same answers. -/
theorem Store.Clean.sameFacts (h : s.Clean crc postcard placed) (h' : t.Clean crc postcard placed')
    (same : placed.map Prod.fst ++ s.storage.facts = placed'.map Prod.fst ++ t.storage.facts) :
    SameFacts crc postcard s t := by
  obtain ⟨facts, u, run, rfl, _⟩ := (h.wp_allFacts crc).exists_ok
  obtain ⟨facts', v, run', rfl, _⟩ := (h'.wp_allFacts crc).exists_ok
  rw [← same] at run'
  exact ⟨_, u, v, run, run'⟩

theorem Store.Clean.sameAnswers (h : s.Clean crc postcard placed) (h' : t.Clean crc postcard placed')
    (same : placed.map Prod.fst ++ s.storage.facts = placed'.map Prod.fst ++ t.storage.facts)
    (distinct : KeysDistinct crc postcard s) {lookup : Lookup}
    (inner : lookup.wraps = false ∨ s.storage.facts = [])
    (inner' : lookup.wraps = false ∨ t.storage.facts = []) : SameAnswers crc postcard lookup s t := by
  obtain ⟨facts, w, run, rfl, _⟩ := (h.wp_allFacts crc).exists_ok
  have apart : s.Distinct placed := distinct _ w run
  have apart' : t.Distinct placed' := by
    rw [Store.Distinct, ← same]
    exact apart
  obtain ⟨found, u, run, perm, _⟩ := (h.wp_lookupFacts crc apart lookup inner).exists_ok
  obtain ⟨found', v, run', perm', _⟩ := (h'.wp_lookupFacts crc apart' lookup inner').exists_ok
  rw [← same] at perm'
  exact ⟨found, found', u, v, run, run', perm.trans perm'.symm⟩

theorem Store.Clean.wp_openFile (h : s.Clean crc postcard placed) (capacity : Nat) :
    Wp (openFile crc postcard) (Store.init (Dev.found s.dev.disk capacity none) : Store H C)
      (fun _ t => t.Clean crc postcard placed ∧ t.storage.facts = []) (fun _ _ => False) := by
  refine (h.sound.wp_openFile h.trusted capacity none).mono ?_ ?_
  · intro _ t loaded
    exact ⟨loaded.clean, loaded.facts⟩
  · intro _ t failed
    have rebuilt : s.dev.disk.rebuilds crc = true := failed.rebuilt
    rw [h.rebuilds] at rebuilt
    cases rebuilt

/-- What a save that succeeds leaves: the same facts, all of them committed. -/
theorem Store.Calm.saved (h : s.Calm crc postcard) (room : s.dirty = true → s.Roomy postcard)
    (saved : save crc postcard s = .ok () t) :
    ∃ placed placed', s.Clean crc postcard placed ∧ t.Clean crc postcard placed' ∧
      t.storage.facts = [] ∧ placed.map Prod.fst ++ s.storage.facts = placed'.map Prod.fst := by
  obtain ⟨_, pending, placed, clean⟩ := h
  cases dirty : s.dirty with
  | false =>
      rw [save_clean dirty] at saved
      cases saved
      have none_ := pending.resolve_left (by simp [dirty])
      exact ⟨placed, placed, clean, clean, none_, by rw [none_, List.append_nil]⟩
  | true =>
      have done := (clean.wp_save dirty (room dirty).fits).of_ok saved
      refine ⟨placed, _, clean, done.clean, done.facts, ?_⟩
      rw [List.map_append, Store.map_pendingAt]

/-- A save that succeeds, and a reopening of the file it leaves, are not seen by readers:
not by those of all facts, and not by a lookup unless it is of the last UUID with facts
pending. -/
theorem Reached.transparent {capacity : Nat} (h : Reached crc postcard capacity s)
    (room : s.dirty = true → s.Roomy postcard) (saved : save crc postcard s = .ok () t) :
    ∃ u, openFile crc postcard (Store.init (Dev.found t.dev.disk capacity none)) = .ok () u ∧
      SameFacts crc postcard s t ∧ SameFacts crc postcard s u ∧
      ∀ lookup, KeysDistinct crc postcard s →
        (SameAnswers crc postcard lookup s t ∧ SameAnswers crc postcard lookup s u ↔
          (lookup.wraps = true → s.storage.facts = [])) := by
  obtain ⟨placed, placed', clean, clean', none_, same⟩ := h.calm.saved room saved
  obtain ⟨_, u, run, clean'', none''⟩ := (clean'.wp_openFile capacity).exists_ok
  have all : placed.map Prod.fst ++ s.storage.facts = placed'.map Prod.fst ++ t.storage.facts := by
    rw [none_, List.append_nil, same]
  have all' : placed.map Prod.fst ++ s.storage.facts = placed'.map Prod.fst ++ u.storage.facts := by
    rw [none'', List.append_nil, same]
  refine ⟨u, run, clean.sameFacts clean' all, clean.sameFacts clean'' all', fun lookup distinct => ?_⟩
  constructor
  · rintro ⟨⟨found, _, v, _, looked, _⟩, _⟩ wraps
    by_contra pending
    have last : lookup = .entity (Fin.last _) := by simpa [Lookup.wraps] using wraps
    rw [last, clean.pending.lookup_last crc postcard pending] at looked
    cases looked
  · intro wraps
    have inner : lookup.wraps = false ∨ s.storage.facts = [] := by
      cases hwraps : lookup.wraps with
      | false => exact .inl rfl
      | true => exact .inr (wraps hwraps)
    exact ⟨clean.sameAnswers clean' all distinct inner (.inr none_),
      clean.sameAnswers clean'' all' distinct inner (.inr none'')⟩

end Transparency

/-! ## One fact -/

section OneFact

variable {H C : Type}

/-- Small facts find room in a file that is not large. -/
theorem Store.roomy_of_small {s : Store H C}
    (small : ∀ f ∈ s.storage.facts, Postcard.factBytes f ≤ 3900)
    (near : s.committedFactPages + s.dev.header.nodeCount + s.storage.facts.length ≤ 2 ^ 40) :
    s.Roomy Postcard.standard := by
  have groups := length_packGroups_le Postcard.standard.fact s.storage.facts
  constructor
  · refine Postcard.indexFits fun p hp => ?_
    obtain ⟨hfact, href⟩ := List.of_mem_zip hp
    have bound := mem_packedRefs href
    rw [packGroups_flatten] at bound
    exact ⟨small p.1 hfact, by omega, by omega⟩
  · rw [PAGE_LIMIT]
    omega

/-- A handle on a new file after one fact was asserted. -/
def Store.oneFact : Store (List UInt8) (List UInt8) :=
  finalState ((HandleOp.transact [(0, ":a", .integer 1)] none 5).run Crc.lossless Postcard.standard
    (Store.init (Dev.create Crc.lossless 64 none)))

theorem Store.oneFact_facts : Store.oneFact.storage.facts =
    [⟨0, ":a", .integer 1, 5, 1, 5, VALID_TIME_FOREVER, true⟩] := rfl

theorem Store.oneFact_reached : Reached Crc.lossless Postcard.standard 64 Store.oneFact :=
  Reached.call .start _ (fun no => nomatch no)

theorem Store.oneFact_roomy : Store.oneFact.Roomy Postcard.standard := by
  apply Store.roomy_of_small
  · intro f hf
    rw [Store.oneFact_facts, List.mem_singleton] at hf
    subst hf
    decide
  · rw [Store.oneFact_facts]
    decide

theorem Store.oneFact_distinct : KeysDistinct Crc.lossless Postcard.standard Store.oneFact := by
  have all : allFacts Crc.lossless Postcard.standard Store.oneFact =
      .ok Store.oneFact.storage.facts Store.oneFact := rfl
  intro facts u read
  rw [all] at read
  cases read
  rw [Store.oneFact_facts]
  decide

theorem Store.oneFact_saves : ∃ t, save Crc.lossless Postcard.standard Store.oneFact = .ok () t := by
  obtain ⟨calm, _, placed, clean⟩ := Store.oneFact_reached.calm
  have saved : Wp (save Crc.lossless Postcard.standard) Store.oneFact (fun _ _ => True)
      (fun _ _ => False) := by
    refine (clean.wp_save rfl Store.oneFact_roomy.fits).mono (fun _ _ _ => trivial) ?_
    intro _ t failed
    obtain fault | limits := failed.why
    · exact fault calm
    · obtain ⟨f, hf, large⟩ := clean.limits Store.oneFact_roomy limits
      rw [Store.oneFact_facts, List.mem_singleton] at hf
      subst hf
      exact large (Postcard.fits (by decide))
  obtain ⟨_, t, run, _⟩ := saved.exists_ok
  exact ⟨t, run⟩

/-- A save after one assertion, seen through a lookup of the entity. -/
theorem Reached.transparent_one : ∃ t u, save Crc.lossless Postcard.standard Store.oneFact = .ok () t ∧
    openFile Crc.lossless Postcard.standard (Store.init (Dev.found t.dev.disk 64 none)) = .ok () u ∧
    SameAnswers Crc.lossless Postcard.standard (.entity 0) Store.oneFact t ∧
    SameAnswers Crc.lossless Postcard.standard (.entity 0) Store.oneFact u := by
  obtain ⟨t, saved⟩ := Store.oneFact_saves
  obtain ⟨u, opened, _, _, answers⟩ :=
    Store.oneFact_reached.transparent (fun _ => Store.oneFact_roomy) saved
  exact ⟨t, u, saved, opened, (answers (.entity 0) Store.oneFact_distinct).mpr (fun no => nomatch no)⟩

/-- The same save is seen through a lookup of the last UUID: before it the lookup panics,
after it nothing is found. -/
theorem Reached.seen_through_last : ∃ t, Reached Crc.lossless Postcard.standard 64 Store.oneFact ∧
    Store.oneFact.Roomy Postcard.standard ∧
    KeysDistinct Crc.lossless Postcard.standard Store.oneFact ∧
    save Crc.lossless Postcard.standard Store.oneFact = .ok () t ∧
    lookupFacts Crc.lossless Postcard.standard (.entity (Fin.last _)) Store.oneFact =
      .error .panicked Store.oneFact ∧
    ¬ SameAnswers Crc.lossless Postcard.standard (.entity (Fin.last _)) Store.oneFact t := by
  obtain ⟨t, saved⟩ := Store.oneFact_saves
  obtain ⟨_, _, placed, clean⟩ := Store.oneFact_reached.calm
  have looked := clean.pending.lookup_last Crc.lossless Postcard.standard
    (by rw [Store.oneFact_facts]; exact List.cons_ne_nil _ _)
  refine ⟨t, Store.oneFact_reached, Store.oneFact_roomy, Store.oneFact_distinct, saved, looked, ?_⟩
  rintro ⟨_, _, _, _, found, _⟩
  rw [looked] at found
  cases found

end OneFact
end Minigraf
