import Minigraf.Storage.LegacyFile

/-!
A migration of one of the older formats that is cut short. Its pages go over the pages the
facts were read from, while the header still tells of the old format: what an overwritten
page held is gone, and opening the file again saves the rest.
-/

namespace Minigraf

open Bytes EStateM

section Crash

variable {H C : Type} {crc : Crc H C} {postcard : Postcard} {v1 : Codec FactV1} {blobs : BlobCodecs}
  {d left : Disk C} {version capacity : Nat} {faults : Option Nat}

/-! ## The migration -/

theorem length_assignTxCounts (facts : List FactV1) (c : UInt64) (prev : Option TxId) :
    (assignTxCounts c prev facts).length = facts.length := by
  induction facts generalizing c prev with
  | nil => rfl
  | cons a facts ih =>
      rw [assignTxCounts]
      split
      · rw [List.length_cons, ih, List.length_cons]
      · rw [List.length_cons, ih, List.length_cons]

theorem Disk.length_legacyFacts_le {n : Nat} (facts : (d.held postcard.fact.decode).length ≤ n)
    (facts' : (d.held v1.decode).length ≤ n) : (d.legacyFacts postcard v1 version).length ≤ n := by
  rw [Disk.legacyFacts]
  split
  · rw [length_assignTxCounts, (sortByTxId_perm _).length_eq]
    exact facts'
  · exact facts

theorem Disk.Legacy.length_held_le {α : Type} (decode : List UInt8 → Option α) (legacy : d.Legacy postcard v1 version) :
    (d.held decode).length ≤ 2 ^ 32 :=
  (length_decodedPages_le _ _ _ _).trans ((Nat.sub_le _ _).trans legacy.near)

theorem Disk.Legacy.few (legacy : d.Legacy postcard v1 version) :
    (d.legacyFacts postcard v1 version).length ≤ 2 ^ 32 :=
  Disk.length_legacyFacts_le (legacy.length_held_le _) (legacy.length_held_le _)

theorem Disk.Legacy.bare (legacy : d.Legacy postcard v1 version) (roots : d.header.roots = ⟨0, 0, 0, 0⟩) : d.Bare :=
  ⟨legacy.counted, legacy.inside, legacy.near.trans (by decide), roots, legacy.none_, legacy.nodes⟩

variable [DecidableEq C]

/-- A file without faults is opened with the facts it holds. -/
theorem Disk.Bare.reopens (bare : d.Bare) (old : version ≤ 4) (few : (d.legacyFacts postcard v1 version).length ≤ 2 ^ 32)
    (fits : ∀ f ∈ d.legacyFacts postcard v1 version, f.FitsPages postcard) :
    ∃ (s u : Store H C), openVersion crc postcard v1 blobs version (Store.init (Dev.found d capacity none)) = .ok () s ∧
      allFacts crc postcard s = .ok (freshFacts [] (d.legacyFacts postcard v1 version)) u := by
  have opened := @Disk.Bare.wp_openVersion H C crc postcard v1 blobs d capacity version none _ bare old few fits
  obtain ⟨_, s, run, mid, read, finished⟩ := (opened.mono (fun _ _ done => done)
    fun _ u ⟨s, read, short⟩ => read.not_cutShort bare few fits short).exists_ok
  obtain ⟨readable, none_⟩ := finished.readable read.pages
  obtain ⟨facts, u, shown, rfl, -⟩ := (readable.wp_allFacts crc).exists_ok
  rw [none_, List.append_nil, Store.map_pendingAt, read.facts] at shown
  exact ⟨s, u, run, shown⟩

/-- So is a file that was saved. -/
theorem Store.Finished.reopens {s w : Store H C} (finished : s.Finished crc postcard [] w)
    (none_ : s.committedFactPages = 0) :
    ∃ (t u : Store H C), openVersion crc postcard v1 blobs 7 (Store.init (Dev.found w.dev.disk capacity none)) = .ok () t ∧
      allFacts crc postcard t = .ok s.storage.facts u := by
  obtain ⟨_, t, run, readable, empty⟩ :=
    (@Disk.Whole.wp_openVersion H C crc postcard v1 blobs _ capacity _ _ (finished.whole none_)).exists_ok
  obtain ⟨facts, u, shown, rfl, -⟩ := (readable.wp_allFacts crc).exists_ok
  rw [empty, List.append_nil, Store.map_pendingAt] at shown
  exact ⟨t, u, run, shown⟩

/-- A saved file survives. -/
theorem Store.Finished.survives {s w : Store H C} (finished : s.Finished crc postcard [] w)
    (read : ReadFrom postcard v1 version d capacity faults s) (bare : d.Bare) (legacy : d.Legacy postcard v1 version)
    (tells : TellsApart postcard.fact.decode) (tells' : TellsApart v1.decode) :
    d.Survives crc postcard v1 blobs version capacity w.dev.disk := by
  obtain ⟨t, u, run, shown⟩ := @Store.Finished.reopens H C crc postcard v1 blobs capacity _ s w finished read.pages
  have pos := (finished.whole read.pages).pos
  have current : w.dev.disk.version version = 7 := if_neg (by omega)
  have spared : d.SparesFacts postcard v1 version d := by
    have each {α : Type} (decode : List UInt8 → Option α) : d.Spares decode d := by
      intro a ha
      obtain ⟨i, data, inside, here⟩ := (Disk.mem_held bare.counted).mp ha
      exact ⟨i, data, inside, rfl, here⟩
    rw [Disk.SparesFacts]
    split
    · exact each _
    · exact each _
  refine ⟨t, s.storage.facts, u, ?_, shown, ?_⟩
  · rw [current]
    exact run
  · rw [read.facts]
    exact (bare.torn.yields_iff legacy tells tells').mpr spared

/-! ## Index blobs -/

end Crash
end Minigraf
