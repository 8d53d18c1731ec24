import Mathlib.Data.List.Induction
import Minigraf.Graph.Ranges
import Minigraf.Storage.Postcard

/-!
What stands between two checkpoints: over every sequence of calls the set of keys and the four
indexes of the store are those of its pending facts, and no fact is loaded under a key that is
pending already.
-/

namespace Minigraf

open EStateM

/-! ## The maps of placed facts -/

section Maps

variable {K : Type} [LinearOrder K] {key : Fact → Option K} {placed : List (Fact × FactRef)}

/-- One map of `indexesOf`. -/
def mapOf (key : Fact → Option K) (placed : List (Fact × FactRef)) : OrdMap K FactRef :=
  placed.foldl (fun m p => (key p.1).elim m fun k => m.insert k p.2) .empty

/-- The last fact under a key is the one in the map. -/
theorem mem_mapOf {e : K × FactRef} :
    e ∈ (mapOf key placed).entries ↔ ∃ front p back, placed = front ++ p :: back ∧
      key p.1 = some e.1 ∧ p.2 = e.2 ∧ ∀ q ∈ back, key q.1 ≠ some e.1 := by
  rw [mapOf, OrdMap.mem_foldl_insert (fun p : Fact × FactRef => key p.1) Prod.snd placed .empty]
  exact or_iff_left fun ⟨no, _⟩ => nomatch no

theorem exists_of_mem_mapOf {e : K × FactRef} (h : e ∈ (mapOf key placed).entries) :
    ∃ p ∈ placed, key p.1 = some e.1 ∧ p.2 = e.2 := by
  obtain ⟨front, p, back, rfl, same, same', _⟩ := mem_mapOf.mp h
  exact ⟨p, List.mem_append_right _ List.mem_cons_self, same, same'⟩

/-- A key some fact has is in the map. -/
theorem exists_mem_mapOf {k : K} (some_ : ∃ p ∈ placed, key p.1 = some k) :
    ∃ q ∈ placed, key q.1 = some k ∧ (k, q.2) ∈ (mapOf key placed).entries := by
  induction placed with
  | nil =>
      obtain ⟨_, no, _⟩ := some_
      cases no
  | cons first placed ih =>
      by_cases later : ∃ q ∈ placed, key q.1 = some k
      · obtain ⟨q, hq, same, kept⟩ := ih later
        obtain ⟨front, r, back, whole, last⟩ := mem_mapOf.mp kept
        exact ⟨q, List.mem_cons_of_mem _ hq, same, mem_mapOf.mpr ⟨first :: front, r, back,
          by rw [whole]; rfl, last⟩⟩
      · obtain ⟨p, hp, hk⟩ := some_
        obtain rfl : p = first := by
          obtain same | hp := List.mem_cons.mp hp
          · exact same
          · exact absurd ⟨p, hp, hk⟩ later
        exact ⟨p, List.mem_cons_self, hk, mem_mapOf.mpr ⟨[], p, placed, rfl, hk, rfl,
          fun q hq same => later ⟨q, hq, same⟩⟩⟩

theorem length_mapOf_le (key : Fact → Option K) (placed : List (Fact × FactRef)) :
    (mapOf key placed).entries.length ≤ placed.length := by
  induction placed using List.reverseRecOn with
  | nil => exact le_rfl
  | append_singleton placed p ih =>
      rw [mapOf, List.foldl_concat, ← mapOf, List.length_append, List.length_singleton]
      cases key p.1 with
      | none => exact ih.trans (Nat.le_succ _)
      | some k => exact (length_insertSorted_le k p.2 _).trans (Nat.succ_le_succ ih)

/-- Filing placed facts fills the four maps. -/
theorem foldl_insert_eq (placed : List (Fact × FactRef)) :
    placed.foldl (fun idx p => idx.insert p.1 p.2) Indexes.new =
      ⟨mapOf (some ∘ Fact.eavtKey) placed, mapOf (some ∘ Fact.aevtKey) placed,
        mapOf (some ∘ Fact.avetKey) placed, mapOf Fact.vaetKey placed⟩ := by
  induction placed using List.reverseRecOn with
  | nil => rfl
  | append_singleton placed p ih =>
      rw [List.foldl_concat, ih]
      simp only [Indexes.insert, mapOf, List.foldl_concat, Function.comp, Option.elim_some]
      cases p.1.vaetKey <;> rfl

end Maps

/-! ## Calls -/

/-- The calls that change what is pending. -/
inductive FactCall where
  | transact (tuples : List (EntityId × Attribute × Value)) (opts : Option TransactOptions) (txId : TxId)
  | retract (tuples : List (EntityId × Attribute × Value)) (txId : TxId)
  | loadFact (fact : Fact)
  | loadFacts (facts : List Fact)
  | publish (roots : Roots)

namespace FactCall

def run : FactCall → FactM Unit
  | transact tuples opts txId => do let _ ← Minigraf.transact tuples opts txId
  | retract tuples txId => do let _ ← Minigraf.retract tuples txId
  | loadFact fact => do let _ ← Minigraf.loadFact fact
  | loadFacts facts => do let _ ← Minigraf.loadFacts facts
  | publish roots => Minigraf.publish roots

/-- Which pending facts were loaded, behind a call that led from `s` to `t`. -/
def loaded (marks : List Bool) (s t : FactStorage) : FactCall → List Bool
  | transact .. | retract .. => marks ++ List.replicate (t.facts.length - s.facts.length) false
  | loadFact _ | loadFacts _ => marks ++ List.replicate (t.facts.length - s.facts.length) true
  | publish _ => []

end FactCall

/-- The states of a store that starts with nothing pending, each with the marks of the facts
that were loaded; a call that fails leaves the state it has come to. -/
inductive PendingRun (start : FactStorage) : FactStorage → List Bool → Prop
  | start : PendingRun start start []
  | ok {s t : FactStorage} {marks : List Bool} (call : FactCall) (before : PendingRun start s marks)
      (h : call.run s = .ok () t) : PendingRun start t (call.loaded marks s t)
  | error {s t : FactStorage} {marks : List Bool} {e : ErrorCode} (call : FactCall)
      (before : PendingRun start s marks) (h : call.run s = .error e t) :
      PendingRun start t (call.loaded marks s t)

/-- Nothing is pending. -/
structure FactStorage.Settled (s : FactStorage) : Prop where
  facts : s.facts = []
  keys : s.pendingKeys = []
  indexes : s.pendingIndexes = .new

/-- A loaded fact has a key that no fact before it has. -/
def LoadedApart (facts : List Fact) (marks : List Bool) : Prop :=
  marks.length = facts.length ∧
    (facts.zip marks).Pairwise fun a b => b.2 = true → pendingKey a.1 ≠ pendingKey b.1

theorem FactStorage.Settled.ok {s : FactStorage} (h : s.Settled) : s.Ok :=
  ⟨by simp [h.facts, h.keys], by rw [h.facts, h.indexes]; rfl⟩

theorem LoadedApart.append {facts new : List Fact} {marks : List Bool} {mark : Bool} (h : LoadedApart facts marks)
    (distinct : mark = true → (new.map pendingKey).Nodup ∧ ∀ f ∈ facts, ∀ g ∈ new, pendingKey f ≠ pendingKey g) :
    LoadedApart (facts ++ new) (marks ++ List.replicate new.length mark) := by
  obtain ⟨width, apart⟩ := h
  refine ⟨by rw [List.length_append, List.length_append, List.length_replicate, width], ?_⟩
  have marked : new.zip (List.replicate new.length mark) = new.map (·, mark) := by
    refine List.ext_getElem (by simp) fun i _ _ => ?_
    simp only [List.getElem_zip, List.getElem_replicate, List.getElem_map]
  rw [List.zip_append width.symm, marked]
  refine List.pairwise_append.mpr ⟨apart, List.pairwise_map.mpr ?_, fun a ha b hb => ?_⟩
  · cases mark with
    | false => exact List.pairwise_of_forall fun _ _ no => nomatch no
    | true =>
        refine List.Pairwise.imp ?_ (List.pairwise_map.mp (distinct rfl).1)
        intro a b differ _
        exact differ
  · obtain ⟨g, hg, rfl⟩ := List.mem_map.mp hb
    intro set
    exact (distinct set).2 a.1 (List.of_mem_zip ha).1 g hg

/-! ## Runs -/

/-- What a call does to the pending facts. -/
theorem FactCall.wp_run (call : FactCall) {s : FactStorage} {marks : List Bool} (ok : s.Ok)
    (apart : LoadedApart s.facts marks) :
    Wp call.run s (fun _ t => t.Ok ∧ LoadedApart t.facts (call.loaded marks s t))
      (fun _ t => t.Ok ∧ LoadedApart t.facts (call.loaded marks s t)) := by
  have wrote {t : FactStorage} {new : List Fact} (h : Appended { s with txCounter := s.txCounter + 1 } new t) :
      t.Ok ∧ LoadedApart t.facts (marks ++ List.replicate (t.facts.length - s.facts.length) false) := by
    refine ⟨h.ok ⟨ok.keys, ok.indexes⟩, ?_⟩
    rw [h.facts, List.length_append, Nat.add_sub_cancel_left]
    exact apart.append fun no => nomatch no
  have filed {t : FactStorage} {facts : List Fact} (h : Appended s (freshFacts s.pendingKeys facts) t) :
      t.Ok ∧ LoadedApart t.facts (marks ++ List.replicate (t.facts.length - s.facts.length) true) := by
    refine ⟨h.ok ok, ?_⟩
    rw [h.facts, List.length_append, Nat.add_sub_cancel_left]
    refine apart.append fun _ => ⟨freshFacts_nodup _ _, fun f hf g hg same => ?_⟩
    exact (mem_freshFacts hg).2 ((ok.keys _).mpr ⟨f, hf, same⟩)
  have unchanged (mark : Bool) : s.Ok ∧
      LoadedApart s.facts (marks ++ List.replicate (s.facts.length - s.facts.length) mark) := by
    rw [Nat.sub_self, List.replicate_zero, List.append_nil]
    exact ⟨ok, apart⟩
  cases call with
  | transact tuples opts txId =>
      rw [FactCall.run, wp_bind]
      refine (wp_transact s tuples opts txId).mono ?_ fun _ t same => wrote same
      rintro _ t ⟨new, appended⟩
      exact wrote appended
  | retract tuples txId =>
      rw [FactCall.run, wp_bind]
      refine (wp_retract s tuples txId).mono ?_ fun _ t same => wrote same
      rintro _ t ⟨new, appended⟩
      exact wrote appended
  | loadFact fact =>
      rw [FactCall.run, wp_bind]
      refine (wp_loadFact s fact).mono (fun _ t appended => filed appended) ?_
      rintro _ _ ⟨rfl, -⟩
      exact unchanged true
  | loadFacts facts =>
      rw [FactCall.run, wp_bind]
      refine (wp_loadFacts s facts).mono (fun _ t appended => filed appended) ?_
      rintro _ _ ⟨rfl, -⟩
      exact unchanged true
  | publish roots => exact ⟨⟨by simp, rfl⟩, rfl, .nil⟩

theorem PendingRun.ok_apart {start s : FactStorage} {marks : List Bool} (settled : start.Settled)
    (h : PendingRun start s marks) : s.Ok ∧ LoadedApart s.facts marks := by
  induction h with
  | start =>
      refine ⟨settled.ok, ?_⟩
      rw [settled.facts]
      exact ⟨rfl, .nil⟩
  | ok call _ h ih => exact (call.wp_run ih.1 ih.2).of_ok h
  | error call _ h ih => exact (call.wp_run ih.1 ih.2).of_error h

/-! ## Indexes -/

section Indexed

variable {H C : Type} (crc : Crc H C) (postcard : Postcard) {K : Type} [LinearOrder K]

/-- Every entry of an index resolves to a pending fact with its key, and the key of every fact is
in the index. -/
structure IndexedBy (s : FactStorage) (key : Fact → Option K) (index : OrdMap K FactRef) : Prop where
  resolves : ∀ e ∈ index.entries, ∃ f ∈ s.facts, key f = some e.1 ∧
    ∀ store : Store H C, store.storage = s → resolveFactRef crc postcard e.2 store = .ok f store
  present : ∀ f ∈ s.facts, ∀ k, key f = some k → ∃ r, (k, r) ∈ index.entries

theorem indexedBy_mapOf (s : FactStorage) (key : Fact → Option K) :
    IndexedBy crc postcard s key (mapOf key (pendingPlaced s.facts)) := by
  constructor
  · intro e he
    obtain ⟨p, hp, same, place⟩ := exists_of_mem_mapOf he
    obtain ⟨⟨f, i⟩, hfi, rfl⟩ := List.mem_map.mp hp
    have here : s.facts[i]? = some f := List.mem_zipIdx_iff_getElem?.mp hfi
    refine ⟨f, List.mem_of_getElem? here, same, fun store holds => ?_⟩
    rw [← place]
    simp only [resolveFactRef, bind, EStateM.bind, get, getThe, MonadStateOf.get, EStateM.get_at, if_true,
      holds, here, Option.elim_some]
    rfl
  · intro f hf k hk
    rw [← map_pendingPlaced s.facts] at hf
    obtain ⟨p, hp, rfl⟩ := List.mem_map.mp hf
    obtain ⟨q, -, -, kept⟩ := exists_mem_mapOf ⟨p, hp, hk⟩
    exact ⟨q.2, kept⟩

/-- The four indexes, over the keys of the facts. -/
structure IndexedFacts (s : FactStorage) : Prop where
  eavt : IndexedBy crc postcard s (some ∘ Fact.eavtKey) s.pendingIndexes.eavt
  aevt : IndexedBy crc postcard s (some ∘ Fact.aevtKey) s.pendingIndexes.aevt
  avet : IndexedBy crc postcard s (some ∘ Fact.avetKey) s.pendingIndexes.avet
  vaet : IndexedBy crc postcard s Fact.vaetKey s.pendingIndexes.vaet
  refs : ∀ f ∈ s.facts, (∃ k r, f.vaetKey = some k ∧ (k, r) ∈ s.pendingIndexes.vaet.entries) ↔
    ∃ target, f.value = .ref target

theorem vaetKey_isSome {f : Fact} : (∃ k, f.vaetKey = some k) ↔ ∃ target, f.value = .ref target := by
  rw [Fact.vaetKey]
  cases f.value <;> simp

theorem FactStorage.Ok.indexed {s : FactStorage} (h : s.Ok) : IndexedFacts crc postcard s := by
  have indexes := h.indexes.trans (foldl_insert_eq (pendingPlaced s.facts))
  have vaet := indexedBy_mapOf crc postcard s Fact.vaetKey
  constructor
  · rw [indexes]
    exact indexedBy_mapOf crc postcard s _
  · rw [indexes]
    exact indexedBy_mapOf crc postcard s _
  · rw [indexes]
    exact indexedBy_mapOf crc postcard s _
  · rw [indexes]
    exact vaet
  · intro f hf
    rw [indexes, ← vaetKey_isSome]
    constructor
    · rintro ⟨k, -, key, -⟩
      exact ⟨k, key⟩
    · rintro ⟨k, key⟩
      obtain ⟨r, kept⟩ := vaet.present f hf k key
      exact ⟨k, r, key, kept⟩

theorem loadFacts_error {s t : FactStorage} {facts : List Fact} {e : ErrorCode}
    (failed : loadFacts facts s = .error e t) : t = s :=
  ((wp_loadFacts s facts).of_error failed).1

/-- Over every sequence of calls on a store that starts with nothing pending. -/
theorem PendingRun.pending_exact {start s : FactStorage} {marks : List Bool} (settled : start.Settled)
    (h : PendingRun start s marks) :
    (∀ k, k ∈ s.pendingKeys ↔ ∃ f ∈ s.facts, pendingKey f = k) ∧ IndexedFacts crc postcard s ∧
    LoadedApart s.facts marks ∧
    ∀ facts e t, loadFacts facts s = .error e t → t = s := by
  obtain ⟨ok, apart⟩ := h.ok_apart settled
  exact ⟨ok.keys, ok.indexed crc postcard, apart, fun _ _ _ failed => loadFacts_error failed⟩

end Indexed

/-- A reference is asserted, and loaded again with another fact. -/
theorem PendingRun.pending_exact_two : ∃ s, PendingRun FactStorage.new s [false, true] ∧
    s.facts.length = 2 ∧ IndexedFacts Crc.lossless Postcard.standard s := by
  have first : PendingRun FactStorage.new _ _ := .ok (.transact [(1, ":friend", .ref 7)] none 5) .start rfl
  have run := PendingRun.ok (.loadFacts [⟨1, ":friend", .ref 7, 5, 1, 5, VALID_TIME_FOREVER, true⟩,
    ⟨2, ":name", .string "b", 5, 2, 5, VALID_TIME_FOREVER, true⟩]) first rfl
  exact ⟨_, run, rfl, (run.pending_exact Crc.lossless Postcard.standard ⟨rfl, rfl, rfl⟩).2.1⟩

end Minigraf
