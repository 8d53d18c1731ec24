import Minigraf.Storage.Btree.Handed
import Minigraf.Storage.Separators

/-!
Which facts the index pages hold. A page keeps to its bounds when its records end behind
the slot directory, and behind the child array of an internal page, and it reads as what
was put on it. The limit on a fact is not a limit on its index entries: an entry repeats
the attribute and the value in another encoding, beside a place.
-/

namespace Minigraf

open Bytes EStateM

section Trees

variable {K : Type} (codec : IndexCodec K)

/-- A leaf page to be written keeps to its bounds and reads as its entries, whichever leaf
it is linked to. -/
def LeafSafe (entries : List (K × FactRef)) : Prop :=
  LeafRoom codec entries ∧ ∃ page, encodeLeafPage (entries.map codec.entry.encode) 0 = .ok page ∧
    LeafOf codec page entries 0 ∧
    ∀ link < 256 ^ 8, ∃ page', withNextLeaf page link = .ok page' ∧ LeafOf codec page' entries link

theorem leafSafe_iff (entries : List (K × FactRef)) : LeafSafe codec entries ↔ LeafRoom codec entries := by
  refine ⟨And.left, fun room => ⟨room, ?_⟩⟩
  obtain ⟨page, hpage, hleaf⟩ := @encodeLeafPage_room (entries.map codec.entry.encode) 0
    (by rw [List.length_map]; exact room) (by decide)
  exact ⟨page, hpage, hleaf.leafOf, fun link small => hleaf.leafOf.relink small⟩

/-- The pages of a tree that starts at `start`: the leaves that are encoded, the old ones
that are copied and the internal pages above all. -/
structure PagesSafe (start : Nat) (handed : List (Handed K)) : Prop where
  leaves : ∀ h ∈ handed, h.copied = none → LeafSafe codec h.entries
  copies : ∀ h ∈ handed, ∀ page, h.copied = some page → ∀ link < 256 ^ 8,
    ∃ page', withNextLeaf page link = .ok page' ∧ LeafOf codec page' h.entries link
  nodes : ∀ node ∈ internalNodes (infosFrom codec start (handed.map Handed.entries))
    (start + handed.length), NodeSafe node

/-- How leaves get on disk: a bulk build writes them and links them afterwards, a rebuild
holds each back until the next one is known. -/
inductive LeafWrites {H C : Type} (crc : Crc H C) (start : Nat) : List (Handed K) → Io C Unit → Prop
  | empty : LeafWrites crc start [] (writeLeafPage crc start [] 0)
  | bulk (leaves : List ((K × FactRef) × List (K × FactRef))) :
      LeafWrites crc start (leaves.map fun leaf => ⟨leaf, none⟩) (do
        writeLeaves crc codec start leaves
        patchLeaves crc start (leaves.length - 1))
  | held (handed : List (Handed K)) :
      LeafWrites crc start handed (do
        let emitter ← pushHanded codec crc ⟨start, none, []⟩ handed
        releaseHeld crc emitter.held 0)

/-- The program writes these leaves, then the internal pages over them, and no others. -/
def WritesPages {H C : Type} (crc : Crc H C) (program : Io C (Nat × Nat)) (start : Nat)
    (handed : List (Handed K)) : Prop :=
  ∃ leaves root stop, LeafWrites codec crc start handed leaves ∧ program = (do
    leaves
    writeNodes crc (start + handed.length)
      (internalNodes (infosFrom codec start (handed.map Handed.entries)) (start + handed.length))
    pure (root, stop))

/-- A program may go on differently where the one before never gets. -/
theorem bind_congr_of_wp {C α β : Type} {x : Io C α} {f g : α → Io C β}
    (h : ∀ s, Wp x s (fun a t => f a t = g a t) fun _ _ => True) : x >>= f = x >>= g := by
  funext s
  have run := h s
  simp only [Wp] at run
  simp only [bind, EStateM.bind]
  cases hx : x s with
  | ok a t =>
      rw [hx] at run
      exact run
  | error e t => rfl

variable {codec} {H C : Type} {crc : Crc H C}

theorem bulkHanded_entries (entries : List (K × FactRef)) :
    (bulkHanded codec entries).map Handed.entries =
      (packLeaves codec leafOverflows entries).map Greedy.members := by
  rw [bulkHanded, List.map_map]
  rfl

theorem buildBtree_writes (entries : List (K × FactRef)) (start : Nat) :
    WritesPages codec crc (buildBtree crc codec entries start) start (bulkHanded codec entries) := by
  have handed : (bulkHanded codec entries).map Handed.entries =
      (packLeaves codec leafOverflows entries).map Greedy.members := bulkHanded_entries entries
  rw [buildBtree]
  cases hleaves : packLeaves codec leafOverflows entries with
  | nil =>
      have none_ : bulkHanded codec entries = [] := by rw [bulkHanded, hleaves, List.map_nil]
      rw [none_]
      refine ⟨_, start, start + 1, .empty, ?_⟩
      rw [List.map_nil, infosFrom, internalNodes]
      rfl
  | cons leaf leaves =>
      have some_ : bulkHanded codec entries = (leaf :: leaves).map fun leaf => ⟨leaf, none⟩ := by
        rw [bulkHanded, hleaves]
      rw [hleaves] at handed
      obtain ⟨root, above⟩ := @buildInternalLevels_eq H C crc
        (infosFrom codec start ((leaf :: leaves).map Greedy.members)) (List.cons_ne_nil _ _)
        (start + (leaf :: leaves).length)
      rw [WritesPages, handed, some_, List.length_map]
      refine ⟨_, root, start + (leaf :: leaves).length + (internalNodes (infosFrom codec start
        ((leaf :: leaves).map Greedy.members)) (start + (leaf :: leaves).length)).length,
        .bulk (leaf :: leaves), ?_⟩
      simp only [leafInfos_eq, above, bind_assoc]

theorem keyedLeaves_reads {olds : List (Page × (K × FactRef) × List (K × FactRef))}
    (reads : ∀ old ∈ olds, ∃ link, LeafOf codec old.1 (Greedy.members old.2) link) :
    keyedLeaves codec (olds.map Prod.fst) = .ok (olds.map fun old => (old.1, old.2.1.1)) := by
  induction olds with
  | nil => rfl
  | cons old olds ih =>
      obtain ⟨link, leaf⟩ := reads old List.mem_cons_self
      exact keyedLeaves_cons codec leaf.firstKey (ih fun o ho => reads o (List.mem_cons_of_mem _ ho))

theorem packLeaves_ne_nil {full : PageFill → Nat → Bool} {entries : List (K × FactRef)}
    (some_ : entries ≠ []) : packLeaves codec full entries ≠ [] := by
  intro none_
  have whole := packLeaves_flatten codec full entries
  rw [none_] at whole
  exact some_ whole.symm

variable [LinearOrder K]

theorem leafHanded_ne_nil (old : Page × (K × FactRef) × List (K × FactRef)) (batch : List (K × FactRef)) :
    leafHanded codec old batch ≠ [] := by
  unfold leafHanded
  split
  · exact List.cons_ne_nil _ _
  · rw [packedHanded, Ne, List.map_eq_nil_iff]
    refine packLeaves_ne_nil fun none_ => ?_
    have merged := mergeSortedVecs_perm (Greedy.members old.2) batch
    rw [none_] at merged
    exact absurd merged.nil_eq (List.cons_ne_nil _ _).symm

/-- What a rebuild hands to the writers, from the old leaves that have entries. -/
def handedLeaves (codec : IndexCodec K) (olds : List (Page × (K × FactRef) × List (K × FactRef)))
    (pending : List (K × FactRef)) : List (Handed K) :=
  if olds.isEmpty then bulkHanded codec pending else leavesHanded codec olds pending

theorem rebuildBtreeIncremental_writes {olds : List (Page × (K × FactRef) × List (K × FactRef))}
    (reads : ∀ old ∈ olds, ∃ link, LeafOf codec old.1 (Greedy.members old.2) link)
    (pending : List (K × FactRef)) (start : Nat) :
    WritesPages codec crc (rebuildBtreeIncremental crc codec (olds.map Prod.fst) pending start) start
      (handedLeaves codec olds pending) := by
  rw [rebuildBtreeIncremental, keyedLeaves_reads reads]
  cases olds with
  | nil => exact buildBtree_writes pending start
  | cons old olds =>
      have entries : ∀ o ∈ old :: olds, readLeafEntries codec o.1 = .ok (Greedy.members o.2) := by
        intro o ho
        obtain ⟨link, leaf⟩ := reads o ho
        exact leaf.entries
      have some_ : leavesHanded codec (old :: olds) pending ≠ [] := by
        rw [leavesHanded]
        exact fun none_ => leafHanded_ne_nil old _ (List.append_eq_nil_iff.mp none_).1
      rw [show handedLeaves codec (old :: olds) pending = leavesHanded codec (old :: olds) pending from rfl]
      generalize hhanded : leavesHanded codec (old :: olds) pending = handed at some_
      have infos : infosFrom codec start (handed.map Handed.entries) ≠ [] := by
        rw [← List.length_pos_iff, length_infosFrom, List.length_map]
        exact List.length_pos_iff.mpr some_
      obtain ⟨root, above⟩ := @buildInternalLevels_eq H C crc _ infos (start + handed.length)
      refine ⟨_, root, start + handed.length + (internalNodes (infosFrom codec start
        (handed.map Handed.entries)) (start + handed.length)).length, .held handed, ?_⟩
      simp only [ofResult, pure_bind, rebuildLeaves_eq codec crc _ entries, hhanded, bind_assoc]
      rw [if_neg (by simp)]
      refine bind_congr_of_wp fun s => (wp_pushHanded codec crc _ handed s).post ?_
      rintro emitter t ⟨next, listed⟩
      rw [List.nil_append] at listed
      simp only at next listed
      simp only [LeafEmitter.finish, bind_assoc, pure_bind, next, listed, above]

end Trees

/-! ## Room -/

section Room

variable {K : Type} {codec : IndexCodec K}

/-- An old leaf: a page that reads as these entries and has room for them. -/
structure OldLeaf (codec : IndexCodec K) (page : Page) (entries : List (K × FactRef)) : Prop where
  reads : ∃ link, LeafOf codec page entries link
  room : LeafRoom codec entries

/-- An entry that leaves room for its slot in a leaf. -/
def EntryRoom (codec : IndexCodec K) (e : K × FactRef) : Prop :=
  LEAF_HEADER_SIZE + 4 + (codec.entry.encode e).length ≤ PAGE_SIZE

theorem LeafRoom.entry {entries : List (K × FactRef)} (room : LeafRoom codec entries) {e : K × FactRef}
    (he : e ∈ entries) : EntryRoom codec e := by
  have part := Block.length_le_recordBytes (List.mem_map_of_mem (f := codec.entry.encode) he)
  have some_ := List.length_pos_of_mem he
  simp only [LeafRoom] at room
  simp only [EntryRoom]
  omega

theorem flatten_packed (full : PageFill → Nat → Bool) (entries : List (K × FactRef)) :
    (((packLeaves codec full entries).map fun leaf => (⟨leaf, none⟩ : Handed K)).map
      Handed.entries).flatten = entries := by
  rw [List.map_map]
  exact packLeaves_flatten codec full entries

theorem packed_room {full : PageFill → Nat → Bool}
    (tight : ∀ p len, full p len = false →
      LEAF_HEADER_SIZE + 4 * (p.records + 1) + (p.bytes + len) ≤ PAGE_SIZE)
    {entries : List (K × FactRef)} (fits : ∀ e ∈ entries, EntryRoom codec e) :
    ∀ h ∈ (packLeaves codec full entries).map fun leaf => (⟨leaf, none⟩ : Handed K),
      LeafRoom codec h.entries ∧ h.copied = none := by
  intro h hh
  obtain ⟨leaf, hleaf, rfl⟩ := List.mem_map.mp hh
  exact ⟨packLeaves_room codec tight fits leaf hleaf, rfl⟩

theorem packed_copied {full : PageFill → Nat → Bool} {entries : List (K × FactRef)} {h : Handed K}
    (hh : h ∈ (packLeaves codec full entries).map fun leaf => (⟨leaf, none⟩ : Handed K)) :
    h.copied = none := by
  obtain ⟨leaf, _, rfl⟩ := List.mem_map.mp hh
  rfl

theorem tail_infosFrom {P : List UInt8 → Prop} (start : Nat) (leaves : List (List (K × FactRef))) :
    (∀ info ∈ (infosFrom codec start leaves).tail, P info.2) ↔
      ∀ entries ∈ leaves.tail, P (firstKeyBytes codec entries) := by
  cases leaves with
  | nil => simp [infosFrom]
  | cons entries leaves =>
      rw [infosFrom, List.tail_cons, List.tail_cons]
      generalize start + 1 = next
      induction leaves generalizing next with
      | nil => simp [infosFrom]
      | cons entries leaves ih => simp only [infosFrom, List.forall_mem_cons, ih]

theorem infosFrom_small {start bound : Nat} {leaves : List (List (K × FactRef))}
    (inside : start + leaves.length ≤ bound) : ∀ info ∈ infosFrom codec start leaves, info.1 < bound := by
  induction leaves generalizing start with
  | nil => exact fun _ no => absurd no List.not_mem_nil
  | cons entries leaves ih =>
      rw [List.length_cons] at inside
      intro info hinfo
      obtain rfl | hinfo := List.mem_cons.mp hinfo
      · simp only
        omega
      · exact ih (by omega) info hinfo

variable [LinearOrder K]

theorem flatten_leavesHanded (olds : List (Page × (K × FactRef) × List (K × FactRef)))
    (pending : List (K × FactRef)) :
    ((leavesHanded codec olds pending).map Handed.entries).flatten =
      rebuilt (olds.map fun old => Greedy.members old.2) pending := by
  induction olds generalizing pending with
  | nil => rfl
  | cons old olds ih =>
      have upper : upperKey (olds.map fun old => Greedy.members old.2) =
          olds.head?.map fun next => next.2.1.1 := by
        cases olds <;> rfl
      rw [leavesHanded, List.map_append, List.flatten_append, ih, List.map_cons, rebuilt, upper]
      congr 1
      unfold leafHanded
      split
      · rename_i none_
        rw [List.isEmpty_iff.mp none_, mergeSortedVecs, List.merge_right]
        exact List.append_nil _
      · exact flatten_packed _ _

theorem handedLeaves_perm (olds : List (Page × (K × FactRef) × List (K × FactRef)))
    (pending : List (K × FactRef)) :
    ((handedLeaves codec olds pending).map Handed.entries).flatten.Perm
      ((olds.map fun old => Greedy.members old.2).flatten ++ pending) := by
  unfold handedLeaves
  split
  · rename_i none_
    rw [List.isEmpty_iff.mp none_, bulkHanded, flatten_packed]
    exact .refl _
  · rename_i some_
    rw [flatten_leavesHanded]
    refine rebuilt_perm (fun none_ => some_ ?_) pending
    rw [List.map_eq_nil_iff.mp none_]
    rfl

theorem handedLeaves_sorted {olds : List (Page × (K × FactRef) × List (K × FactRef))}
    (sorted : (olds.map fun old => Greedy.members old.2).flatten.Pairwise fun a b => a.1 ≤ b.1)
    {pending : List (K × FactRef)} (sortedPending : pending.Pairwise fun a b => a.1 ≤ b.1) :
    ((handedLeaves codec olds pending).map Handed.entries).flatten.Pairwise fun a b => a.1 ≤ b.1 := by
  unfold handedLeaves
  split
  · rw [bulkHanded, flatten_packed]
    exact sortedPending
  · rw [flatten_leavesHanded]
    refine rebuilt_sorted ?_ sorted sortedPending
    intro entries hentries
    obtain ⟨old, _, rfl⟩ := List.mem_map.mp hentries
    exact List.cons_ne_nil _ _

theorem handedLeaves_copied {olds : List (Page × (K × FactRef) × List (K × FactRef))}
    {pending : List (K × FactRef)} {h : Handed K} (hh : h ∈ handedLeaves codec olds pending)
    {page : Page} (copied : h.copied = some page) : (page, h.leaf) ∈ olds := by
  unfold handedLeaves at hh
  split at hh
  · rw [packed_copied hh] at copied
    cases copied
  · rename_i some_
    clear some_
    induction olds generalizing pending with
    | nil => exact absurd hh List.not_mem_nil
    | cons old olds ih =>
        rw [leavesHanded] at hh
        obtain here | later := List.mem_append.mp hh
        · unfold leafHanded at here
          split at here
          · rw [List.mem_singleton.mp here] at copied ⊢
            cases copied
            exact List.mem_cons_self
          · rw [packed_copied here] at copied
            cases copied
        · exact List.mem_cons_of_mem _ (ih later)

theorem leafHanded_room {old : Page × (K × FactRef) × List (K × FactRef)} (h : OldLeaf codec old.1 (Greedy.members old.2))
    {batch : List (K × FactRef)} (fits : ∀ e ∈ batch, EntryRoom codec e) :
    ∀ handed ∈ leafHanded codec old batch, LeafRoom codec handed.entries := by
  intro handed hhanded
  unfold leafHanded at hhanded
  split at hhanded
  · rw [List.mem_singleton.mp hhanded]
    exact h.room
  · refine (packed_room (emitFull_tight codec _) (fun e he => ?_) handed hhanded).1
    obtain old_ | new := List.mem_append.mp ((mergeSortedVecs_perm _ _).mem_iff.mp he)
    · exact h.room.entry old_
    · exact fits e new

theorem handedLeaves_room {olds : List (Page × (K × FactRef) × List (K × FactRef))}
    (leaf : ∀ old ∈ olds, OldLeaf codec old.1 (Greedy.members old.2)) {pending : List (K × FactRef)}
    (fits : ∀ e ∈ pending, EntryRoom codec e) :
    ∀ h ∈ handedLeaves codec olds pending, LeafRoom codec h.entries := by
  unfold handedLeaves
  split
  · exact fun h hh => (packed_room leafOverflows_tight fits h hh).1
  · rename_i some_
    clear some_
    induction olds generalizing pending with
    | nil => exact fun h no => absurd no List.not_mem_nil
    | cons old olds ih =>
        rw [leavesHanded]
        have split := routeBatch_append (olds.head?.map fun next => next.2.1.1) pending
        generalize routeBatch (olds.head?.map fun next => next.2.1.1) pending = route at split ⊢
        rw [← split] at fits
        intro h hh
        obtain here | later := List.mem_append.mp hh
        · exact leafHanded_room (leaf old List.mem_cons_self)
            (fun e he => fits e (List.mem_append_left _ he)) h here
        · exact ih (fun o ho => leaf o (List.mem_cons_of_mem _ ho))
            (fun e he => fits e (List.mem_append_right _ he)) h later

/-- The pages are safe exactly when the new entries fit the leaves and the first key of
each leaf but the first fits an internal page. -/
theorem pagesSafe_iff {olds : List (Page × (K × FactRef) × List (K × FactRef))}
    (leaf : ∀ old ∈ olds, OldLeaf codec old.1 (Greedy.members old.2)) (pending : List (K × FactRef))
    {start : Nat}
    (near : start + 3 * ((olds.map fun old => Greedy.members old.2).flatten ++ pending).length ≤
      PAGE_LIMIT) :
    PagesSafe codec start (handedLeaves codec olds pending) ↔
      (∀ e ∈ pending, EntryRoom codec e) ∧
        ∀ entries ∈ ((handedLeaves codec olds pending).map Handed.entries).tail,
          SepFits (firstKeyBytes codec entries) := by
  have whole := @handedLeaves_perm _ codec _ olds pending
  have few : (handedLeaves codec olds pending).length ≤
      ((handedLeaves codec olds pending).map Handed.entries).flatten.length := by
    have full : ∀ entries ∈ (handedLeaves codec olds pending).map Handed.entries, entries ≠ [] := by
      intro entries hentries
      obtain ⟨h, _, rfl⟩ := List.mem_map.mp hentries
      exact List.cons_ne_nil _ _
    have few := length_le_of_full full
    rwa [List.length_map] at few
  rw [whole.length_eq] at few
  have count : ((handedLeaves codec olds pending).map Handed.entries).length =
      (handedLeaves codec olds pending).length := List.length_map _
  have nodes := @internalNodes_safe (infosFrom codec start ((handedLeaves codec olds pending).map
    Handed.entries)) (start + (handedLeaves codec olds pending).length)
    (infosFrom_small (by rw [count]; simp only [PAGE_LIMIT] at near; omega))
    (by rw [length_infosFrom, count]; simp only [PAGE_LIMIT] at near; omega)
  rw [tail_infosFrom] at nodes
  rw [← nodes]
  constructor
  · intro safe
    refine ⟨fun e he => ?_, safe.nodes⟩
    obtain ⟨entries, hentries, he⟩ :=
      List.mem_flatten.mp (whole.symm.subset (List.mem_append_right _ he))
    obtain ⟨h, hh, rfl⟩ := List.mem_map.mp hentries
    cases copied : h.copied with
    | none => exact (safe.leaves h hh copied).1.entry he
    | some page => exact (leaf _ (handedLeaves_copied hh copied)).room.entry he
  · rintro ⟨fits, nodes⟩
    refine ⟨fun h hh _ => (leafSafe_iff codec _).mpr (handedLeaves_room leaf fits h hh), ?_, nodes⟩
    intro h hh page copied link small
    obtain ⟨_, reads⟩ := (leaf _ (handedLeaves_copied hh copied)).reads
    exact reads.relink small

end Room

/-! ## Every key but the least -/

section Keys

variable {K : Type} (key : Serial K)

theorem length_entry_ge (e : K × FactRef) :
    (key.put e.1).length + 2 ≤ ((Postcard.indexCodec key).entry.encode e).length := by
  have page := List.length_pos_iff.mpr (Serial.varint.put_ne_nil e.2.pageId)
  have slot := List.length_pos_iff.mpr (Serial.varint.put_ne_nil e.2.slotIndex)
  simp only [Postcard.indexCodec, Serial.codec, Serial.pair, List.length_append, Postcard.factRef,
    Serial.via]
  omega

/-- A key that fits no internal page leaves no room for another entry in its leaf. -/
theorem wide_alone {entries : List (K × FactRef)} (room : LeafRoom (Postcard.indexCodec key) entries)
    {e : K × FactRef} (he : e ∈ entries) (wide : ¬ SepFits (key.put e.1)) : entries = [e] := by
  obtain ⟨front, back, rfl⟩ := List.append_of_mem he
  have least (l : List (K × FactRef)) :
      3 * l.length ≤ Block.recordBytes (l.map (Postcard.indexCodec key).entry.encode) := by
    induction l with
    | nil => exact Nat.zero_le _
    | cons e l ih =>
        have size := length_entry_ge key e
        have some_ := List.length_pos_iff.mpr (key.put_ne_nil e.1)
        simp only [Block.recordBytes, List.map_cons, List.sum_cons, List.length_cons] at ih ⊢
        omega
  have size := length_entry_ge key e
  have before := least front
  have after := least back
  simp only [LeafRoom, Block.recordBytes, List.map_append, List.map_cons, List.sum_append,
    List.sum_cons, List.length_append, List.length_cons, LEAF_HEADER_SIZE, PAGE_SIZE] at room before after
  simp only [SepFits, INTERNAL_HEADER_SIZE, PAGE_SIZE] at wide
  have none_ : front.length = 0 ∧ back.length = 0 := by omega
  rw [List.length_eq_zero_iff.mp none_.1, List.length_eq_zero_iff.mp none_.2]
  rfl

/-- The leaves' first keys, but the first, fit as separators exactly when all keys but the
first do. -/
theorem separators_iff {leaves : List (List (K × FactRef))} (full : ∀ entries ∈ leaves, entries ≠ [])
    (room : ∀ entries ∈ leaves, LeafRoom (Postcard.indexCodec key) entries) :
    (∀ entries ∈ leaves.tail, SepFits (firstKeyBytes (Postcard.indexCodec key) entries)) ↔
      ∀ e ∈ leaves.flatten.tail, SepFits (key.put e.1) := by
  cases leaves with
  | nil => simp
  | cons first leaves =>
      obtain ⟨least, rest, rfl⟩ := List.exists_cons_of_ne_nil (full first List.mem_cons_self)
      simp only [List.tail_cons, List.flatten_cons, List.cons_append]
      constructor
      · intro seps e he
        by_contra wide
        obtain here | later := List.mem_append.mp he
        · have alone := wide_alone key (room _ List.mem_cons_self) (List.mem_cons_of_mem least here) wide
          rw [(List.cons.inj alone).2] at here
          exact List.not_mem_nil here
        · obtain ⟨entries, hentries, he⟩ := List.mem_flatten.mp later
          have alone := wide_alone key (room _ (List.mem_cons_of_mem _ hentries)) he wide
          have first := seps entries hentries
          rw [alone] at first
          exact wide first
      · intro narrow entries hentries
        obtain ⟨e, others, rfl⟩ :=
          List.exists_cons_of_ne_nil (full _ (List.mem_cons_of_mem _ hentries))
        exact narrow e (List.mem_append_right _ (List.mem_flatten.mpr ⟨_, hentries, List.mem_cons_self⟩))

variable [LinearOrder K]

/-- Lists of the same entries in the order of their keys have the same keys. -/
theorem keys_of_perm {a b : List (K × FactRef)} (perm : a.Perm b)
    (ha : a.Pairwise fun x y => x.1 ≤ y.1) (hb : b.Pairwise fun x y => x.1 ≤ y.1) :
    a.map Prod.fst = b.map Prod.fst :=
  (perm.map Prod.fst).eq_of_pairwise' (List.pairwise_map.mpr ha) (List.pairwise_map.mpr hb)

end Keys

/-! ## Trees of old leaves -/

/-- The leaves of a tree on disk. A tree without entries has an empty one. -/
structure OldTree {K : Type} [LinearOrder K] (codec : IndexCodec K) where
  leaves : List (Page × List (K × FactRef))
  leaf : ∀ old ∈ leaves, OldLeaf codec old.1 old.2
  sorted : (leaves.map Prod.snd).flatten.Pairwise fun a b => a.1 ≤ b.1

namespace OldTree

section

variable {K : Type} [LinearOrder K] {codec : IndexCodec K} (tree : OldTree codec)

def entries : List (K × FactRef) := (tree.leaves.map Prod.snd).flatten

/-- The leaves that have entries. -/
def olds : List (Page × (K × FactRef) × List (K × FactRef)) :=
  tree.leaves.filterMap fun old => old.2.head?.map fun first => (old.1, first, old.2.tail)

/-- What a rebuild with these entries writes. -/
def handed (pending : List (K × FactRef)) : List (Handed K) := handedLeaves codec tree.olds pending

theorem mem_olds {old : Page × (K × FactRef) × List (K × FactRef)} (h : old ∈ tree.olds) :
    (old.1, Greedy.members old.2) ∈ tree.leaves := by
  obtain ⟨⟨page, entries⟩, hleaf, first⟩ := List.mem_filterMap.mp h
  cases entries with
  | nil => cases first
  | cons e entries =>
      obtain rfl := Option.some.inj first
      exact hleaf

theorem flatten_olds : (tree.olds.map fun old => Greedy.members old.2).flatten = tree.entries := by
  rw [olds, entries]
  induction tree.leaves with
  | nil => rfl
  | cons old leaves ih =>
      obtain ⟨page, entries⟩ := old
      cases entries with
      | nil => exact ih
      | cons e entries =>
          rw [List.filterMap_cons_some (by rfl), List.map_cons, List.flatten_cons, ih]
          rfl

theorem keyedLeaves_olds : keyedLeaves codec (tree.leaves.map Prod.fst) =
    keyedLeaves codec (tree.olds.map Prod.fst) := by
  have leaf := tree.leaf
  rw [keyedLeaves_reads fun old hold => (tree.leaf _ (tree.mem_olds hold)).reads, olds]
  generalize tree.leaves = leaves at leaf
  induction leaves with
  | nil => rfl
  | cons old leaves ih =>
      obtain ⟨link, reads⟩ := (leaf old List.mem_cons_self).reads
      rw [List.map_cons, keyedLeaves_cons codec reads.firstKey (ih fun o ho => leaf o (List.mem_cons_of_mem _ ho))]
      obtain ⟨page, entries⟩ := old
      cases entries <;> rfl

/-- A rebuild from `start` on writes these pages, and each keeps to its bounds and reads as
what it was given. Without old leaves the rebuild is a bulk build. -/
def Kept {H C : Type} (crc : Crc H C) (start : Nat) (pending : List (K × FactRef)) : Prop :=
  WritesPages codec crc (rebuildBtreeIncremental crc codec (tree.leaves.map Prod.fst) pending start)
    start (tree.handed pending) ∧ PagesSafe codec start (tree.handed pending)

/-- The new entries fit a leaf each, and every key but the least of the tree fits an
internal page beside a child and a slot. -/
def Room (pending : List (K × FactRef)) : Prop :=
  (∀ e ∈ pending, EntryRoom codec e) ∧
    ∀ e ∈ (sortEntries (tree.entries ++ pending)).tail, SepFits (codec.key.encode e.1)

end

/-- A rebuild below the page limit keeps its pages exactly when there is room. -/
theorem kept_iff_room {K : Type} [LinearOrder K] {key : Serial K} (tree : OldTree (Postcard.indexCodec key))
    {H C : Type} (crc : Crc H C) {start : Nat} {pending : List (K × FactRef)}
    (sorted : pending.Pairwise fun a b => a.1 ≤ b.1)
    (near : start + 3 * (tree.entries ++ pending).length ≤ PAGE_LIMIT) :
    tree.Kept crc start pending ↔ tree.Room pending := by
  have leaf : ∀ old ∈ tree.olds, OldLeaf (Postcard.indexCodec key) old.1 (Greedy.members old.2) :=
    fun old hold => tree.leaf _ (tree.mem_olds hold)
  have writes : WritesPages (Postcard.indexCodec key) crc (rebuildBtreeIncremental crc
      (Postcard.indexCodec key) (tree.leaves.map Prod.fst) pending start) start
      (handedLeaves (Postcard.indexCodec key) tree.olds pending) := by
    rw [rebuildBtreeIncremental, tree.keyedLeaves_olds, ← rebuildBtreeIncremental]
    exact rebuildBtreeIncremental_writes (fun old hold => (leaf old hold).reads) pending start
  have whole := @handedLeaves_perm _ (Postcard.indexCodec key) _ tree.olds pending
  have ordered := @handedLeaves_sorted _ (Postcard.indexCodec key) _ tree.olds
    (by rw [flatten_olds]; exact tree.sorted) _ sorted
  rw [flatten_olds] at whole
  have keys := keys_of_perm (whole.trans (sortEntries_perm _).symm) ordered (sortEntries_sorted _)
  have safe := @pagesSafe_iff _ _ _ _ leaf pending start (by rw [flatten_olds]; exact near)
  have full : ∀ entries ∈ (handedLeaves (Postcard.indexCodec key) tree.olds pending).map Handed.entries,
      entries ≠ [] := by
    intro entries hentries
    obtain ⟨h, _, rfl⟩ := List.mem_map.mp hentries
    exact List.cons_ne_nil _ _
  have narrow (l : List (K × FactRef)) : (∀ e ∈ l.tail, SepFits (key.put e.1)) ↔
      ∀ k ∈ (l.map Prod.fst).tail, SepFits (key.put k) := by
    rw [← List.map_tail, List.forall_mem_map]
  rw [Kept, handed, safe, and_iff_right writes, Room]
  refine and_congr_right fun fits => ?_
  rw [separators_iff key full, narrow, keys, ← narrow]
  · rfl
  · intro entries hentries
    obtain ⟨h, hh, rfl⟩ := List.mem_map.mp hentries
    exact handedLeaves_room leaf fits h hh

theorem Room.of_fits {K : Type} [LinearOrder K] {codec : IndexCodec K} {tree : OldTree codec}
    {pending : List (K × FactRef)} (fits : ∀ e ∈ tree.entries ++ pending, EntryFits codec e) :
    tree.Room pending :=
  ⟨fun e he => (fits e (List.mem_append_right _ he)).leaf,
    fun e he => (fits e ((sortEntries_perm _).subset (List.mem_of_mem_tail he))).sep⟩

end OldTree

/-! ## The four indexes -/

/-- The leaves of the four trees on disk. -/
structure OldTrees where
  eavt : OldTree Postcard.standard.eavt
  aevt : OldTree Postcard.standard.aevt
  avet : OldTree Postcard.standard.avet
  vaet : OldTree Postcard.standard.vaet

/-- The first page of each new tree. -/
structure Starts where
  eavt : Nat
  aevt : Nat
  avet : Nat
  vaet : Nat

namespace OldTrees

/-- No trees yet. -/
def none : OldTrees where
  eavt := ⟨[], fun _ no => absurd no List.not_mem_nil, .nil⟩
  aevt := ⟨[], fun _ no => absurd no List.not_mem_nil, .nil⟩
  avet := ⟨[], fun _ no => absurd no List.not_mem_nil, .nil⟩
  vaet := ⟨[], fun _ no => absurd no List.not_mem_nil, .nil⟩

/-- The trees with the entries of these facts stay below the page limit. -/
structure Near (old : OldTrees) (starts : Starts) (placed : List (Fact × FactRef)) : Prop where
  eavt : starts.eavt + 3 * (old.eavt.entries ++
    indexEntries (some ∘ Fact.eavtKey) placed).length ≤ PAGE_LIMIT
  aevt : starts.aevt + 3 * (old.aevt.entries ++
    indexEntries (some ∘ Fact.aevtKey) placed).length ≤ PAGE_LIMIT
  avet : starts.avet + 3 * (old.avet.entries ++
    indexEntries (some ∘ Fact.avetKey) placed).length ≤ PAGE_LIMIT
  vaet : starts.vaet + 3 * (old.vaet.entries ++ indexEntries Fact.vaetKey placed).length ≤ PAGE_LIMIT

/-- Every page written for these facts keeps to its bounds and reads as what it was
given. -/
structure Kept (old : OldTrees) {H C : Type} (crc : Crc H C) (starts : Starts)
    (placed : List (Fact × FactRef)) : Prop where
  eavt : old.eavt.Kept crc starts.eavt (indexEntries (some ∘ Fact.eavtKey) placed)
  aevt : old.aevt.Kept crc starts.aevt (indexEntries (some ∘ Fact.aevtKey) placed)
  avet : old.avet.Kept crc starts.avet (indexEntries (some ∘ Fact.avetKey) placed)
  vaet : old.vaet.Kept crc starts.vaet (indexEntries Fact.vaetKey placed)

/-- The entries of these facts fit the leaves, and every key but the least of its index an
internal page. -/
structure Room (old : OldTrees) (placed : List (Fact × FactRef)) : Prop where
  eavt : old.eavt.Room (indexEntries (some ∘ Fact.eavtKey) placed)
  aevt : old.aevt.Room (indexEntries (some ∘ Fact.aevtKey) placed)
  avet : old.avet.Room (indexEntries (some ∘ Fact.avetKey) placed)
  vaet : old.vaet.Room (indexEntries Fact.vaetKey placed)

/-- Building or rebuilding the four indexes keeps every page exactly when the keys and
entries have room, whatever the sizes of the facts. -/
theorem indexes_kept (old : OldTrees) {H C : Type} (crc : Crc H C) (starts : Starts)
    (placed : List (Fact × FactRef)) (near : old.Near starts placed) :
    old.Kept crc starts placed ↔ old.Room placed := by
  have eavt := old.eavt.kept_iff_room crc (sortEntries_sorted _) near.eavt
  have aevt := old.aevt.kept_iff_room crc (sortEntries_sorted _) near.aevt
  have avet := old.avet.kept_iff_room crc (sortEntries_sorted _) near.avet
  have vaet := old.vaet.kept_iff_room crc (sortEntries_sorted _) near.vaet
  exact ⟨fun kept => ⟨eavt.mp kept.eavt, aevt.mp kept.aevt, avet.mp kept.avet, vaet.mp kept.vaet⟩,
    fun room => ⟨eavt.mpr room.eavt, aevt.mpr room.aevt, avet.mpr room.avet, vaet.mpr room.vaet⟩⟩

/-- Small facts always have room in new indexes. -/
theorem none_room {placed : List (Fact × FactRef)} (small : ∀ p ∈ placed, Postcard.Small p) :
    none.Room placed := by
  obtain ⟨eavt, aevt, avet, vaet⟩ := Postcard.indexFits small
  exact ⟨.of_fits fun e he => eavt e ((sortEntries_perm _).subset he),
    .of_fits fun e he => aevt e ((sortEntries_perm _).subset he),
    .of_fits fun e he => avet e ((sortEntries_perm _).subset he),
    .of_fits fun e he => vaet e ((sortEntries_perm _).subset he)⟩

theorem length_indexEntries_le {K : Type} [LinearOrder K] (key : Fact → Option K)
    (placed : List (Fact × FactRef)) : (indexEntries key placed).length ≤ placed.length :=
  (sortEntries_perm _).length_eq.trans_le (List.length_filterMap_le _ _)

/-- A few facts in new trees stay below the page limit. -/
theorem none_near {starts : Starts} {placed : List (Fact × FactRef)} (few : placed.length ≤ 2 ^ 32)
    (low : max (max starts.eavt starts.aevt) (max starts.avet starts.vaet) ≤ 2 ^ 32) :
    none.Near starts placed := by
  have eavt := length_indexEntries_le (some ∘ Fact.eavtKey) placed
  have aevt := length_indexEntries_le (some ∘ Fact.aevtKey) placed
  have avet := length_indexEntries_le (some ∘ Fact.avetKey) placed
  have vaet := length_indexEntries_le Fact.vaetKey placed
  constructor <;>
    simp only [none, OldTree.entries, List.map_nil, List.flatten_nil, List.nil_append, PAGE_LIMIT] <;>
    omega

theorem indexes_kept_thousand :
    none.Kept Crc.lossless ⟨2, 3000, 6000, 9000⟩ (List.replicate 1000 (narrowFact, ⟨1, 0⟩)) := by
  have near : none.Near ⟨2, 3000, 6000, 9000⟩ (List.replicate 1000 (narrowFact, ⟨1, 0⟩)) :=
    none_near (by rw [List.length_replicate]; decide) (by decide)
  refine (indexes_kept none Crc.lossless ⟨2, 3000, 6000, 9000⟩ _ near).mpr (none_room fun p hp => ?_)
  rw [List.eq_of_mem_replicate hp]
  exact ⟨by decide, by decide, by decide⟩

theorem wide_no_room (r r' : FactRef) : ¬ none.avet.Room
    (indexEntries (some ∘ Fact.avetKey) [(narrowFact, r), (textFact (letters 4042), r')]) := by
  rintro ⟨_, narrow⟩
  have entries := @Postcard.avet_entries (letters 4042) r r'
  have sorted := sortEntries_sorted (([(narrowFact, r), (textFact (letters 4042), r')] :
    List (Fact × FactRef)).filterMap fun entry => ((some ∘ Fact.avetKey) entry.1).map (·, entry.2))
  change (indexEntries _ _).Pairwise _ at sorted
  have same : sortEntries (indexEntries (some ∘ Fact.avetKey)
      [(narrowFact, r), (textFact (letters 4042), r')]) = _ :=
    List.mergeSort_of_pairwise (by simpa using sorted)
  have none_ : none.avet.entries = [] := rfl
  rw [none_, List.nil_append, same, entries] at narrow
  obtain ⟨rest, key, wide⟩ := Postcard.wideKey (length_letters 4042)
  have sep := narrow _ List.mem_cons_self
  simp only [SepFits, Postcard.standard, Postcard.indexCodec, Serial.codec, key, List.length_cons, wide,
    INTERNAL_HEADER_SIZE, PAGE_SIZE] at sep
  omega

/-- Two facts within the limit of the log, the AVET key of the second of which fits no
internal page. -/
theorem indexes_not_kept :
    (∀ f ∈ [narrowFact, textFact (letters 4042)], f.Fits Postcard.standard.fact) ∧
      ¬ none.Kept Crc.lossless ⟨2, 3, 4, 7⟩
        [(narrowFact, ⟨1, 0⟩), (textFact (letters 4042), ⟨2, 0⟩)] := by
  refine ⟨Postcard.pair_fits (length_letters 4042), fun kept => wide_no_room ⟨1, 0⟩ ⟨2, 0⟩ ?_⟩
  have near : 4 + 3 * (none.avet.entries ++ indexEntries (some ∘ Fact.avetKey)
      [(narrowFact, ⟨1, 0⟩), (textFact (letters 4042), ⟨2, 0⟩)]).length ≤ PAGE_LIMIT := by
    rw [Postcard.avet_entries]
    simp [none, OldTree.entries, PAGE_LIMIT]
  exact (none.avet.kept_iff_room Crc.lossless (sortEntries_sorted _) near).mp kept.avet

end OldTrees
end Minigraf
