import Minigraf.Storage.Separators

/-!
Range scans over a tree that was bulk built or rebuilt any number of times, for any key
type and codec. A scan from a key no entry has is exact while every key fits an internal
page; a key that fits a leaf only spoils the separator it becomes.
-/

namespace Minigraf

open Bytes EStateM

section Grown

variable {H C K : Type} [LinearOrder K]

/-- A tree in the pages `[start, stop)` of a device as `build_btree` and rounds of
`rebuild_btree_incremental` leave it, with the entries they were given. In between,
other pages may be written. -/
inductive Grown (crc : Crc H C) (codec : IndexCodec K) :
    Dev C → Nat → Nat → Nat → List (K × FactRef) → Prop
  | build {s t : Dev C} {start root stop : Nat} {entries : List (K × FactRef)} :
      s.Ok → start ≠ 0 → start ≤ s.header.pageCount → start ≤ PAGE_LIMIT →
      (entries.Pairwise fun a b => a.1 ≤ b.1) →
      buildBtree crc codec entries start s = .ok (root, stop) t →
      Grown crc codec t start stop root entries
  | rebuild {s mid t : Dev C} {old oldStop oldRoot start root stop : Nat}
      {entries pending : List (K × FactRef)} {pages : List Page} :
      Grown crc codec s old oldStop oldRoot entries →
      collectLeafPages crc oldRoot s = .ok pages mid →
      start ≠ 0 → start ≤ mid.header.pageCount → start ≤ PAGE_LIMIT →
      (pending.Pairwise fun a b => a.1 ≤ b.1) →
      rebuildBtreeIncremental crc codec pages pending start mid = .ok (root, stop) t →
      Grown crc codec t start stop root (entries ++ pending)
  | other {s t : Dev C} {start stop root : Nat} {entries : List (K × FactRef)} :
      Grown crc codec s start stop root entries → t.Ok → stop ≤ t.header.pageCount →
      (∀ i, start ≤ i → i < stop → t.disk.page i = s.disk.page i) →
      Grown crc codec t start stop root entries

/-- What a tree's operations leave: its pages, with the entries in order. -/
structure Planted (codec : IndexCodec K) (s : Dev C) (start stop root : Nat)
    (entries : List (K × FactRef)) : Prop where
  okay : s.Ok
  data : start ≠ 0
  counted : stop ≤ s.header.pageCount
  limit : stop ≤ PAGE_LIMIT
  tree : ∃ leaves, leaves.flatten.Perm entries ∧ Tree codec s.disk.page start stop root leaves

variable {crc : Crc H C} {codec : IndexCodec K}

theorem Grown.planted {s : Dev C} {start stop root : Nat} {entries : List (K × FactRef)}
    (h : Grown crc codec s start stop root entries) (fits : ∀ e ∈ entries, EntryFits codec e) :
    Planted codec s start stop root entries := by
  induction h with
  | build okay data dense limit sorted run =>
      obtain ⟨wrote, -, counted, limit', leaves, whole, tree, -⟩ :=
        (wp_buildBtree codec crc okay data dense limit fits sorted).of_ok run
      exact ⟨wrote.okay, data, counted, limit', leaves, .of_eq whole, tree⟩
  | rebuild _ collected data dense limit sorted run ih =>
      have before := ih fun e he => fits e (List.mem_append_left _ he)
      obtain ⟨olds, whole, tree⟩ := before.tree
      obtain ⟨reads, pages⟩ := (tree.wp_collectLeafPages crc before.okay before.data before.counted
        before.limit).of_ok collected
      have fits' : ∀ e ∈ olds.flatten ++ _, EntryFits codec e := fun e he =>
        fits e ((whole.append_right _).mem_iff.mp he)
      obtain ⟨wrote, -, counted, limit', leaves, whole', tree', -⟩ :=
        (wp_rebuildBtreeIncremental codec crc reads.okay data dense limit pages tree.sorted sorted
          fits').of_ok run
      exact ⟨wrote.okay, data, counted, limit', leaves, whole'.trans (whole.append_right _), tree'⟩
  | other _ okay counted same ih =>
      obtain ⟨-, data, -, limit, leaves, whole, tree⟩ := ih fits
      exact ⟨okay, data, counted, limit, leaves, whole, tree.agree codec same⟩

/-- A scan from a key that no entry has returns the references of the entries in range, in
the order of the keys. -/
theorem Grown.rangeScan_exact {s : Dev C} {start stop root : Nat} {entries : List (K × FactRef)}
    (h : Grown crc codec s start stop root entries) (fits : ∀ e ∈ entries, EntryFits codec e)
    (lower : K) (upper : Option K) (apart : ∀ e ∈ entries, e.1 ≠ lower) :
    ∃ (refs : List FactRef) (t : Dev C) (sorted : List (K × FactRef)),
      rangeScan crc codec root lower upper s = .ok refs t ∧
      sorted.Perm entries ∧ (sorted.Pairwise fun a b => a.1 ≤ b.1) ∧
      refs = (sorted.filter fun e => inRange lower upper e.1).map Prod.snd := by
  obtain ⟨okay, data, counted, limit, leaves, whole, tree⟩ := h.planted fits
  have clear : ∀ e ∈ leaves.flatten, e.1 ≠ lower := fun e he => apart e (whole.mem_iff.mp he)
  obtain ⟨refs, t, run, -, found⟩ :=
    (tree.wp_rangeScan crc okay data counted limit (.inr clear) upper).exists_ok
  exact ⟨refs, t, leaves.flatten, run, whole, tree.sorted, found⟩

end Grown

/-! ## A separator that does not fit -/

theorem Dev.create_ok : (Dev.create Crc.lossless 64 none).Ok :=
  (Store.Clean.create 64 none : (Store.init (Dev.create Crc.lossless 64 none)).Clean Crc.lossless
    Postcard.standard []).okay

section Wide

/-- Three keys: two of one byte, the last of 4077 bytes. -/
def wideKeys : Serial (Fin 3) where
  put
    | 0 => [0]
    | 1 => [1]
    | 2 => 2 :: List.replicate 4076 1
  get
    | 0 :: rest => some (0, rest)
    | 1 :: rest => some (1, rest)
    | 2 :: rest =>
        if rest.take 4076 = List.replicate 4076 1 then some (2, rest.drop 4076) else none
    | _ => none
  get_put
    | 0, _ => rfl
    | 1, _ => rfl
    | 2, rest => by
        have width : (List.replicate 4076 (1 : UInt8)).length = 4076 := List.length_replicate
        simp only [List.cons_append, List.take_left' width, List.drop_left' width, if_true]
  put_ne_nil
    | 0 => List.cons_ne_nil _ _
    | 1 => List.cons_ne_nil _ _
    | 2 => List.cons_ne_nil _ _

/-- A thousand entries under one key, in several leaves, scanned from the key below it. -/
theorem Grown.rangeScan_exact_thousand : ∃ (t : Dev (List UInt8)) (root stop : Nat),
    Grown Crc.lossless (Postcard.indexCodec wideKeys) t 1 stop root (List.replicate 1000 (1, ⟨1, 0⟩)) ∧
    ∃ (refs : List FactRef) (u : Dev (List UInt8)) (sorted : List (Fin 3 × FactRef)),
      rangeScan Crc.lossless (Postcard.indexCodec wideKeys) root 0 none t = .ok refs u ∧
      sorted.Perm (List.replicate 1000 (1, ⟨1, 0⟩)) ∧ (sorted.Pairwise fun a b => a.1 ≤ b.1) ∧
      refs = (sorted.filter fun e => inRange 0 none e.1).map Prod.snd := by
  have fits : ∀ e ∈ List.replicate 1000 ((1 : Fin 3), (⟨1, 0⟩ : FactRef)),
      EntryFits (Postcard.indexCodec wideKeys) e := by
    intro e he
    rw [List.eq_of_mem_replicate he]
    exact ⟨by decide, by unfold SepFits; decide⟩
  have sorted : (List.replicate 1000 ((1 : Fin 3), (⟨1, 0⟩ : FactRef))).Pairwise fun a b => a.1 ≤ b.1 :=
    List.pairwise_replicate.mpr (.inr le_rfl)
  obtain ⟨⟨root, stop⟩, t, run, -⟩ := ((wp_buildBtree (Postcard.indexCodec wideKeys) Crc.lossless Dev.create_ok
    (by decide : 1 ≠ 0) (by decide) (by decide) fits sorted).mono
      (fun _ _ done => done) fun _ _ stopped => stopped.why.elim (fun fault => fault rfl)
        (by rw [List.length_replicate]; decide)).exists_ok
  have grown : Grown Crc.lossless (Postcard.indexCodec wideKeys) t 1 stop root
      (List.replicate 1000 (1, ⟨1, 0⟩)) :=
    .build Dev.create_ok (by decide) (by decide) (by decide) sorted run
  exact ⟨t, root, stop, grown, Grown.rangeScan_exact grown fits 0 none
    fun e he => List.eq_of_mem_replicate he ▸ by decide⟩

theorem wideKeys_overwritten (rest : List UInt8) : wideKeys.codec.decode (2 :: 19 :: rest) = none := by
  have differ : (19 :: rest).take 4076 ≠ List.replicate 4076 1 := by
    intro same
    rw [show 4076 = 4075 + 1 from rfl, List.take_succ_cons, List.replicate_succ] at same
    exact absurd (List.cons.inj same).1 (by decide)
  simp only [Serial.codec, wideKeys, if_neg differ, Option.map_none]

/-- No scan gets past a root whose separator was overwritten. -/
theorem wp_rangeScan_overwritten {H C : Type} {crc : Crc H C} {s : Dev C} (h : s.Ok) {root : Nat}
    (data : root ≠ 0) (lost : Misleading (s.disk.page root))
    (covered : ChildOverwritten 2 (s.disk.page root)) (lower : Fin 3) (upper : Option (Fin 3)) :
    Wp (rangeScan crc (Postcard.indexCodec wideKeys) root lower upper) s (fun _ _ => False)
      (fun _ _ => True) := by
  obtain ⟨rest, slot⟩ := covered
  have count : readU16At (s.disk.page root) 2 = .ok 1 := by
    rw [readU16At, lost.count]
    rfl
  have stuck : childFor (Postcard.indexCodec wideKeys) (s.disk.page root) lower
      (INTERNAL_HEADER_SIZE + 1 * 8) (List.range 1) = .error .postcard := by
    rw [show List.range 1 = [0] from rfl, childFor, Nat.zero_mul, Nat.add_zero, slot]
    simp only [bind, Except.bind, decodeOr, Postcard.indexCodec, wideKeys_overwritten, orError,
      Option.elim_none]
  simp only [rangeScan, walkBound, wp_bind, wp_get, wp_pure]
  rw [leafForKey, wp_bind]
  refine (wp_getOrLoad crc h data).mono ?_ fun _ _ _ => trivial
  rintro _ t ⟨rfl, cache, rfl, okay⟩
  rw [if_neg (by rw [lost.type]; decide), if_pos lost.type, count, ofResult]
  simp only [wp_bind, wp_pure]
  refine wp_ofResult (fun rightmost _ => ?_) fun _ _ => trivial
  rw [stuck, ofResult, wp_throw]
  trivial

/-- Two entries that fit a leaf each, the second under the wide key: scanning from the key
between them fails. -/
theorem rangeScan_wide : ∃ t : Dev (List UInt8),
    Grown Crc.lossless (Postcard.indexCodec wideKeys) t 1 4 3 [(0, ⟨1, 0⟩), (2, ⟨1, 1⟩)] ∧
    (∀ e ∈ [((0 : Fin 3), (⟨1, 0⟩ : FactRef)), (2, ⟨1, 1⟩)],
      LEAF_HEADER_SIZE + 4 + ((Postcard.indexCodec wideKeys).entry.encode e).length ≤ PAGE_SIZE ∧
      e.1 ≠ 1) ∧
    ∃ e u, rangeScan Crc.lossless (Postcard.indexCodec wideKeys) 3 1 none t = .error e u := by
  have wide : (wideKeys.put 2).length = 4077 := by
    rw [wideKeys, List.length_cons, List.length_replicate]
  have short : (Postcard.factRef.put ⟨1, 1⟩).length ≤ 2 :=
    Postcard.Near.length (r := ⟨1, 1⟩) ⟨by decide, by decide⟩
  have room : LEAF_HEADER_SIZE + 4 +
      ((Postcard.indexCodec wideKeys).entry.encode (0, ⟨1, 0⟩)).length ≤ PAGE_SIZE := by decide
  have room' : LEAF_HEADER_SIZE + 4 +
      ((Postcard.indexCodec wideKeys).entry.encode (2, ⟨1, 1⟩)).length ≤ PAGE_SIZE := by
    simp only [Postcard.indexCodec, Serial.codec, Serial.pair, List.length_append, wide,
      LEAF_HEADER_SIZE, PAGE_SIZE]
    omega
  have cut : leafOverflows
      (.one ((Postcard.indexCodec wideKeys).entry.encode (0, ⟨1, 0⟩)).length)
      ((Postcard.indexCodec wideKeys).entry.encode (2, ⟨1, 1⟩)).length = true := by
    refine decide_eq_true ?_
    simp only [Postcard.indexCodec, Serial.codec, Serial.pair, List.length_append, wide,
      LEAF_HEADER_SIZE, PAGE_FILL_BYTES, PAGE_SIZE]
    omega
  obtain ⟨r, t, run, wrote, rfl, -, lost, covered⟩ :=
    ((wp_buildBtree_overlap Dev.create_ok (by decide : 1 ≠ 0) (by decide) (by decide) room room' cut
      (b := 2) rfl List.length_replicate (by decide)).mono (fun _ _ done => done)
      fun _ _ stopped => stopped.why.elim (fun fault => fault rfl) id).exists_ok
  refine ⟨t, .build Dev.create_ok (by decide) (by decide) (by decide) (by decide) run, ?_, ?_⟩
  · intro e he
    rcases List.mem_pair.mp he with rfl | rfl
    · exact ⟨room, by decide⟩
    · exact ⟨room', by decide⟩
  · have stuck := @wp_rangeScan_overwritten _ _ Crc.lossless t wrote.okay (1 + 2) (by decide) lost covered
      1 none
    rw [Wp] at stuck
    cases result : rangeScan Crc.lossless (Postcard.indexCodec wideKeys) 3 1 none t with
    | ok _ _ =>
        rw [show (1 + 2 : Nat) = 3 from rfl, result] at stuck
        exact stuck.elim
    | error e u => exact ⟨e, u, rfl⟩

end Wide
end Minigraf
