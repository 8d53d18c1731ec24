import Mathlib.Data.List.TakeDrop
import Mathlib.Data.List.TakeWhile
import Minigraf.Lib.Sorted
import Minigraf.Storage.Btree.Tree

/-!
The incremental rebuild writes a tree with the old entries and the pending ones. Old
leaves without pending entries are copied, so their own successors do not matter:
the emitter links every leaf anew.
-/

namespace Minigraf

open Bytes EStateM

section Merged

variable {K : Type}

/-- The first key of the next old leaf. -/
def upperKey (later : List (List (K × FactRef))) : Option K :=
  (later.head?.bind List.head?).map Prod.fst

variable [LinearOrder K]

theorem entryLe_le {a b : K × FactRef} (h : entryLe a b = true) : a.1 ≤ b.1 := by
  simp only [entryLe, Bool.or_eq_true, Bool.and_eq_true, decide_eq_true_eq] at h
  obtain lt | ⟨eq, _⟩ := h
  · exact lt.le
  · exact eq.le

theorem entryLe_ge {a b : K × FactRef} (h : entryLe a b = false) : b.1 ≤ a.1 := by
  simp only [entryLe, Bool.or_eq_false_iff, decide_eq_false_iff_not] at h
  exact not_lt.mp h.1

theorem mergeSortedVecs_sorted {a b : List (K × FactRef)}
    (ha : a.Pairwise fun x y => x.1 ≤ y.1) (hb : b.Pairwise fun x y => x.1 ≤ y.1) :
    (mergeSortedVecs a b).Pairwise fun x y => x.1 ≤ y.1 := by
  refine List.pairwise_merge_of entryLe ?_ (fun _ _ => entryLe_le) (fun _ _ => entryLe_ge) ha hb
  intro x y z hxy hyz
  exact hxy.trans hyz

theorem mergeSortedVecs_perm (a b : List (K × FactRef)) : (mergeSortedVecs a b).Perm (a ++ b) :=
  List.merge_perm_append entryLe

/-- All entries of the rebuilt tree, in order. -/
def rebuilt : List (List (K × FactRef)) → List (K × FactRef) → List (K × FactRef)
  | [], _ => []
  | old :: later, pending =>
      let route := routeBatch (upperKey later) pending
      mergeSortedVecs old route.1 ++ rebuilt later route.2

theorem routeBatch_append (upper : Option K) (pending : List (K × FactRef)) :
    (routeBatch upper pending).1 ++ (routeBatch upper pending).2 = pending := by
  cases upper with
  | none => exact List.append_nil pending
  | some upper =>
      simp only [routeBatch, List.span_eq_takeWhile_dropWhile, List.takeWhile_append_dropWhile]

theorem routeBatch_lt {upper : K} {pending : List (K × FactRef)} {e : K × FactRef}
    (h : e ∈ (routeBatch (some upper) pending).1) : e.1 < upper := by
  simp only [routeBatch, List.span_eq_takeWhile_dropWhile] at h
  simpa using List.mem_takeWhile_imp h

theorem routeBatch_ge {upper : K} {pending : List (K × FactRef)}
    (sorted : pending.Pairwise fun a b => a.1 ≤ b.1) {e : K × FactRef}
    (h : e ∈ (routeBatch (some upper) pending).2) : upper ≤ e.1 := by
  simp only [routeBatch, List.span_eq_takeWhile_dropWhile] at h
  induction pending with
  | nil => cases h
  | cons first pending ih =>
      obtain ⟨below, sorted⟩ := List.pairwise_cons.mp sorted
      rw [List.dropWhile_cons] at h
      split at h
      · exact ih sorted h
      · rename_i stop
        have reached : upper ≤ first.1 := by simpa using stop
        obtain rfl | h := List.mem_cons.mp h
        · exact reached
        · exact reached.trans (below e h)

theorem rebuilt_perm {olds : List (List (K × FactRef))} (some_ : olds ≠ [])
    (pending : List (K × FactRef)) : (rebuilt olds pending).Perm (olds.flatten ++ pending) := by
  induction olds generalizing pending with
  | nil => exact absurd rfl some_
  | cons old later ih =>
      have split := routeBatch_append (upperKey later) pending
      rw [rebuilt]
      cases later with
      | nil =>
          simp only [rebuilt, List.append_nil, List.flatten_cons, List.flatten_nil, upperKey,
            List.head?_nil, Option.bind_none, Option.map_none, routeBatch]
          exact mergeSortedVecs_perm old pending
      | cons next later =>
          generalize routeBatch (upperKey (next :: later)) pending = route at split ⊢
          subst split
          have swap : ((old ++ route.1) ++ ((next :: later).flatten ++ route.2)).Perm
              ((old ++ (next :: later).flatten) ++ (route.1 ++ route.2)) := by
            simp only [List.append_assoc]
            refine List.Perm.append_left old ?_
            simp only [← List.append_assoc]
            exact List.Perm.append_right _ List.perm_append_comm
          exact ((mergeSortedVecs_perm old route.1).append
            (ih (List.cons_ne_nil _ _) route.2)).trans swap

theorem rebuilt_sorted {olds : List (List (K × FactRef))} (full : ∀ old ∈ olds, old ≠ [])
    (sorted : olds.flatten.Pairwise fun a b => a.1 ≤ b.1) {pending : List (K × FactRef)}
    (sortedPending : pending.Pairwise fun a b => a.1 ≤ b.1) :
    (rebuilt olds pending).Pairwise fun a b => a.1 ≤ b.1 := by
  induction olds generalizing pending with
  | nil => exact .nil
  | cons old later ih =>
      rw [List.flatten_cons, List.pairwise_append] at sorted
      obtain ⟨sortedOld, sortedLater, below⟩ := sorted
      have split := routeBatch_append (upperKey later) pending
      have sortedRoute := sortedPending
      rw [← split, List.pairwise_append] at sortedRoute
      obtain ⟨sortedBatch, sortedRest, batchBelow⟩ := sortedRoute
      have merged := mergeSortedVecs_sorted sortedOld sortedBatch
      cases later with
      | nil =>
          simp only [rebuilt, List.append_nil]
          exact merged
      | cons next later =>
          obtain ⟨first, others, rfl⟩ :=
            List.exists_cons_of_ne_nil (full next (List.mem_cons_of_mem _ List.mem_cons_self))
          have upper : upperKey ((first :: others) :: later) = some first.1 := rfl
          have laterAbove : ∀ e ∈ ((first :: others) :: later).flatten, first.1 ≤ e.1 := by
            intro e he
            rw [List.flatten_cons, List.cons_append, List.pairwise_cons] at sortedLater
            rw [List.flatten_cons, List.cons_append] at he
            obtain rfl | he := List.mem_cons.mp he
            · exact le_rfl
            · exact sortedLater.1 e he
          have oldBelow : ∀ e ∈ old, e.1 ≤ first.1 := fun e he =>
            below e he first (by simp)
          rw [rebuilt, List.pairwise_append]
          refine ⟨merged, ih (fun g hg => full g (List.mem_cons_of_mem _ hg)) sortedLater sortedRest,
            ?_⟩
          rw [upper] at *
          intro a ha b hb
          have hb := (rebuilt_perm (List.cons_ne_nil _ _) _).mem_iff.mp hb
          obtain ha | ha := List.mem_append.mp ((mergeSortedVecs_perm _ _).mem_iff.mp ha)
          · obtain hb | hb := List.mem_append.mp hb
            · exact below a ha b hb
            · exact (oldBelow a ha).trans (routeBatch_ge sortedPending hb)
          · obtain hb | hb := List.mem_append.mp hb
            · exact (routeBatch_lt ha).le.trans (laterAbove b hb)
            · exact batchBelow a ha b hb

end Merged

section Emitter

variable {K : Type} (codec : IndexCodec K) {H C : Type} (crc : Crc H C)

/-- The emitter after these leaves: all but the last are on disk, each linked to the
next page, and the last is held. -/
structure Emitted (s : Dev C) (start : Nat) (emitter : LeafEmitter)
    (leaves : List (List (K × FactRef))) : Prop where
  next : emitter.nextPage = start + leaves.length
  infos : emitter.infos = infosFrom codec start leaves
  written : ∀ i entries, leaves.dropLast[i]? = some entries →
    LeafOf codec (s.disk.page (start + i)) entries (start + i + 1)
  held : leaves = [] ∧ emitter.held = none ∨ ∃ front last page link, leaves = front ++ [last] ∧
    emitter.held = some (start + front.length, page) ∧ LeafOf codec page last link
  dense : start + (leaves.length - 1) ≤ s.header.pageCount
  limit : start + (leaves.length - 1) ≤ PAGE_LIMIT

/-- Releasing the held leaf puts all leaves on disk, the last linked to `link`. -/
theorem Emitted.wp_releaseHeld {s : Dev C} (h : s.Ok) {start : Nat} {emitter : LeafEmitter}
    {leaves : List (List (K × FactRef))} (em : Emitted codec s start emitter leaves) {link : Nat}
    (small : link < 256 ^ 8) :
    Wp (releaseHeld crc emitter.held link) s
      (fun _ t => Wrote crc (IndexAt start) s t ∧ start + leaves.length ≤ t.header.pageCount ∧
        start + leaves.length ≤ PAGE_LIMIT ∧
        ∀ i entries, leaves[i]? = some entries → LeafOf codec (t.disk.page (start + i)) entries
          (if i + 1 = leaves.length then link else start + i + 1))
      (fun _ t => Stopped crc (IndexAt start) (PAGE_LIMIT < start + leaves.length) s t) := by
  have dense := em.dense
  have limit := em.limit
  obtain ⟨rfl, none_⟩ | ⟨front, last, page, old, rfl, held, leaf⟩ := em.held
  · rw [none_, releaseHeld, wp_pure]
    exact ⟨.refl h, dense, limit, by simp⟩
  · rw [List.length_append, List.length_singleton] at dense limit ⊢
    obtain ⟨page', hpage, hlinked⟩ := leaf.relink small
    rw [held, releaseHeld, wp_bind, hpage, ofResult, wp_pure]
    refine (wp_writeCached crc (IndexAt start) h (by omega)
      ⟨by omega, .inl hlinked.type⟩).mono ?_ ?_
    · rintro _ t ⟨wrote, hpages, hcount, near⟩
      rw [← not_le, far_iff] at near
      refine ⟨wrote, by omega, by omega, ?_⟩
      intro i entries hi
      rw [hpages]
      by_cases here : i = front.length
      · subst here
        obtain rfl : last = entries := by simpa using hi
        rw [if_pos rfl, Function.update_self]
        exact hlinked
      · have inside := (List.getElem?_eq_some_iff.mp hi).1
        rw [List.length_append, List.length_singleton] at inside
        rw [if_neg (by omega), Function.update_of_ne (by omega)]
        refine em.written i entries ?_
        rw [List.dropLast_concat, ← List.getElem?_append_left (by omega), hi]
    · intro _ t stopped
      exact stopped.mono (fun _ _ => id) (fun far => by rw [far_iff] at far; omega)

theorem Emitted.wp_push {s : Dev C} (h : s.Ok) {start : Nat} {emitter : LeafEmitter}
    {leaves : List (List (K × FactRef))} (em : Emitted codec s start emitter leaves)
    {page : Page} {entries : List (K × FactRef)} {link : Nat} (leaf : LeafOf codec page entries link) :
    Wp (emitter.push crc page (firstKeyBytes codec entries)) s
      (fun em' t => Wrote crc (IndexAt start) s t ∧
        Emitted codec t start em' (leaves ++ [entries]))
      (fun _ t => Stopped crc (IndexAt start) (PAGE_LIMIT < start + leaves.length) s t) := by
  have small : emitter.nextPage < 256 ^ 8 := by
    have := em.limit
    rw [em.next]
    simp only [PAGE_LIMIT] at this
    omega
  rw [LeafEmitter.push, wp_bind]
  refine (em.wp_releaseHeld codec crc h small).mono ?_ (fun _ _ stopped => stopped)
  rintro _ t ⟨wrote, hcount, limit, hleaves⟩
  rw [wp_pure]
  refine ⟨wrote, ?_, ?_, ?_, ?_, ?_, ?_⟩
  · simp only [em.next, List.length_append, List.length_singleton, Nat.add_assoc]
  · simp only [em.next, em.infos, infosFrom_append, infosFrom]
  · intro i e hi
    rw [List.dropLast_concat] at hi
    have := hleaves i e hi
    rw [em.next] at this
    split at this
    · rename_i last
      rwa [show start + i + 1 = start + leaves.length by omega]
    · exact this
  · exact .inr ⟨leaves, entries, page, link, rfl, by rw [em.next], leaf⟩
  · simpa using hcount
  · simpa using limit

theorem Emitted.wp_pushLeaves {s : Dev C} (h : s.Ok) {start : Nat} {emitter : LeafEmitter}
    {leaves : List (List (K × FactRef))} (em : Emitted codec s start emitter leaves)
    {packed : List ((K × FactRef) × List (K × FactRef))}
    (room : ∀ leaf ∈ packed, LeafRoom codec (Greedy.members leaf)) :
    Wp (pushLeaves crc codec emitter packed) s
      (fun em' t => Wrote crc (IndexAt start) s t ∧
        Emitted codec t start em' (leaves ++ packed.map Greedy.members))
      (fun _ t => Stopped crc (IndexAt start)
        (PAGE_LIMIT < start + leaves.length + packed.length) s t) := by
  induction packed generalizing s emitter leaves with
  | nil =>
      rw [pushLeaves, wp_pure]
      exact ⟨.refl h, by simpa using em⟩
  | cons leaf packed ih =>
      obtain ⟨page, hpage, hleaf⟩ := @encodeLeafPage_room (leafRecords codec leaf) 0
        (by rw [leafRecords, List.length_map]; exact room leaf List.mem_cons_self) (by decide)
      rw [pushLeaves, wp_bind, hpage, ofResult, wp_pure, wp_bind, List.length_cons]
      refine (em.wp_push codec crc h (@LeafPage.leafOf K codec _ (Greedy.members leaf) _ hleaf)).mono ?_ ?_
      · rintro em' t ⟨wrote, emitted⟩
        refine (ih wrote.okay emitted fun l hl => room l (List.mem_cons_of_mem _ hl)).mono ?_ ?_
        · rintro em'' u ⟨wrote', emitted'⟩
          rw [List.append_assoc] at emitted'
          exact ⟨wrote.trans wrote', emitted'⟩
        · intro _ u stopped
          rw [List.length_append, List.length_singleton] at stopped
          exact wrote.stopped (stopped.mono (fun _ _ => id) (by omega))
      · intro _ t stopped
        exact stopped.mono (fun _ _ => id) (by omega)

/-- An even share of a page is never more than the page. -/
theorem share_le {total usable : Nat} (some_ : 0 < total) (pos : 0 < usable) :
    let pages := (total + usable - 1) / usable
    (total + pages - 1) / pages ≤ usable := by
  intro pages
  have enough : total ≤ pages * usable := by
    have := Nat.lt_div_mul_add (a := total + usable - 1) pos
    simp only [pages]
    omega
  have one : 0 < pages := Nat.pos_of_ne_zero fun zero => by
    rw [zero] at enough
    omega
  refine Nat.lt_succ_iff.mp ((Nat.div_lt_iff_lt_mul one).mpr ?_)
  rw [Nat.succ_mul, Nat.mul_comm]
  omega

theorem emitTarget_le (entries : List (K × FactRef)) :
    LEAF_HEADER_SIZE + emitTarget codec entries ≤ PAGE_SIZE := by
  simp only [emitTarget]
  split
  · assumption
  · rename_i beyond
    have share := @share_le ((entries.map fun e => (codec.entry.encode e).length + SLOT_SIZE).sum)
      (PAGE_FILL_BYTES - LEAF_HEADER_SIZE)
      (by simp only [LEAF_HEADER_SIZE, PAGE_SIZE] at beyond; omega) (by decide)
    simp only [PAGE_FILL_BYTES, LEAF_HEADER_SIZE, PAGE_SIZE] at share ⊢
    omega

theorem emitFull_tight (entries : List (K × FactRef)) (p : PageFill) (len : Nat)
    (h : emitFull (emitTarget codec entries) p len = false) :
    LEAF_HEADER_SIZE + 4 * (p.records + 1) + (p.bytes + len) ≤ PAGE_SIZE := by
  have near := of_decide_eq_false h
  have bound := emitTarget_le codec entries
  simp only [SLOT_SIZE] at near
  omega

theorem length_le_of_full {leaves : List (List (K × FactRef))}
    (full : ∀ entries ∈ leaves, entries ≠ []) : leaves.length ≤ leaves.flatten.length := by
  induction leaves with
  | nil => exact le_rfl
  | cons entries leaves ih =>
      have first := List.length_pos_iff.mpr (full entries List.mem_cons_self)
      have rest := ih fun g hg => full g (List.mem_cons_of_mem _ hg)
      rw [List.flatten_cons, List.length_append, List.length_cons]
      omega

/-- The nonempty leaves the emitter gets for `entries`. -/
structure Cut (entries : List (K × FactRef)) (leaves : List (List (K × FactRef))) : Prop where
  flatten : leaves.flatten = entries
  full : ∀ g ∈ leaves, g ≠ []

theorem Cut.append {entries entries' : List (K × FactRef)} {leaves leaves' : List (List (K × FactRef))}
    (h : Cut entries leaves) (h' : Cut entries' leaves') : Cut (entries ++ entries') (leaves ++ leaves') := by
  refine ⟨by rw [List.flatten_append, h.flatten, h'.flatten], fun g hg => ?_⟩
  obtain hg | hg := List.mem_append.mp hg
  · exact h.full g hg
  · exact h'.full g hg

theorem Cut.length_le {entries : List (K × FactRef)} {leaves : List (List (K × FactRef))}
    (h : Cut entries leaves) : leaves.length ≤ entries.length := by
  rw [← h.flatten]
  exact length_le_of_full h.full

theorem Emitted.wp_emitPacked {s : Dev C} (h : s.Ok) {start : Nat} {emitter : LeafEmitter}
    {leaves : List (List (K × FactRef))} (em : Emitted codec s start emitter leaves)
    {entries : List (K × FactRef)} (fits : ∀ e ∈ entries, EntryFits codec e) :
    Wp (emitPacked crc codec emitter entries) s
      (fun em' t => Wrote crc (IndexAt start) s t ∧ ∃ more, Cut entries more ∧
        Emitted codec t start em' (leaves ++ more))
      (fun _ t => Stopped crc (IndexAt start)
        (PAGE_LIMIT < start + leaves.length + entries.length) s t) := by
  have few := length_packLeaves_le codec (emitFull (emitTarget codec entries)) entries
  have room := packLeaves_room codec (emitFull_tight codec entries) fun e he => (fits e he).leaf
  refine (em.wp_pushLeaves codec crc h room).mono ?_ ?_
  · rintro em' t ⟨wrote, emitted⟩
    refine ⟨wrote, _, ⟨packLeaves_flatten codec _ entries, fun g hg => ?_⟩, emitted⟩
    obtain ⟨leaf, _, rfl⟩ := List.mem_map.mp hg
    exact List.cons_ne_nil _ _
  · intro _ t stopped
    exact stopped.mono (fun _ _ => id) (by omega)

end Emitter

section Rebuild

variable {K : Type} (codec : IndexCodec K) {H C : Type} (crc : Crc H C)

/-- An old leaf beside its first key. -/
def KeyedLeaf (keyed : Page × K) (entries : List (K × FactRef)) : Prop :=
  ∃ link, LeafOf codec keyed.1 entries link ∧ entries.head?.map Prod.fst = some keyed.2

theorem KeyedLeaf.firstKeyBytes {keyed : Page × K} {entries : List (K × FactRef)}
    (h : KeyedLeaf codec keyed entries) : codec.key.encode keyed.2 = firstKeyBytes codec entries := by
  obtain ⟨_, _, first⟩ := h
  cases entries with
  | nil => cases first
  | cons e entries =>
      rw [← Option.some.inj first]
      rfl

theorem keyedLeaves_cons {page : Page} {pages : List Page} {key : Option K} {keyed : List (Page × K)}
    (first : leafFirstKey codec page = .ok key) (h : keyedLeaves codec pages = .ok keyed) :
    keyedLeaves codec (page :: pages) = .ok ((key.map (page, ·)).toList ++ keyed) := by
  simp only [keyedLeaves, List.mapM_cons, first, bind, Except.bind, pure, Except.pure] at h ⊢
  revert h
  split
  · intro h
    cases h
  · intro h
    simp only [Except.ok.injEq] at h
    rw [← h]
    cases key <;> rfl

/-- Only the old leaves that have entries are kept. -/
theorem keyedLeaves_leaves {pages : List Page} {olds : List (List (K × FactRef))}
    (h : List.Forall₂ (fun page entries => ∃ link, LeafOf codec page entries link) pages olds) :
    ∃ keyed, keyedLeaves codec pages = .ok keyed ∧
      List.Forall₂ (KeyedLeaf codec) keyed (olds.filter fun old => !old.isEmpty) := by
  induction h with
  | nil => exact ⟨[], rfl, .nil⟩
  | @cons page old pages olds hleaf _ ih =>
      obtain ⟨keyed, hkeyed, hall⟩ := ih
      obtain ⟨link, hleaf⟩ := hleaf
      refine ⟨_, keyedLeaves_cons codec hleaf.firstKey hkeyed, ?_⟩
      cases old with
      | nil => exact hall
      | cons e entries => exact .cons ⟨link, hleaf, rfl⟩ hall

theorem flatten_filter_isEmpty (olds : List (List (K × FactRef))) :
    (olds.filter fun old => !old.isEmpty).flatten = olds.flatten := by
  induction olds with
  | nil => rfl
  | cons old olds ih =>
      cases old with
      | nil => exact ih
      | cons e entries => rw [List.filter_cons_of_pos (by rfl), List.flatten_cons, List.flatten_cons, ih]

theorem upperKey_keyed {keyed : List (Page × K)} {olds : List (List (K × FactRef))}
    (h : List.Forall₂ (KeyedLeaf codec) keyed olds) :
    keyed.head?.map Prod.snd = upperKey olds := by
  cases h with
  | nil => rfl
  | cons first _ =>
      obtain ⟨_, _, first⟩ := first
      exact first.symm

variable [LinearOrder K]

theorem Emitted.wp_rebuildLeaf {s : Dev C} (h : s.Ok) {start : Nat} {emitter : LeafEmitter}
    {leaves : List (List (K × FactRef))} (em : Emitted codec s start emitter leaves)
    {page : Page} {firstKey : K} {old batch : List (K × FactRef)}
    (keyed : KeyedLeaf codec (page, firstKey) old)
    (fits : ∀ e ∈ old ++ batch, EntryFits codec e) :
    Wp (rebuildLeaf crc codec emitter page firstKey batch) s
      (fun em' t => Wrote crc (IndexAt start) s t ∧ ∃ more, Cut (mergeSortedVecs old batch) more ∧
        Emitted codec t start em' (leaves ++ more))
      (fun _ t => Stopped crc (IndexAt start)
        (PAGE_LIMIT < start + leaves.length + (mergeSortedVecs old batch).length) s t) := by
  have bytes := keyed.firstKeyBytes codec
  obtain ⟨link, hleaf, hkey⟩ := keyed
  have some_ : old ≠ [] := by
    rintro rfl
    cases hkey
  refine wp_ite (fun none_ => ?_) fun _ => ?_
  · rw [List.isEmpty_iff.mp none_, mergeSortedVecs, List.merge_right, bytes]
    have pos := List.length_pos_iff.mpr some_
    refine (em.wp_push codec crc h hleaf).mono ?_ ?_
    · rintro em' t ⟨wrote, emitted⟩
      refine ⟨wrote, [old], ⟨by simp, fun g hg => ?_⟩, emitted⟩
      rw [List.mem_singleton.mp hg]
      exact some_
    · intro _ t stopped
      exact stopped.mono (fun _ _ => id) (by omega)
  · rw [wp_bind, hleaf.entries, ofResult, wp_pure]
    exact em.wp_emitPacked codec crc h fun e he =>
      fits e ((mergeSortedVecs_perm old batch).mem_iff.mp he)

theorem Emitted.wp_rebuildLeaves {s : Dev C} (h : s.Ok) {start : Nat} {emitter : LeafEmitter}
    {leaves : List (List (K × FactRef))} (em : Emitted codec s start emitter leaves)
    {keyed : List (Page × K)} {olds : List (List (K × FactRef))}
    (hkeyed : List.Forall₂ (KeyedLeaf codec) keyed olds) {pending : List (K × FactRef)}
    (fits : ∀ e ∈ olds.flatten ++ pending, EntryFits codec e) :
    Wp (rebuildLeaves crc codec emitter keyed pending) s
      (fun em' t => Wrote crc (IndexAt start) s t ∧ ∃ more, Cut (rebuilt olds pending) more ∧
        Emitted codec t start em' (leaves ++ more))
      (fun _ t => Stopped crc (IndexAt start)
        (PAGE_LIMIT < start + leaves.length + (rebuilt olds pending).length) s t) := by
  induction hkeyed generalizing s emitter leaves pending with
  | nil =>
      rw [rebuildLeaves, wp_pure]
      exact ⟨.refl h, [], ⟨rfl, by simp⟩, by simpa using em⟩
  | @cons first old keyed olds hfirst hrest ih =>
      obtain ⟨page, firstKey⟩ := first
      have split := routeBatch_append (upperKey olds) pending
      have fitsFirst : ∀ e ∈ old ++ (routeBatch (upperKey olds) pending).1, EntryFits codec e := by
        intro e he
        refine fits e ?_
        rw [← split, List.flatten_cons]
        simp only [List.mem_append] at he ⊢
        tauto
      have fitsRest : ∀ e ∈ olds.flatten ++ (routeBatch (upperKey olds) pending).2,
          EntryFits codec e := by
        intro e he
        refine fits e ?_
        rw [← split, List.flatten_cons]
        simp only [List.mem_append] at he ⊢
        tauto
      rw [rebuildLeaves, upperKey_keyed codec hrest, rebuilt]
      generalize routeBatch (upperKey olds) pending = route at *
      rw [wp_bind, List.length_append]
      refine (em.wp_rebuildLeaf codec crc h hfirst fitsFirst).mono ?_ ?_
      · rintro em' t ⟨wrote, more, cut, emitted⟩
        have few := cut.length_le
        refine (ih wrote.okay emitted fitsRest).mono ?_ ?_
        · rintro em'' u ⟨wrote', more', cut', emitted'⟩
          rw [List.append_assoc] at emitted'
          exact ⟨wrote.trans wrote', _, cut.append cut', emitted'⟩
        · intro _ u stopped
          rw [List.length_append] at stopped
          exact wrote.stopped (stopped.mono (fun _ _ => id) (by omega))
      · intro _ t stopped
        exact stopped.mono (fun _ _ => id) (by omega)

/-- The rebuild writes a tree of the old and the pending entries, whichever old leaves are
empty. -/
theorem wp_rebuildBtreeIncremental {s : Dev C} (h : s.Ok) {start : Nat} (data : start ≠ 0)
    (dense : start ≤ s.header.pageCount) (limit : start ≤ PAGE_LIMIT) {pages : List Page}
    {olds : List (List (K × FactRef))}
    (hleaves : List.Forall₂ (fun page entries => ∃ link, LeafOf codec page entries link) pages olds)
    (sorted : olds.flatten.Pairwise fun a b => a.1 ≤ b.1) {pending : List (K × FactRef)}
    (sortedPending : pending.Pairwise fun a b => a.1 ≤ b.1)
    (fits : ∀ e ∈ olds.flatten ++ pending, EntryFits codec e) :
    Wp (rebuildBtreeIncremental crc codec pages pending start) s
      (fun r t => Wrote crc (IndexAt start) s t ∧
        r.2 ≤ start + 3 * (olds.flatten ++ pending).length + 1 ∧ r.2 ≤ t.header.pageCount ∧
        r.2 ≤ PAGE_LIMIT ∧ ∃ leaves, leaves.flatten.Perm (olds.flatten ++ pending) ∧
          Tree codec t.disk.page start r.2 r.1 leaves ∧
          ∀ id, start + leaves.length ≤ id → id < r.2 → InternalAt t.disk.page id)
      (fun _ t => Stopped crc (IndexAt start)
        (PAGE_LIMIT < start + 3 * (olds.flatten ++ pending).length + 1) s t) := by
  obtain ⟨keyed, hkeyed, hall⟩ := keyedLeaves_leaves codec hleaves
  have full : ∀ old ∈ olds.filter (fun old => !old.isEmpty), old ≠ [] := by
    intro old hold none_
    rw [none_] at hold
    exact Bool.false_ne_true (List.mem_filter.mp hold).2
  rw [← flatten_filter_isEmpty olds] at sorted fits ⊢
  generalize olds.filter (fun old => !old.isEmpty) = olds at *
  rw [rebuildBtreeIncremental, wp_bind, hkeyed, ofResult, wp_pure]
  refine wp_ite (fun none_ => ?_) fun some_ => ?_
  · -- Without old entries the rebuild is a bulk build.
    rw [List.isEmpty_iff.mp none_] at hall
    cases hall
    rw [List.flatten_nil, List.nil_append] at fits ⊢
    refine (wp_buildBtree codec crc h data dense limit fits sortedPending).mono ?_
      (fun _ _ stopped => stopped)
    rintro r t ⟨wrote, few, hcount, limit', leaves, whole, tree⟩
    exact ⟨wrote, few, hcount, limit', leaves, by rw [whole], tree⟩
  have olds_ne : olds ≠ [] := by
    rintro rfl
    cases hall
    exact some_ rfl
  have whole := rebuilt_perm olds_ne pending
  have count := whole.length_eq
  have begin_ : Emitted codec s start ⟨start, none, []⟩ [] :=
    ⟨rfl, rfl, by simp, .inl ⟨rfl, rfl⟩, dense, limit⟩
  rw [wp_bind]
  refine (begin_.wp_rebuildLeaves codec crc h hall fits).mono ?_ ?_
  · rintro em t ⟨wrote, leaves, cut, emitted⟩
    rw [List.nil_append] at emitted
    have few := cut.length_le
    rw [LeafEmitter.finish, wp_bind, wp_bind]
    refine (emitted.wp_releaseHeld codec crc wrote.okay (by decide : 0 < 256 ^ 8)).mono ?_ ?_
    · rintro _ u ⟨wrote', hcount, limit', chain⟩
      rw [wp_pure, emitted.infos, emitted.next]
      have some_leaves : leaves ≠ [] := by
        rintro rfl
        have none_ := whole.symm.subset
        rw [← cut.flatten, List.flatten_nil, List.subset_nil, List.append_eq_nil_iff,
          List.flatten_eq_nil_iff] at none_
        obtain ⟨old, later, rfl⟩ := List.exists_cons_of_ne_nil olds_ne
        exact full old List.mem_cons_self (none_.1 old List.mem_cons_self)
      refine (Chain.wp_levels codec crc wrote'.okay chain some_leaves cut.full ?_ ?_ hcount
        limit').mono ?_ ?_
      · intro e he
        rw [cut.flatten] at he
        exact fits e (whole.mem_iff.mp he)
      · rw [cut.flatten]
        exact rebuilt_sorted full sorted sortedPending
      · rintro r v ⟨wrote'', few', hcount', limit'', tree⟩
        exact ⟨(wrote.trans wrote').trans wrote'', by omega, hcount', limit'', leaves,
          by rw [cut.flatten]; exact whole, tree⟩
      · intro _ v stopped
        exact (wrote.trans wrote').stopped (stopped.mono (fun _ _ => id) (by omega))
    · intro _ u stopped
      exact wrote.stopped (stopped.mono (fun _ _ => id) (by omega))
  · intro _ t stopped
    exact stopped.mono (fun _ _ => id) (by rw [List.length_nil]; omega)

end Rebuild
end Minigraf
