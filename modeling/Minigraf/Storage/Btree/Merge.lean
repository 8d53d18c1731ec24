import Minigraf.Storage.Btree.Gap
import Minigraf.Storage.Btree.Ranges

/-!
An incremental rebuild merges: over any chain of leaves that reads as sorted entries,
from any page on, and over the trees it left itself any number of times, it writes a tree
that streams the old and the pending entries in order.
-/

namespace Minigraf

open Bytes EStateM

section Merge

variable {H C K : Type} [LinearOrder K]

/-- Old leaves taken before anything is written, with their entries: a chain of leaves
that reads as sorted entries, or the leaves of a tree that a rebuild left, whatever has
been written elsewhere since. -/
inductive TreeSnapshot (crc : Crc H C) (codec : IndexCodec K) : List Page → List (K × FactRef) → Prop
  | chain {pages : List Page} {olds : List (List (K × FactRef))} :
      List.Forall₂ (fun page entries => ∃ link, LeafOf codec page entries link) pages olds →
      (olds.flatten.Pairwise fun a b => a.1 ≤ b.1) →
      TreeSnapshot crc codec pages olds.flatten
  | round {pages later : List Page} {entries pending : List (K × FactRef)} {s t u v : Dev C}
      {start root stop : Nat} :
      TreeSnapshot crc codec pages entries → s.Ok → start ≠ 0 →
      (pending.Pairwise fun a b => a.1 ≤ b.1) →
      rebuildBtreeIncremental crc codec pages pending start s = .ok (root, stop) t →
      u.Ok → stop ≤ u.header.pageCount →
      (∀ id, start ≤ id → id < stop → u.disk.page id = t.disk.page id) →
      collectLeafPages crc root u = .ok later v →
      TreeSnapshot crc codec later (entries ++ pending)

/-- A tree in the pages `[start, stop)` that streams these entries in order. Each page is
a leaf of the chain or an internal node; the chain ends with a leaf without successor, and
no leaf is empty unless there are no entries. -/
structure Merged (crc : Crc H C) (codec : IndexCodec K) (t : Dev C) (start stop root : Nat)
    (entries : List (K × FactRef)) : Prop where
  streams : ∃ sorted u, streamAllEntries crc codec root t = .ok sorted u ∧ sorted.Perm entries ∧
    sorted.Pairwise fun a b => a.1 ≤ b.1
  pages : ∃ leaves, leaves ≠ [] ∧ start + leaves.length ≤ stop ∧ Chain codec t.disk.page start leaves ∧
    (entries ≠ [] → ∀ leaf ∈ leaves, leaf ≠ []) ∧
    ∀ id, start + leaves.length ≤ id → id < stop → InternalAt t.disk.page id

variable {crc : Crc H C} {codec : IndexCodec K} {pages : List Page} {entries pending : List (K × FactRef)}

/-- A planted tree whose other pages are internal nodes is a merge of its entries. -/
theorem Planted.merged {t : Dev C} {start stop root : Nat} {leaves : List (List (K × FactRef))}
    (h : Planted codec t start stop root entries) (whole : leaves.flatten.Perm entries)
    (tree : Tree codec t.disk.page start stop root leaves)
    (above : ∀ id, start + leaves.length ≤ id → id < stop → InternalAt t.disk.page id) :
    Merged crc codec t start stop root entries := by
  obtain ⟨_, u, run, _, rfl⟩ :=
    (tree.wp_streamAllEntries crc h.okay h.data h.counted h.limit).exists_ok
  refine ⟨⟨_, u, run, whole, tree.sorted⟩, leaves, tree.leaves_ne_nil, tree.bound, tree.chain, ?_, above⟩
  intro some_
  obtain ⟨rfl, _⟩ | ⟨_, full⟩ := tree.full
  · exact absurd whole.nil_eq.symm some_
  · exact full

/-- A rebuild from a snapshot of leaves, wherever it starts. -/
theorem wp_rebuildAnywhere {s : Dev C} (okay : s.Ok) {start : Nat} (data : start ≠ 0)
    {olds : List (List (K × FactRef))}
    (hleaves : List.Forall₂ (fun page entries => ∃ link, LeafOf codec page entries link) pages olds)
    (sorted : olds.flatten.Pairwise fun a b => a.1 ≤ b.1)
    (sortedPending : pending.Pairwise fun a b => a.1 ≤ b.1)
    (fits : ∀ e ∈ olds.flatten ++ pending, EntryFits codec e) :
    Wp (rebuildBtreeIncremental crc codec pages pending start) s
      (fun r t => Planted codec t start r.2 r.1 (olds.flatten ++ pending) ∧
        Merged crc codec t start r.2 r.1 (olds.flatten ++ pending))
      (fun _ _ => s.faults ≠ none ∨
        PAGE_LIMIT < start + 3 * (olds.flatten ++ pending).length + 1) := by
  have dense {s : Dev C} (okay : s.Ok) (known : start ≤ s.header.pageCount) (limit : start ≤ PAGE_LIMIT) :
      Wp (rebuildBtreeIncremental crc codec pages pending start) s
        (fun r t => Planted codec t start r.2 r.1 (olds.flatten ++ pending) ∧
          Merged crc codec t start r.2 r.1 (olds.flatten ++ pending))
        (fun _ _ => s.faults ≠ none ∨
          PAGE_LIMIT < start + 3 * (olds.flatten ++ pending).length + 1) := by
    refine (wp_rebuildBtreeIncremental codec crc okay data known limit hleaves sorted sortedPending
      fits).mono ?_ fun _ _ stopped => stopped.why
    intro r t ⟨wrote, _, counted, limit', leaves, whole, tree, above⟩
    have planted : Planted codec t start r.2 r.1 (olds.flatten ++ pending) :=
      ⟨wrote.okay, data, counted, limit', leaves, whole, tree⟩
    exact ⟨planted, planted.merged whole tree above⟩
  by_cases limit : start ≤ PAGE_LIMIT
  · by_cases known : start ≤ s.header.pageCount
    · exact dense okay known limit
    · exact (rebuildBtreeIncremental_padTo crc codec (not_le.mp known) pages pending).wp
        (dense (okay.padTo crc start) le_rfl limit)
  · exact (wp_rebuildBtreeIncremental_far crc codec (not_le.mp limit).le pages pending s).mono
      (fun _ _ no => no.elim) fun _ _ _ => .inr (by omega)

/-- The pages of a snapshot read as its entries, in order. -/
theorem TreeSnapshot.leaves (h : TreeSnapshot crc codec pages entries) (fits : ∀ e ∈ entries, EntryFits codec e) :
    ∃ olds, List.Forall₂ (fun page entries => ∃ link, LeafOf codec page entries link) pages olds ∧
      (olds.flatten.Pairwise fun a b => a.1 ≤ b.1) ∧ olds.flatten.Perm entries := by
  induction h with
  | @chain pages olds reads sorted => exact ⟨olds, reads, sorted, .refl _⟩
  | @round pages later entries pending s t u v start root stop _ okay data sorted run okay' counted same
      collected ih =>
      obtain ⟨olds, reads, sortedOld, whole⟩ := ih fun e he => fits e (List.mem_append_left _ he)
      have fits' : ∀ e ∈ olds.flatten ++ pending, EntryFits codec e := fun e he =>
        fits e ((whole.append_right pending).mem_iff.mp he)
      obtain ⟨planted, _⟩ := (wp_rebuildAnywhere okay data reads sortedOld sorted fits').of_ok run
      obtain ⟨leaves, whole', tree⟩ := planted.tree
      obtain ⟨_, reads'⟩ := ((tree.agree codec same).wp_collectLeafPages crc okay' data counted
        planted.limit).of_ok collected
      exact ⟨leaves, reads', tree.sorted, whole'.trans (whole.append_right pending)⟩

/-- While every entry fits a leaf and an internal page, a rebuild merges the entries of a
snapshot with the pending ones. It fails only with the device or past the reach of its
offsets. -/
theorem TreeSnapshot.rebuild_merges (h : TreeSnapshot crc codec pages entries)
    (sorted : pending.Pairwise fun a b => a.1 ≤ b.1) {s : Dev C} (okay : s.Ok) {start : Nat}
    (data : start ≠ 0) (fits : ∀ e ∈ entries ++ pending, EntryFits codec e) :
    Wp (rebuildBtreeIncremental crc codec pages pending start) s
      (fun r t => Merged crc codec t start r.2 r.1 (entries ++ pending))
      (fun _ _ => s.faults ≠ none ∨ PAGE_LIMIT < start + 3 * (entries ++ pending).length + 1) := by
  obtain ⟨olds, reads, sortedOld, whole⟩ := h.leaves fun e he => fits e (List.mem_append_left _ he)
  have same : (olds.flatten ++ pending).Perm (entries ++ pending) := whole.append_right pending
  refine (wp_rebuildAnywhere okay data reads sortedOld sorted
    fun e he => fits e (same.mem_iff.mp he)).mono ?_ fun _ _ why => ?_
  · intro r t ⟨_, ⟨stream, u, run, perm, ordered⟩, leaves, some_, inside, linked, full, above⟩
    refine ⟨⟨stream, u, run, perm.trans same, ordered⟩, leaves, some_, inside, linked, fun ne => full ?_, above⟩
    intro none_
    rw [none_] at same
    exact ne same.nil_eq.symm
  · rw [same.length_eq] at why
    exact why

end Merge

/-! ## Over an empty leaf -/

section Empty

variable {K : Type} {codec : IndexCodec K} {page : Page}

/-- The leaf of a tree without entries. -/
theorem exists_emptyLeaf (codec : IndexCodec K) : ∃ page, LeafOf codec page [] 0 := by
  obtain ⟨page, _, leaf⟩ := @encodeLeafPage_room [] 0 (by decide) (by decide)
  exact ⟨page, @LeafPage.leafOf K codec page [] 0 leaf⟩

variable [LinearOrder K]

theorem TreeSnapshot.empty {H C : Type} {crc : Crc H C} (leaf : LeafOf codec page [] 0) :
    TreeSnapshot crc codec [page] [] := by
  have reads : List.Forall₂ (fun page entries => ∃ link, LeafOf codec page entries link) [page] [[]] :=
    .cons ⟨0, leaf⟩ .nil
  exact .chain reads .nil

theorem rebuild_empty {H C : Type} (crc : Crc H C) (leaf : LeafOf codec page [] 0)
    (pending : List (K × FactRef)) (start : Nat) :
    rebuildBtreeIncremental crc codec [page] pending start = buildBtree crc codec pending start := by
  have none_ : keyedLeaves codec [page] = .ok [] := keyedLeaves_cons codec leaf.firstKey rfl
  rw [rebuildBtreeIncremental, none_]
  rfl

end Empty

/-- A thousand entries merged with the leaves of a tree of a thousand, which was itself merged
from an empty leaf. -/
theorem TreeSnapshot.rebuild_merges_thousand : ∃ pages,
    TreeSnapshot Crc.lossless Postcard.standard.avet pages
      ([] ++ List.replicate 1000 (narrowFact.avetKey, ⟨1, 0⟩)) ∧
    Wp (rebuildBtreeIncremental Crc.lossless Postcard.standard.avet pages
        (List.replicate 1000 (narrowFact.avetKey, ⟨2, 0⟩)) 5000)
      (Dev.create Crc.lossless 64 none)
      (fun r u => Merged Crc.lossless Postcard.standard.avet u 5000 r.2 r.1
        ([] ++ List.replicate 1000 (narrowFact.avetKey, ⟨1, 0⟩) ++
          List.replicate 1000 (narrowFact.avetKey, ⟨2, 0⟩)))
      (fun _ _ => False) := by
  obtain ⟨page, leaf⟩ := exists_emptyLeaf Postcard.standard.avet
  have sorted (r : FactRef) : (List.replicate 1000 (narrowFact.avetKey, r)).Pairwise fun a b => a.1 ≤ b.1 :=
    List.pairwise_replicate.mpr (.inr le_rfl)
  have one : EntryFits Postcard.standard.avet (narrowFact.avetKey, ⟨1, 0⟩) :=
    ⟨by decide, by unfold SepFits; decide⟩
  have two : EntryFits Postcard.standard.avet (narrowFact.avetKey, ⟨2, 0⟩) :=
    ⟨by decide, by unfold SepFits; decide⟩
  have first : ∀ e ∈ [[]].flatten ++ List.replicate 1000 (narrowFact.avetKey, (⟨1, 0⟩ : FactRef)),
      EntryFits Postcard.standard.avet e := fun e he => List.eq_of_mem_replicate he ▸ one
  obtain ⟨⟨root, stop⟩, t, run, planted, -⟩ := ((wp_rebuildAnywhere Dev.create_ok (by decide : 1 ≠ 0)
    (.cons ⟨0, leaf⟩ .nil) .nil (sorted ⟨1, 0⟩) first).mono (fun _ _ done => done)
      fun _ _ why => why.elim (fun fault => fault rfl)
        (by rw [List.length_append, List.length_replicate]; decide)).exists_ok
  obtain ⟨leaves, whole, tree⟩ := planted.tree
  obtain ⟨pages, v, collected, -⟩ := (tree.wp_collectLeafPages Crc.lossless planted.okay planted.data
    planted.counted planted.limit).exists_ok
  have snapshot : TreeSnapshot Crc.lossless Postcard.standard.avet pages
      ([] ++ List.replicate 1000 (narrowFact.avetKey, ⟨1, 0⟩)) :=
    .round (.empty leaf) Dev.create_ok (by decide) (sorted ⟨1, 0⟩) run planted.okay planted.counted
      (fun _ _ _ => rfl) collected
  refine ⟨pages, snapshot, ?_⟩
  refine (snapshot.rebuild_merges (sorted ⟨2, 0⟩) Dev.create_ok (by decide : 5000 ≠ 0) ?_).mono
    (fun _ _ merged => merged) fun _ _ why => why.elim (fun fault => fault rfl)
      (by rw [List.length_append, List.length_append, List.length_replicate, List.length_replicate]; decide)
  intro e he
  obtain old | new := List.mem_append.mp he
  · exact List.eq_of_mem_replicate old ▸ one
  · exact List.eq_of_mem_replicate new ▸ two

/-- Two facts of which the second has an AVET key of 4077 bytes, which fits a leaf: merged
into the empty tree, their entries cannot be streamed. -/
theorem rebuild_not_streamed : ∃ page t,
    TreeSnapshot Crc.lossless Postcard.standard.avet [page] [] ∧
    (∀ f ∈ [narrowFact, textFact (letters 4042)], f.Fits Postcard.standard.fact) ∧
    ([(narrowFact.avetKey, (⟨1, 0⟩ : FactRef)), ((textFact (letters 4042)).avetKey, ⟨1, 1⟩)].Pairwise
      fun a b => a.1 ≤ b.1) ∧
    rebuildBtreeIncremental Crc.lossless Postcard.standard.avet [page]
      [(narrowFact.avetKey, ⟨1, 0⟩), ((textFact (letters 4042)).avetKey, ⟨1, 1⟩)] 1
      (Dev.create Crc.lossless 64 none) = .ok (3, 4) t ∧
    ∃ e u, streamAllEntries Crc.lossless Postcard.standard.avet 3 t = .error e u := by
  have size := length_letters 4042
  obtain ⟨page, leaf⟩ := exists_emptyLeaf Postcard.standard.avet
  have near (slot : Nat) (few : slot < 128) : Postcard.Near ⟨1, slot⟩ := ⟨(by decide : 1 < 128), few⟩
  have build := @wp_buildAvet_overlap _ _ Crc.lossless _ _ Dev.create_ok 1 (by decide) (by decide) (by decide)
    ⟨1, 0⟩ ⟨1, 1⟩ (near 0 (by decide)) (near 1 (by decide)) size
  obtain ⟨r, t, run, wrote, rfl, _, lost⟩ := (build.mono (fun _ _ done => done)
    fun _ _ stopped => stopped.why.elim (fun fault => fault rfl) id).exists_ok
  have sorted := indexEntries_sorted (some ∘ Fact.avetKey)
    [(narrowFact, (⟨1, 0⟩ : FactRef)), (textFact (letters 4042), ⟨1, 1⟩)]
  rw [Postcard.avet_entries] at sorted
  refine ⟨page, t, .empty leaf, Postcard.pair_fits size, sorted, ?_, ?_⟩
  · rw [rebuild_empty Crc.lossless leaf]
    exact run
  · have stuck := @Misleading.wp_streamAllEntries _ _ Crc.lossless _ Postcard.standard.avet _ wrote.okay 3
      (by decide) lost fun id far => by rw [wrote.writes.far far]; rfl
    unfold Wp at stuck
    cases result : streamAllEntries Crc.lossless Postcard.standard.avet 3 t with
    | ok _ _ =>
        rw [result] at stuck
        exact stuck.elim
    | error e u => exact ⟨e, u, rfl⟩

end Minigraf
