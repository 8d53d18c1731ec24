import Minigraf.Storage.Btree.Build

/-!
The internal levels the builder writes cover the leaves they are built over: from the
root down, the children of a node cover consecutive leaves, and each separator is the
first key of the leaves to its right.
-/

namespace Minigraf

open Bytes EStateM

/-- A page of the index region from `start` on. -/
def IndexAt (start id : Nat) (p : Page) : Prop :=
  start ≤ id ∧ (p.type = PAGE_TYPE_LEAF ∨ p.type = PAGE_TYPE_INTERNAL)

theorem IndexAt.mono {start start' id : Nat} {p : Page} (le : start' ≤ start)
    (h : IndexAt start id p) : IndexAt start' id p :=
  ⟨le.trans h.1, h.2⟩

/-- The first page past a 64-bit file offset. -/
def PAGE_LIMIT : Nat := 2 ^ 52

theorem far_iff (id : Nat) : 2 ^ 64 ≤ id * PAGE_SIZE ↔ PAGE_LIMIT ≤ id := by
  simp only [PAGE_SIZE, PAGE_LIMIT]
  omega

/-- The bytes of the first key of some leaves. -/
def firstSep (leaves : List NodeInfo) : List UInt8 := (leaves.head?.map Prod.snd).getD []

/-- The node at `id` and height `h` covers the leaves, with its page in `[lo, hi)` and
the pages of its children before it. -/
def Covers (page : Nat → Page) (lo : Nat) : Nat → Nat → Nat → List NodeInfo → Prop
  | hi, 0, id, leaves => lo ≤ id ∧ id < hi ∧ ∃ key, leaves = [(id, key)]
  | hi, h + 1, id, leaves => lo ≤ id ∧ id < hi ∧ ∃ children : List (Nat × List NodeInfo),
      leaves = children.flatMap Prod.snd ∧
      InternalPage (page id) (children.map Prod.fst) (children.tail.map fun c => firstSep c.2) ∧
      ∀ c ∈ children, c.2 ≠ [] ∧ Covers page lo id h c.1 c.2

theorem Covers.bounds {page : Nat → Page} {lo hi h id : Nat} {leaves : List NodeInfo}
    (hc : Covers page lo hi h id leaves) : lo ≤ id ∧ id < hi := by
  cases h with
  | zero => exact ⟨hc.1, hc.2.1⟩
  | succ h => exact ⟨hc.1, hc.2.1⟩

theorem Covers.height {page : Nat → Page} {lo hi h id : Nat} {leaves : List NodeInfo}
    (hc : Covers page lo hi h id leaves) : h ≤ id := by
  induction h generalizing hi id leaves with
  | zero => exact Nat.zero_le id
  | succ h ih =>
      obtain ⟨_, _, children, _, hpage, hchildren⟩ := hc
      have arity := hpage.arity
      rw [List.length_map] at arity
      obtain ⟨first, rest, rfl⟩ := List.exists_cons_of_length_pos (by omega : 0 < children.length)
      have below := (hchildren first List.mem_cons_self).2
      have := ih below
      have := below.bounds
      omega

/-- Pages elsewhere do not matter. -/
theorem Covers.agree {page page' : Nat → Page} {lo hi hi' h id : Nat} {leaves : List NodeInfo}
    (hc : Covers page lo hi h id leaves) (same : ∀ i, lo ≤ i → i < hi → page' i = page i)
    (le : hi ≤ hi') :
    Covers page' lo hi' h id leaves := by
  induction h generalizing hi hi' id leaves with
  | zero => exact ⟨hc.1, hc.2.1.trans_le le, hc.2.2⟩
  | succ h ih =>
      obtain ⟨hlo, hhi, children, rfl, hpage, hchildren⟩ := hc
      refine ⟨hlo, hhi.trans_le le, children, rfl, ?_, fun c hc => ⟨(hchildren c hc).1,
        ih (hchildren c hc).2 (fun i lo hi => same i lo (hi.trans hhi)) le_rfl⟩⟩
      rw [same id hlo hhi]
      exact hpage

/-- A level of nodes and the leaves each of them covers. -/
def LevelCovers (page : Nat → Page) (lo hi h : Nat) (level : List NodeInfo)
    (parts : List (List NodeInfo)) : Prop :=
  List.Forall₂ (fun node leaves => Covers page lo hi h node.1 leaves ∧ firstSep leaves = node.2 ∧
    leaves ≠ []) level parts

theorem LevelCovers.agree {page page' : Nat → Page} {lo hi hi' h : Nat} {level : List NodeInfo}
    {parts : List (List NodeInfo)} (hl : LevelCovers page lo hi h level parts)
    (same : ∀ i, lo ≤ i → i < hi → page' i = page i) (le : hi ≤ hi') :
    LevelCovers page' lo hi' h level parts :=
  hl.imp fun _ _ hc => ⟨hc.1.agree same le, hc.2⟩

theorem firstSep_flatten {leaves : List NodeInfo} (some_ : leaves ≠ [])
    (rest : List (List NodeInfo)) : firstSep ((leaves :: rest).flatten) = firstSep leaves := by
  cases leaves with
  | nil => exact absurd rfl some_
  | cons leaf leaves => rfl

/-- A node over the nodes of a level covers what they cover. -/
theorem LevelCovers.node {page : Nat → Page} {lo hi h id : Nat} {node : NodeInfo × List NodeInfo}
    {parts : List (List NodeInfo)} (hl : LevelCovers page lo hi h (Greedy.members node) parts)
    (hpage : InternalPage (page id) ((Greedy.members node).map Prod.fst) (node.2.map Prod.snd))
    (hlo : lo ≤ id) (hid : hi ≤ id) :
    Covers page lo (id + 1) (h + 1) id parts.flatten ∧ firstSep parts.flatten = node.1.2 ∧
      parts.flatten ≠ [] := by
  obtain ⟨first, others⟩ := node
  cases hl with
  | @cons _ leaves _ parts hfirst hothers =>
      change List.Forall₂ _ others parts at hothers
      have names : others.map Prod.fst = (others.zip parts).map fun c => c.1.1 := by
        calc others.map Prod.fst = ((others.zip parts).map Prod.fst).map Prod.fst := by
              rw [List.map_fst_zip (le_of_eq hothers.length_eq)]
          _ = (others.zip parts).map fun c => c.1.1 := List.map_map
      have seps : others.map Prod.snd = (others.zip parts).map fun c => firstSep c.2 := by
        clear hpage names hfirst
        induction hothers with
        | nil => rfl
        | cons hc _ ih => rw [List.map_cons, List.zip_cons_cons, List.map_cons, ih, hc.2.1]
      have leavesOf : parts = (others.zip parts).map Prod.snd :=
        (List.map_snd_zip (le_of_eq hothers.length_eq.symm)).symm
      refine ⟨⟨hlo, Nat.lt_succ_self id, (first.1, leaves) ::
        (others.zip parts).map (fun c => (c.1.1, c.2)), ?_, ?_, ?_⟩, ?_, ?_⟩
      · rw [List.flatMap_cons, List.flatten_cons, List.flatMap_def, List.map_map]
        congr 2
      · rw [List.map_cons, List.map_map, List.tail_cons, List.map_map]
        rw [Greedy.members, List.map_cons, names, seps] at hpage
        exact hpage
      · intro c hc
        obtain rfl | hc := List.mem_cons.mp hc
        · exact ⟨hfirst.2.2, hfirst.1.agree (fun _ _ _ => rfl) hid⟩
        · obtain ⟨pair, hpair, rfl⟩ := List.mem_map.mp hc
          have := (List.forall₂_iff_zip.mp hothers).2 hpair
          exact ⟨this.2.2, this.1.agree (fun _ _ _ => rfl) hid⟩
      · rw [firstSep_flatten hfirst.2.2, hfirst.2.1]
      · rw [List.flatten_cons]
        exact List.append_ne_nil_of_left_ne_nil hfirst.2.2 _

/-- The nodes written over a level are the next level. -/
theorem LevelCovers.up {page : Nat → Page} {lo hi h base top : Nat}
    {nodes : List (NodeInfo × List NodeInfo)} {groups : List (List (List NodeInfo))}
    (hl : List.Forall₂ (fun node parts => LevelCovers page lo hi h (Greedy.members node) parts)
      nodes groups)
    (written : ∀ i node, nodes[i]? = some node → InternalPage (page (base + i))
      ((Greedy.members node).map Prod.fst) (node.2.map Prod.snd))
    (hlo : lo ≤ base) (hhi : hi ≤ base) (htop : base + nodes.length ≤ top) :
    LevelCovers page lo top (h + 1) (nextLevel base nodes) (groups.map List.flatten) := by
  induction hl generalizing base with
  | nil => exact .nil
  | @cons node parts nodes groups hnode _ ih =>
      rw [List.length_cons] at htop
      obtain ⟨hcovers, hsep, some_⟩ :=
        LevelCovers.node hnode (written 0 node rfl) hlo hhi
      refine .cons ⟨hcovers.agree (fun _ _ _ => rfl) (by omega), hsep, some_⟩ ?_
      refine ih (fun i n hn => ?_) (by omega) (by omega) (by omega)
      rw [show base + 1 + i = base + (i + 1) by omega]
      exact written (i + 1) n (by simpa using hn)

section Write

variable {H C : Type} (crc : Crc H C)

/-- A node of the next level has room for its separators. -/
structure NodeFits (next : Nat) (node : NodeInfo × List NodeInfo) : Prop where
  room : INTERNAL_HEADER_SIZE + 12 * node.2.length +
    Block.recordBytes (node.2.map Prod.snd) ≤ PAGE_SIZE
  below : ∀ child ∈ Greedy.members node, child.1 < next

theorem wp_writeNodes {s : Dev C} (h : s.Ok) {next : Nat} (dense : next ≤ s.header.pageCount)
    (limit : next ≤ PAGE_LIMIT) {nodes : List (NodeInfo × List NodeInfo)}
    (fits : ∀ node ∈ nodes, NodeFits next node) :
    Wp (writeNodes crc next nodes) s
      (fun _ t => Wrote crc (IndexAt next) s t ∧ next + nodes.length ≤ t.header.pageCount ∧
        next + nodes.length ≤ PAGE_LIMIT ∧
        ∀ i node, nodes[i]? = some node → InternalPage (t.disk.page (next + i))
          ((Greedy.members node).map Prod.fst) (node.2.map Prod.snd))
      (fun _ t => Stopped crc (IndexAt next) (PAGE_LIMIT < next + nodes.length) s t) := by
  induction nodes generalizing s next with
  | nil =>
      rw [writeNodes, wp_pure]
      exact ⟨.refl h, dense, limit, by simp⟩
  | cons node nodes ih =>
      have first := fits node List.mem_cons_self
      obtain ⟨page, hpage, hnode⟩ := encodeInternalPage_room
        (by simp [Greedy.members] :
          ((Greedy.members node).map Prod.fst).length = (node.2.map Prod.snd).length + 1)
        (by rw [List.length_map]; exact first.room)
        (by
          intro id hid
          obtain ⟨child, hchild, rfl⟩ := List.mem_map.mp hid
          have := first.below child hchild
          simp only [PAGE_LIMIT] at limit
          omega)
      rw [writeNodes, wp_bind, writeInternalPage, wp_bind, hpage, ofResult, wp_pure]
      refine (wp_writeCached crc (IndexAt next) h dense ⟨le_rfl, .inr hnode.type⟩).mono ?_ ?_
      · rintro _ t ⟨wrote, hpages, hcount, near⟩
        rw [← not_le, far_iff] at near
        refine (@ih t wrote.okay (next + 1) (by omega) (by omega) fun n hn =>
          ⟨(fits n (List.mem_cons_of_mem _ hn)).room, fun c hc =>
            Nat.lt_succ_of_lt ((fits n (List.mem_cons_of_mem _ hn)).below c hc)⟩).mono ?_ ?_
        · rintro _ u ⟨wrote', hcount', limit', hnodes⟩
          rw [List.length_cons]
          refine ⟨wrote.trans (wrote'.mono fun _ _ => IndexAt.mono (Nat.le_succ _)), by omega,
            by omega, ?_⟩
          intro i n hn
          cases i with
          | zero =>
              obtain rfl : node = n := by simpa using hn
              obtain same | later := wrote'.writes.page next
              · rw [Nat.add_zero, same, hpages, Function.update_self]
                exact hnode
              · exact absurd later.1 (by omega)
          | succ i =>
              rw [show next + (i + 1) = next + 1 + i by omega]
              exact hnodes i n (by simpa using hn)
        · intro _ u stopped
          rw [List.length_cons]
          exact wrote.stopped (stopped.mono (fun _ _ => IndexAt.mono (Nat.le_succ _)) (by omega))
      · intro _ t stopped
        rw [List.length_cons]
        exact stopped.mono (fun _ _ => id) (fun far => by rw [far_iff] at far; omega)

/-- Separators that fit an internal page beside one child pointer and slot. -/
def SepFits (sep : List UInt8) : Prop := INTERNAL_HEADER_SIZE + 12 + sep.length ≤ PAGE_SIZE

instance (sep : List UInt8) : Decidable (SepFits sep) := inferInstanceAs (Decidable (_ ≤ _))

/-- A node has room for its separators. -/
def NodeRoom (node : NodeInfo × List NodeInfo) : Prop :=
  INTERNAL_HEADER_SIZE + 12 * node.2.length + Block.recordBytes (node.2.map Prod.snd) ≤ PAGE_SIZE

/-- A node has room when each of its separators fits on its own. -/
theorem groupLevel_room {level : List NodeInfo} :
    ∀ node ∈ groupLevel level, (∀ sep ∈ node.2, SepFits sep.2) → NodeRoom node := by
  let Fits (p : PageFill) : Prop :=
    INTERNAL_HEADER_SIZE + 12 * p.records + p.bytes ≤ PAGE_SIZE ∧ (p.records = 0 → p.bytes = 0)
  have step : ∀ (p : PageFill) (child : NodeInfo), SepFits child.2 → Fits p →
      siblingFull p child = false → Fits (p.add child.2.length) := by
    intro p child alone hp notFull
    simp only [Fits, SepFits, INTERNAL_HEADER_SIZE, PAGE_SIZE, PageFill.add] at hp alone ⊢
    obtain near | first := Bool.and_eq_false_iff.mp notFull
    · have near := of_decide_eq_false near
      simp only [PAGE_FILL_BYTES, SLOT_SIZE, INTERNAL_HEADER_SIZE, PAGE_SIZE] at near
      omega
    · have first := of_decide_eq_false first
      have := hp.2 (by omega)
      omega
  have start : ∀ child ∈ level, Fits (⟨0, 0⟩ : PageFill) := fun _ _ => ⟨by decide, fun _ => rfl⟩
  intro node hnode narrow
  have room := Greedy.groups_joined _ _ _ start step node hnode narrow
  rw [PageFill.foldl_add fun child : NodeInfo => child.2.length] at room
  simpa [NodeRoom, Block.recordBytes, Function.comp_def] using room.1

theorem groupLevel_fits {level : List NodeInfo} (seps : ∀ node ∈ level, SepFits node.2)
    {next : Nat} (below : ∀ node ∈ level, node.1 < next) :
    ∀ node ∈ groupLevel level, NodeFits next node := by
  intro node hnode
  have inside {child : NodeInfo} (hchild : child ∈ Greedy.members node) : child ∈ level :=
    Greedy.mem_of_mem_groups _ _ _ hnode hchild
  exact ⟨groupLevel_room node hnode fun sep hsep => seps sep (inside (List.mem_cons_of_mem _ hsep)),
    fun child hchild => below child (inside hchild)⟩

theorem mem_nextLevel {base : Nat} {nodes : List (NodeInfo × List NodeInfo)} {info : NodeInfo}
    (h : info ∈ nextLevel base nodes) : ∃ node ∈ nodes, info.2 = node.1.2 := by
  induction nodes generalizing base with
  | nil => cases h
  | cons node nodes ih =>
      obtain rfl | h := List.mem_cons.mp h
      · exact ⟨node, List.mem_cons_self, rfl⟩
      · obtain ⟨n, hn, same⟩ := ih h
        exact ⟨n, List.mem_cons_of_mem _ hn, same⟩

/-- A page of the internal levels. -/
def InternalAt (page : Nat → Page) (id : Nat) : Prop :=
  ∃ childIds seps, InternalPage (page id) childIds seps

/-- The internal levels over a level of nodes: their root covers everything the level
covers, no page below `next` changes, and every page from there on holds a node. -/
theorem wp_buildInternalLevels {s : Dev C} (hs : s.Ok) {lo next h : Nat} {level : List NodeInfo}
    {parts : List (List NodeInfo)} (hlevel : LevelCovers s.disk.page lo next h level parts)
    (some_ : level ≠ []) (hlo : lo ≤ next) (dense : next ≤ s.header.pageCount)
    (limit : next ≤ PAGE_LIMIT) (seps : ∀ node ∈ level, SepFits node.2) :
    Wp (buildInternalLevels crc level next) s
      (fun r t => Wrote crc (IndexAt next) s t ∧ next ≤ r.2 ∧ r.2 ≤ next + 2 * level.length ∧
        r.2 ≤ t.header.pageCount ∧ r.2 ≤ PAGE_LIMIT ∧
        (∀ id, next ≤ id → id < r.2 → InternalAt t.disk.page id) ∧
        ∃ h', Covers t.disk.page lo r.2 h' r.1 parts.flatten)
      (fun _ t => Stopped crc (IndexAt next) (PAGE_LIMIT < next + 2 * level.length) s t) := by
  induction hn : level.length using Nat.strong_induction_on generalizing s next h level parts with
  | _ n ih =>
      unfold buildInternalLevels
      split
      · exact absurd rfl some_
      · rename_i node
        cases hlevel with
        | cons hnode rest =>
            cases rest
            rw [wp_pure]
            refine ⟨.refl hs, le_rfl, Nat.le_add_right _ _, dense, limit, by simp only; omega, h, ?_⟩
            rw [List.flatten_cons, List.flatten_nil, List.append_nil]
            exact hnode.1
      · rename_i first second rest
        generalize hcur : first :: second :: rest = level at *
        have below : ∀ node ∈ level, node.1 < next := by
          intro node hnode
          obtain ⟨i, hi, rfl⟩ := List.getElem_of_mem hnode
          exact ((hlevel.get hi (by rw [← hlevel.length_eq]; exact hi)).1.bounds).2
        have half := length_groupLevel level
        have two : 2 ≤ level.length := by
          rw [← hcur]
          simp
        rw [wp_bind]
        refine (wp_writeNodes crc hs dense limit (groupLevel_fits seps below)).mono ?_ ?_
        · rintro _ t ⟨wrote, hcount, limit', hnodes⟩
          have kept : ∀ i, lo ≤ i → i < next → t.disk.page i = s.disk.page i := by
            intro i _ hi
            obtain same | later := wrote.writes.page i
            · exact same
            · exact absurd later.1 (by omega)
          have cut : LevelCovers t.disk.page lo next h
              ((groupLevel level).flatMap Greedy.members) parts := by
            rw [groupLevel, Greedy.groups_flatMap]
            exact hlevel.agree kept le_rfl
          obtain ⟨groups, rfl, hgroups⟩ := List.Forall₂.split_flatMap cut
          have up := LevelCovers.up hgroups hnodes hlo le_rfl le_rfl
          have seps' : ∀ node ∈ nextLevel next (groupLevel level), SepFits node.2 := by
            intro info hinfo
            obtain ⟨node, hnode, same⟩ := mem_nextLevel hinfo
            rw [same]
            exact seps _ (Greedy.mem_of_mem_groups _ _ _ hnode List.mem_cons_self)
          have grouped : (groupLevel level).length ≠ 0 := by
            intro none_
            have whole := Greedy.groups_flatMap siblingFull
              (fun seps child => seps.add child.2.length) (fun _ => ⟨0, 0⟩) level
            rw [groupLevel, List.length_eq_zero_iff] at none_
            rw [none_, List.flatMap_nil] at whole
            exact some_ whole.symm
          have nonempty : nextLevel next (groupLevel level) ≠ [] := by
            rw [← List.length_pos_iff, length_nextLevel]
            omega
          refine (ih _ (by rw [length_nextLevel]; omega) wrote.okay up nonempty (by omega) hcount
            limit' seps' rfl).mono ?_ ?_
          · rintro r u ⟨wrote', hnext, few, hcount', limit'', above, h', hcovers⟩
            rw [length_nextLevel] at few
            refine ⟨wrote.trans (wrote'.mono fun _ _ => IndexAt.mono (by omega)), by omega, by omega,
              hcount', limit'', fun id low high => ?_, h', ?_⟩
            · by_cases here : id < next + (groupLevel level).length
              · have inside : id - next < (groupLevel level).length := by omega
                have node := hnodes (id - next) _ (List.getElem?_eq_getElem inside)
                rw [Nat.add_sub_cancel' low] at node
                obtain same | later := wrote'.writes.page id
                · exact ⟨_, _, by rw [same]; exact node⟩
                · exact absurd later.1 (by omega)
              · exact above id (by omega) high
            · rwa [List.flatten_flatten]
          · intro _ u stopped
            refine wrote.stopped (stopped.mono (fun _ _ => IndexAt.mono (by omega)) ?_)
            rw [length_nextLevel]
            omega
        · intro _ t stopped
          exact stopped.mono (fun _ _ => id) (by omega)

end Write
end Minigraf
