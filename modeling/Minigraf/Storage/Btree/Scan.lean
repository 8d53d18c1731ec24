import Minigraf.Storage.Btree.Tree

/-!
Reading the on-disk B+tree of `src/storage/btree_v6.rs`: the descent to a leaf, the
walk along the leaves, and range scans.

The source descends and walks in loops without a bound. Reading changes no page, so a
loop that has read more pages than there are comes back to one it has seen and never
ends: `walkBound` counts the pages, and a loop that uses it up is endless.
-/

namespace Minigraf

open Bytes EStateM

section Reading

variable {H C : Type} (crc : Crc H C)

def walkBound : Io C Nat := do
  let s ← get
  pure (s.header.pageCount + s.cache.entries.length + 1)

/-- The loop of `find_leftmost_leaf`. -/
def leftmostLeaf : Nat → Nat → Io C Nat
  | 0, _ => throw .endless
  | bound + 1, id => do
      let page ← getOrLoad crc id
      if page.type = PAGE_TYPE_LEAF then pure id
      else if page.type = PAGE_TYPE_INTERNAL then do
        let keyCount ← ofResult (readU16At page 2)
        let child ← ofResult (readU64At page (if keyCount = 0 then 4 else INTERNAL_HEADER_SIZE))
        leftmostLeaf bound child
      else throw .int049

def findLeftmostLeaf (root : Nat) : Io C Nat := do
  let bound ← walkBound
  leftmostLeaf crc bound root

/-- The loop of `collect_leaf_pages`, with room for so many more leaves. -/
def collectLeaves : Nat → Nat → Io C (List Page)
  | 0, id => do
      let _ ← getOrLoad crc id
      throw .int049
  | room + 1, id => do
      let page ← getOrLoad crc id
      if page.type ≠ PAGE_TYPE_LEAF then throw .int049
      else do
        let _ ← ofResult (validateLeafSlots page)
        let nextLeaf ← ofResult (readU64At page 4)
        if nextLeaf = 0 then pure [page]
        else do
          let rest ← collectLeaves room nextLeaf
          pure (page :: rest)

def collectLeafPages (root : Nat) : Io C (List Page) := do
  let s ← get
  let leaf ← findLeftmostLeaf crc root
  collectLeaves crc s.header.pageCount leaf

section Keys

variable {K : Type} (codec : IndexCodec K)

/-- The loop of `stream_all_entries`. -/
def streamLeaves : Nat → Nat → Io C (List (K × FactRef))
  | 0, _ => throw .endless
  | bound + 1, id => do
      let page ← getOrLoad crc id
      if page.type ≠ PAGE_TYPE_LEAF then throw .int049
      else do
        let nextLeaf ← ofResult (readU64At page 4)
        let entries ← ofResult (readLeafEntries codec page)
        if nextLeaf = 0 then pure entries
        else do
          let rest ← streamLeaves bound nextLeaf
          pure (entries ++ rest)

def streamAllEntries (root : Nat) : Io C (List (K × FactRef)) := do
  let leaf ← findLeftmostLeaf crc root
  let bound ← walkBound
  streamLeaves crc codec bound leaf

variable [LinearOrder K]

/-- The child of an internal page a key belongs to: the one left of the first separator
above the key. -/
def childFor (page : Page) (key : K) (slotDirStart : Nat) :
    List Nat → Except ErrorCode (Option Nat)
  | [] => pure none
  | i :: later => do
      let bytes ← readSlotBytes page (slotDirStart + i * SLOT_SIZE)
      let sep ← decodeOr codec.key bytes
      if key < sep then do
        let child ← readU64At page (INTERNAL_HEADER_SIZE + i * 8)
        pure (some child)
      else childFor page key slotDirStart later

/-- The loop of `find_leaf_for_key`. -/
def leafForKey (key : K) : Nat → Nat → Io C Nat
  | 0, _ => throw .endless
  | bound + 1, id => do
      let page ← getOrLoad crc id
      if page.type = PAGE_TYPE_LEAF then pure id
      else if page.type = PAGE_TYPE_INTERNAL then do
        let keyCount ← ofResult (readU16At page 2)
        let rightmost ← ofResult (readU64At page 4)
        let child ← ofResult (childFor codec page key (INTERNAL_HEADER_SIZE + keyCount * 8)
          (List.range keyCount))
        leafForKey key bound (child.getD rightmost)
      else throw .int049

/-- The references of a leaf's entries from `start` on and below `stop`, and whether an
entry at `stop` or above ended the scan. -/
def scanEntries (start : K) (stop : Option K) : List (K × FactRef) → List FactRef × Bool
  | [] => ([], false)
  | (key, factRef) :: later =>
      if key < start then scanEntries start stop later
      else if stop.any (fun e => decide (e ≤ key)) then ([], true)
      else
        let (refs, ended) := scanEntries start stop later
        (factRef :: refs, ended)

/-- The loop of `range_scan`. -/
def scanLeaves (start : K) (stop : Option K) : Nat → Nat → Io C (List FactRef)
  | 0, _ => throw .endless
  | bound + 1, id => do
      let page ← getOrLoad crc id
      if page.type ≠ PAGE_TYPE_LEAF then throw .stg013
      else do
        let nextLeaf ← ofResult (readU64At page 4)
        let entries ← ofResult (readLeafEntries codec page)
        let scanned := scanEntries start stop entries
        if scanned.2 then pure scanned.1
        else if nextLeaf = 0 then pure scanned.1
        else do
          let rest ← scanLeaves start stop bound nextLeaf
          pure (scanned.1 ++ rest)

def rangeScan (root : Nat) (start : K) (stop : Option K) : Io C (List FactRef) := do
  let bound ← walkBound
  let leaf ← leafForKey crc codec start bound root
  let bound ← walkBound
  scanLeaves crc codec start stop bound leaf

end Keys
end Reading

/-! ## Reading changes nothing but the cache -/

section Reads

variable {H C : Type} (crc : Crc H C)

/-- The cache may have moved. -/
def Reads (s t : Dev C) : Prop := ∃ cache, t = { s with cache := cache } ∧ t.Ok

theorem Reads.refl {s : Dev C} (h : s.Ok) : Reads s s := ⟨s.cache, rfl, h⟩

theorem Reads.trans {s t u : Dev C} (h : Reads s t) (h' : Reads t u) : Reads s u := by
  obtain ⟨_, rfl, _⟩ := h
  obtain ⟨cache, rfl, okay⟩ := h'
  exact ⟨cache, rfl, okay⟩

theorem Reads.okay {s t : Dev C} (h : Reads s t) : t.Ok := by
  obtain ⟨_, _, okay⟩ := h
  exact okay

theorem Reads.disk {s t : Dev C} (h : Reads s t) : t.disk = s.disk := by
  obtain ⟨_, rfl, _⟩ := h
  rfl

theorem Reads.header {s t : Dev C} (h : Reads s t) : t.header = s.header := by
  obtain ⟨_, rfl, _⟩ := h
  rfl

theorem wp_load {s : Dev C} (h : s.Ok) {id : Nat} (data : id ≠ 0) (counted : id < s.header.pageCount)
    (near : id < PAGE_LIMIT) :
    Wp (getOrLoad crc id) s (fun p t => p = s.disk.page id ∧ Reads s t) (fun _ _ => False) := by
  refine (wp_getOrLoad crc h data).mono ?_ ?_
  · rintro p t ⟨hp, cache, ht, hok⟩
    exact ⟨hp, cache, ht, hok⟩
  · rintro _ t ⟨-, beyond | far⟩
    · omega
    · rw [far_iff] at far
      omega

end Reads

/-! ## Descents -/

section Descents

variable {H C : Type} (crc : Crc H C) {lo : Nat} (data : lo ≠ 0)

theorem InternalPage.readCount {page : Page} {childIds : List Nat} {seps : List (List UInt8)}
    (h : InternalPage page childIds seps) : readU16At page 2 = .ok seps.length := by
  rw [readU16At, h.count]
  rfl

theorem InternalPage.readRightmost {page : Page} {childIds : List Nat} {seps : List (List UInt8)}
    (h : InternalPage page childIds seps) {id : Nat} (last : childIds.getLast? = some id) :
    readU64At page 4 = .ok id := by
  rw [readU64At, h.rightmost id last]
  rfl

theorem InternalPage.readChild {page : Page} {childIds : List Nat} {seps : List (List UInt8)}
    (h : InternalPage page childIds seps) {i id : Nat} (inner : i < seps.length)
    (hid : childIds[i]? = some id) : readU64At page (INTERNAL_HEADER_SIZE + 8 * i) = .ok id := by
  have arity := h.arity
  rw [readU64At, h.child i id (by rw [List.getElem?_dropLast, if_pos (by omega), hid])]
  rfl

theorem InternalPage.readFirst {page : Page} {first : Nat} {others : List Nat}
    {seps : List (List UInt8)} (h : InternalPage page (first :: others) seps) :
    readU64At page (if seps.length = 0 then 4 else INTERNAL_HEADER_SIZE) = .ok first := by
  have arity := h.arity
  rw [List.length_cons] at arity
  split
  · rename_i none_
    have alone : others = [] := List.length_eq_zero_iff.mp (by omega)
    exact h.readRightmost (by rw [alone]; rfl)
  · exact h.readChild (by omega : 0 < seps.length) rfl

include data in
theorem wp_leftmostLeaf {s : Dev C} (h : s.Ok) {hi height id bound : Nat} {leaves : List NodeInfo}
    (hc : Covers s.disk.page lo hi height id leaves)
    (leaf : ∀ info ∈ leaves, (s.disk.page info.1).type = PAGE_TYPE_LEAF)
    (counted : hi ≤ s.header.pageCount) (limit : hi ≤ PAGE_LIMIT) (enough : height < bound) :
    Wp (leftmostLeaf crc bound id) s
      (fun r t => leaves.head?.map Prod.fst = some r ∧ Reads s t) (fun _ _ => False) := by
  induction height generalizing s hi id bound leaves with
  | zero =>
      obtain ⟨bound, rfl⟩ := Nat.exists_eq_add_of_lt enough
      obtain ⟨hlo, hhi, key, rfl⟩ := hc
      rw [leftmostLeaf, wp_bind]
      refine (wp_load crc h (by omega) (by omega) (by omega)).post ?_
      rintro p t ⟨rfl, reads⟩
      rw [if_pos (leaf _ List.mem_cons_self), wp_pure]
      exact ⟨rfl, reads⟩
  | succ height ih =>
      obtain ⟨bound, rfl⟩ : ∃ b, bound = b + 1 := ⟨bound - 1, by omega⟩
      obtain ⟨hlo, hhi, children, rfl, hpage, hchildren⟩ := hc
      have arity := hpage.arity
      rw [List.length_map] at arity
      obtain ⟨first, rest, rfl⟩ := List.exists_cons_of_length_pos (by omega : 0 < children.length)
      obtain ⟨some_, hfirst⟩ := hchildren first List.mem_cons_self
      rw [leftmostLeaf, wp_bind]
      refine (wp_load crc h (by omega) (by omega) (by omega)).post ?_
      rintro p t ⟨rfl, reads⟩
      rw [if_neg (by rw [hpage.type]; decide), if_pos hpage.type, wp_bind, hpage.readCount, ofResult,
        wp_pure, wp_bind]
      rw [List.map_cons] at hpage
      rw [hpage.readFirst, ofResult, wp_pure]
      have same := reads.disk
      have step := @ih t reads.okay id first.1 bound first.2 (by rw [same]; exact hfirst)
        (by
          intro info hinfo
          rw [same]
          exact leaf info (by rw [List.flatMap_cons]; exact List.mem_append_left _ hinfo))
        (by rw [reads.header]; omega) (by omega) (by omega)
      refine step.post ?_
      rintro r u ⟨hr, reads'⟩
      refine ⟨?_, reads.trans reads'⟩
      rw [List.flatMap_cons, List.head?_append_of_ne_nil _ some_]
      exact hr

variable {K : Type} (codec : IndexCodec K)

/-- Leaves whose first keys can be decoded. -/
def Keyed (leaves : List NodeInfo) : Prop := ∀ info ∈ leaves, ∃ k, info.2 = codec.key.encode k

theorem Keyed.seps {children : List (Nat × List NodeInfo)}
    (keyed : Keyed codec (children.flatMap Prod.snd)) (some_ : ∀ c ∈ children, c.2 ≠ []) :
    ∃ keys : List K, children.map (fun c => firstSep c.2) = keys.map codec.key.encode := by
  induction children with
  | nil => exact ⟨[], rfl⟩
  | cons c children ih =>
      obtain ⟨keys, hkeys⟩ := ih
        (fun info hinfo => keyed info (by rw [List.flatMap_cons]; exact List.mem_append_right _ hinfo))
        fun c' hc' => some_ c' (List.mem_cons_of_mem _ hc')
      obtain ⟨info, leaves, hinfo⟩ := List.exists_cons_of_ne_nil (some_ c List.mem_cons_self)
      obtain ⟨k, hk⟩ := keyed info (by simp [hinfo])
      refine ⟨k :: keys, ?_⟩
      rw [List.map_cons, hkeys, hinfo, List.map_cons, ← hk]
      rfl

variable [LinearOrder K]

/-- The child a key is sent to: nothing left of it can hold larger keys. -/
theorem InternalPage.childFor_spec {page : Page} {childIds : List Nat} {keys : List K}
    (h : InternalPage page childIds (keys.map codec.key.encode)) {rightmost : Nat}
    (last : childIds.getLast? = some rightmost) (key : K) {i n : Nat} (whole : i + n = keys.length)
    (passed : i = 0 ∨ ∃ m k, i = m + 1 ∧ keys[m]? = some k ∧ k ≤ key) :
    ∃ r j id, childFor codec page key (INTERNAL_HEADER_SIZE + keys.length * 8) (List.range' i n) =
        .ok r ∧ r.getD rightmost = id ∧ childIds[j]? = some id ∧
      (j = 0 ∨ ∃ m k, j = m + 1 ∧ keys[m]? = some k ∧ k ≤ key) := by
  have arity := h.arity
  rw [List.length_map] at arity
  induction n generalizing i with
  | zero =>
      refine ⟨none, i, rightmost, rfl, rfl, ?_, passed⟩
      rw [List.getLast?_eq_getElem?] at last
      rwa [show i = childIds.length - 1 by omega]
  | succ n ih =>
      have inside : i < keys.length := by omega
      have sep : keys[i]? = some keys[i] := List.getElem?_eq_getElem inside
      have stored := h.stored i (codec.key.encode keys[i]) (by
        rw [List.getElem?_map, sep]
        rfl)
      rw [List.length_map] at stored
      have child : childIds[i]? = some childIds[i] := List.getElem?_eq_getElem (by omega)
      have hread := h.readChild (by rw [List.length_map]; exact inside) child
      simp only [List.range'_succ, childFor, SLOT_SIZE, Nat.mul_comm i 4, Nat.mul_comm i 8,
        readSlotBytes_stored stored, decodeOr, codec.key.decode_encode, orError, Option.elim_some,
        bind, Except.bind]
      split
      · rw [hread]
        exact ⟨some childIds[i], i, childIds[i], rfl, rfl, child, passed⟩
      · rename_i above
        exact ih (by omega) (.inr ⟨i, keys[i], rfl, sep, not_lt.mp above⟩)

/-- The first key of a leaf is not above `key`. -/
def AtMost (key : K) (info : NodeInfo) : Prop := ∃ k, info.2 = codec.key.encode k ∧ k ≤ key

include data in
theorem wp_leafForKey {s : Dev C} (h : s.Ok) {hi height id bound : Nat} {leaves : List NodeInfo}
    (hc : Covers s.disk.page lo hi height id leaves) (keyed : Keyed codec leaves)
    (leaf : ∀ info ∈ leaves, (s.disk.page info.1).type = PAGE_TYPE_LEAF)
    (counted : hi ≤ s.header.pageCount) (limit : hi ≤ PAGE_LIMIT) (enough : height < bound)
    (key : K) :
    Wp (leafForKey crc codec key bound id) s
      (fun r t => Reads s t ∧ ∃ before hit after, leaves = before ++ hit :: after ∧ hit.1 = r ∧
        (before = [] ∨ AtMost codec key hit)) (fun _ _ => False) := by
  induction height generalizing s hi id bound leaves with
  | zero =>
      obtain ⟨bound, rfl⟩ := Nat.exists_eq_add_of_lt enough
      obtain ⟨hlo, hhi, bytes, rfl⟩ := hc
      rw [leafForKey, wp_bind]
      refine (wp_load crc h (by omega) (by omega) (by omega)).post ?_
      rintro p t ⟨rfl, reads⟩
      rw [if_pos (leaf _ List.mem_cons_self), wp_pure]
      exact ⟨reads, [], _, [], rfl, rfl, .inl rfl⟩
  | succ height ih =>
      obtain ⟨bound, rfl⟩ : ∃ b, bound = b + 1 := ⟨bound - 1, by omega⟩
      obtain ⟨hlo, hhi, children, rfl, hpage, hchildren⟩ := hc
      have arity := hpage.arity
      rw [List.length_map] at arity
      obtain ⟨first, rest, rfl⟩ := List.exists_cons_of_length_pos (by omega : 0 < children.length)
      obtain ⟨keys, hkeys⟩ := Keyed.seps codec
        (fun info hinfo => keyed info (by rw [List.flatMap_cons]; exact List.mem_append_right _ hinfo))
        fun c hc => (hchildren c (List.mem_cons_of_mem first hc)).1
      rw [List.tail_cons, hkeys] at hpage
      have width : keys.length = rest.length := by
        have := congrArg List.length hkeys
        simpa using this.symm
      have last : ((first :: rest).map Prod.fst).getLast? =
          some (((first :: rest).map Prod.fst).getLast (by simp)) :=
        List.getLast?_eq_some_getLast _
      rw [leafForKey, wp_bind]
      refine (wp_load crc h (by omega) (by omega) (by omega)).post ?_
      rintro p t ⟨rfl, reads⟩
      rw [if_neg (by rw [hpage.type]; decide), if_pos hpage.type, wp_bind, hpage.readCount, ofResult,
        wp_pure, wp_bind, hpage.readRightmost last, ofResult, wp_pure, wp_bind, List.length_map,
        List.range_eq_range']
      obtain ⟨r, j, child, hfor, hchild, hj, passed⟩ :=
        hpage.childFor_spec codec last key (Nat.zero_add keys.length) (.inl rfl)
      rw [hfor, ofResult, wp_pure, hchild]
      rw [List.getElem?_map] at hj
      obtain ⟨c, hc, rfl⟩ := Option.map_eq_some_iff.mp hj
      have inside := (List.getElem?_eq_some_iff.mp hc).1
      have mem : c ∈ first :: rest := List.mem_of_getElem? hc
      have split : first :: rest = (first :: rest).take j ++ c :: (first :: rest).drop (j + 1) := by
        rw [← (List.getElem?_eq_some_iff.mp hc).2, List.getElem_cons_drop,
          List.take_append_drop]
      have leavesOf : (first :: rest).flatMap Prod.snd =
          ((first :: rest).take j).flatMap Prod.snd ++
            (c.2 ++ ((first :: rest).drop (j + 1)).flatMap Prod.snd) := by
        conv => lhs; rw [split]
        rw [List.flatMap_append, List.flatMap_cons]
      have same := reads.disk
      obtain ⟨some_, hcovers⟩ := hchildren c mem
      have inC : ∀ info ∈ c.2, info ∈ (first :: rest).flatMap Prod.snd := fun info hinfo =>
        List.mem_flatMap.mpr ⟨c, mem, hinfo⟩
      have step := @ih t reads.okay id c.1 bound c.2 (by rw [same]; exact hcovers)
        (fun info hinfo => keyed info (inC info hinfo))
        (fun info hinfo => by rw [same]; exact leaf info (inC info hinfo))
        (by rw [reads.header]; omega) (by omega) (by omega)
      refine step.post ?_
      rintro r u ⟨reads', before, hit, after, hsplit, rfl, hbefore⟩
      refine ⟨reads.trans reads', ((first :: rest).take j).flatMap Prod.snd ++ before, hit,
        after ++ ((first :: rest).drop (j + 1)).flatMap Prod.snd, ?_, rfl, ?_⟩
      · rw [leavesOf, hsplit]
        simp only [List.append_assoc, List.cons_append]
      · obtain rfl | atMost := hbefore
        · -- The hit is the first leaf of the child, so the separator speaks of it.
          obtain rfl | ⟨m, k, rfl, hk, le⟩ := passed
          · exact .inl (by simp)
          · refine .inr ⟨k, ?_, le⟩
            have sep := congrArg (·[m]?) hkeys
            rw [List.getElem?_cons_succ] at hc
            simp only [List.getElem?_map, hc, hk, Option.map_some, Option.some.injEq] at sep
            rw [← sep, hsplit]
            rfl
        · exact .inr atMost

end Descents

/-! ## Walks along the leaves -/

section Walks

variable {K : Type} {codec : IndexCodec K} {H C : Type} (crc : Crc H C) {start : Nat}

variable {s : Dev C} (h : s.Ok) (data : start ≠ 0) {leaves : List (List (K × FactRef))}
  (chain : Chain codec s.disk.page start leaves)
  (counted : start + leaves.length ≤ s.header.pageCount)
  (limit : start + leaves.length ≤ PAGE_LIMIT)

include h data chain counted limit

/-- A leaf of the chain is read as it is, and leads to the next one. -/
theorem Chain.wp_leaf {i : Nat} (inside : i < leaves.length) :
    Wp (getOrLoad crc (start + i)) s
      (fun p t => Reads s t ∧ ∃ entries, leaves.drop i = entries :: leaves.drop (i + 1) ∧
        LeafOf codec p entries (if i + 1 = leaves.length then 0 else start + i + 1))
      (fun _ _ => False) := by
  refine (wp_load crc h (by omega) (by omega) (by omega)).post ?_
  rintro p t ⟨rfl, reads⟩
  have here : leaves[i]? = some leaves[i] := List.getElem?_eq_getElem inside
  exact ⟨reads, leaves[i], List.drop_eq_getElem_cons inside, chain i leaves[i] here⟩

theorem Chain.wp_collectLeaves {i room : Nat} (inside : i < leaves.length)
    (enough : leaves.length ≤ i + room) :
    Wp (collectLeaves crc room (start + i)) s
      (fun pages t => Reads s t ∧ List.Forall₂
        (fun page entries => ∃ link, LeafOf codec page entries link) pages (leaves.drop i))
      (fun _ _ => False) := by
  induction room generalizing s i with
  | zero => omega
  | succ room ih =>
      rw [collectLeaves, wp_bind]
      refine (Chain.wp_leaf crc h data chain counted limit inside).post ?_
      rintro p t ⟨reads, entries, hdrop, hleaf⟩
      rw [if_neg (by simp [hleaf.type]), wp_bind, hleaf.slots, ofResult, wp_pure, wp_bind,
        hleaf.next, ofResult, wp_pure, hdrop]
      by_cases last : i + 1 = leaves.length
      · rw [if_pos last, if_pos rfl, wp_pure, List.drop_of_length_le (by omega)]
        exact ⟨reads, .cons ⟨_, hleaf⟩ .nil⟩
      · rw [if_neg last, if_neg (by omega), wp_bind]
        refine (@ih t reads.okay (by rw [reads.disk]; exact chain) (by rw [reads.header]; exact counted)
          (i + 1) (by omega) (by omega)).post ?_
        rintro pages u ⟨reads', hpages⟩
        rw [wp_pure]
        exact ⟨reads.trans reads', .cons ⟨_, hleaf⟩ hpages⟩

theorem Chain.wp_streamLeaves {i bound : Nat} (inside : i < leaves.length)
    (enough : leaves.length ≤ i + bound) :
    Wp (streamLeaves crc codec bound (start + i)) s
      (fun entries t => Reads s t ∧ entries = (leaves.drop i).flatten) (fun _ _ => False) := by
  induction bound generalizing s i with
  | zero => omega
  | succ bound ih =>
      rw [streamLeaves, wp_bind]
      refine (Chain.wp_leaf crc h data chain counted limit inside).post ?_
      rintro p t ⟨reads, entries, hdrop, hleaf⟩
      rw [if_neg (by simp [hleaf.type]), wp_bind, hleaf.next, ofResult, wp_pure, wp_bind,
        hleaf.entries, ofResult, wp_pure, hdrop]
      by_cases last : i + 1 = leaves.length
      · rw [if_pos last, if_pos rfl, wp_pure, List.drop_of_length_le (by omega)]
        exact ⟨reads, by simp⟩
      · rw [if_neg last, if_neg (by omega), wp_bind]
        refine (@ih t reads.okay (by rw [reads.disk]; exact chain) (by rw [reads.header]; exact counted)
          (i + 1) (by omega) (by omega)).post ?_
        rintro rest u ⟨reads', rfl⟩
        rw [wp_pure]
        exact ⟨reads.trans reads', by rw [List.flatten_cons]⟩

end Walks

/-! ## Range scans -/

section Ranges

variable {K : Type} [LinearOrder K]

/-- Whether a key is scanned. -/
def inRange (start : K) (stop : Option K) (key : K) : Bool :=
  decide (start ≤ key) && !stop.any fun e => decide (e ≤ key)

theorem scanEntries_append (start : K) (stop : Option K) (a b : List (K × FactRef)) :
    (scanEntries start stop (a ++ b)).1 = if (scanEntries start stop a).2
      then (scanEntries start stop a).1
      else (scanEntries start stop a).1 ++ (scanEntries start stop b).1 := by
  induction a with
  | nil => rfl
  | cons e a ih =>
      obtain ⟨key, factRef⟩ := e
      simp only [List.cons_append, scanEntries]
      split
      · exact ih
      · split
        · rfl
        · simp only [ih]
          split <;> rfl

/-- Over sorted entries the scan is a filter. -/
theorem scanEntries_sorted (start : K) (stop : Option K) {entries : List (K × FactRef)}
    (sorted : entries.Pairwise fun a b => a.1 ≤ b.1) :
    (scanEntries start stop entries).1 =
      (entries.filter fun e => inRange start stop e.1).map Prod.snd := by
  induction entries with
  | nil => rfl
  | cons e entries ih =>
      obtain ⟨key, factRef⟩ := e
      obtain ⟨above, sorted⟩ := List.pairwise_cons.mp sorted
      have later := ih sorted
      rw [scanEntries]
      split
      · rename_i below
        rw [List.filter_cons_of_neg (by simp [inRange, below]), later]
      · rename_i reached
        split
        · rename_i ended
          rw [List.filter_eq_nil_iff.mpr, List.map_nil]
          intro e he
          have le : key ≤ e.1 := by
            obtain rfl | he := List.mem_cons.mp he
            · exact le_rfl
            · exact above e he
          cases stop with
          | none => cases ended
          | some last =>
              have : last ≤ key := by simpa using ended
              simp [inRange, this.trans le]
        · rename_i open_
          rw [List.filter_cons_of_pos (by simpa [inRange, not_lt.mp reached] using open_),
            List.map_cons, ← later]

end Ranges

section Trees

variable {K : Type} {codec : IndexCodec K} {H C : Type} (crc : Crc H C) {start stop root : Nat}
  {leaves : List (List (K × FactRef))} {s : Dev C}

theorem Chain.wp_scanLeaves [LinearOrder K] (h : s.Ok) (data : start ≠ 0)
    (chain : Chain codec s.disk.page start leaves)
    (counted : start + leaves.length ≤ s.header.pageCount)
    (limit : start + leaves.length ≤ PAGE_LIMIT) (from_ : K) (until_ : Option K) {i bound : Nat}
    (inside : i < leaves.length) (enough : leaves.length ≤ i + bound) :
    Wp (scanLeaves crc codec from_ until_ bound (start + i)) s
      (fun refs t => Reads s t ∧ refs = (scanEntries from_ until_ (leaves.drop i).flatten).1)
      (fun _ _ => False) := by
  induction bound generalizing s i with
  | zero => omega
  | succ bound ih =>
      rw [scanLeaves, wp_bind]
      refine (Chain.wp_leaf crc h data chain counted limit inside).post ?_
      rintro p t ⟨reads, entries, hdrop, hleaf⟩
      rw [if_neg (by simp [hleaf.type]), wp_bind, hleaf.next, ofResult, wp_pure, wp_bind,
        hleaf.entries, ofResult, wp_pure, hdrop, List.flatten_cons,
        scanEntries_append]
      refine wp_ite (fun ended => ?_) fun open_ => ?_
      · rw [wp_pure, if_pos ended]
        exact ⟨reads, rfl⟩
      rw [if_neg open_]
      by_cases last : i + 1 = leaves.length
      · rw [if_pos last, if_pos rfl, wp_pure, List.drop_of_length_le (by omega)]
        exact ⟨reads, by simp [scanEntries]⟩
      · rw [if_neg last, if_neg (by omega), wp_bind]
        refine (@ih t reads.okay (by rw [reads.disk]; exact chain) (by rw [reads.header]; exact counted)
          (i + 1) (by omega) (by omega)).post ?_
        rintro rest u ⟨reads', rfl⟩
        rw [wp_pure]
        exact ⟨reads.trans reads', rfl⟩

theorem getElem?_infosFrom (codec : IndexCodec K) (start : Nat) (leaves : List (List (K × FactRef)))
    (i : Nat) : (infosFrom codec start leaves)[i]? =
      leaves[i]?.map fun entries => (start + i, firstKeyBytes codec entries) := by
  induction leaves generalizing start i with
  | nil => rfl
  | cons entries leaves ih =>
      cases i with
      | zero => rfl
      | succ i =>
          rw [infosFrom, List.getElem?_cons_succ, List.getElem?_cons_succ, ih,
            show start + 1 + i = start + (i + 1) by omega]

variable [LinearOrder K] (h : s.Ok) (data : start ≠ 0)
  (tree : Tree codec s.disk.page start stop root leaves) (counted : stop ≤ s.header.pageCount)
  (limit : stop ≤ PAGE_LIMIT)

include tree in
theorem Tree.leaves_ne_nil : leaves ≠ [] := by
  obtain ⟨rfl, _⟩ | ⟨some_, _⟩ := tree.full
  · simp
  · exact some_

include tree in
theorem Tree.leafType (info : NodeInfo) (hinfo : info ∈ infosFrom codec start leaves) :
    (s.disk.page info.1).type = PAGE_TYPE_LEAF := by
  obtain ⟨i, hi⟩ := List.getElem?_of_mem hinfo
  rw [getElem?_infosFrom] at hi
  obtain ⟨entries, hentries, rfl⟩ := Option.map_eq_some_iff.mp hi
  exact (tree.chain i entries hentries).type

include h data tree counted limit

theorem Tree.wp_findLeftmostLeaf :
    Wp (findLeftmostLeaf crc root) s (fun r t => r = start ∧ Reads s t) (fun _ _ => False) := by
  obtain ⟨height, hcovers⟩ := tree.covers
  have tall := hcovers.height
  have bounds := hcovers.bounds
  rw [findLeftmostLeaf, wp_bind, walkBound, wp_bind, wp_get, wp_pure]
  refine (wp_leftmostLeaf crc data h hcovers tree.leafType counted limit (by omega)).post ?_
  rintro r t ⟨hr, reads⟩
  obtain ⟨first, rest, hleaves⟩ := List.exists_cons_of_ne_nil tree.leaves_ne_nil
  rw [hleaves] at hr
  exact ⟨(Option.some.inj hr).symm, reads⟩

theorem Tree.wp_collectLeafPages :
    Wp (collectLeafPages crc root) s
      (fun pages t => Reads s t ∧ List.Forall₂
        (fun page entries => ∃ link, LeafOf codec page entries link) pages leaves)
      (fun _ _ => False) := by
  have bound := tree.bound
  have pos := List.length_pos_iff.mpr tree.leaves_ne_nil
  rw [collectLeafPages, wp_bind, wp_get, wp_bind]
  refine (tree.wp_findLeftmostLeaf crc h data counted limit).post ?_
  rintro r t ⟨rfl, reads⟩
  refine (@Chain.wp_collectLeaves K codec H C crc r t reads.okay data leaves
    (by rw [reads.disk]; exact tree.chain) (by rw [reads.header]; omega) (by omega) 0
    s.header.pageCount pos (by omega)).post ?_
  rintro pages u ⟨reads', hpages⟩
  exact ⟨reads.trans reads', hpages⟩

theorem Tree.wp_streamAllEntries :
    Wp (streamAllEntries crc codec root) s
      (fun entries t => Reads s t ∧ entries = leaves.flatten) (fun _ _ => False) := by
  have bound := tree.bound
  have pos := List.length_pos_iff.mpr tree.leaves_ne_nil
  rw [streamAllEntries, wp_bind]
  refine (tree.wp_findLeftmostLeaf crc h data counted limit).post ?_
  rintro r t ⟨rfl, reads⟩
  rw [wp_bind, walkBound, wp_bind, wp_get, wp_pure]
  refine (@Chain.wp_streamLeaves K codec H C crc r t reads.okay data leaves
    (by rw [reads.disk]; exact tree.chain) (by rw [reads.header]; omega) (by omega) 0
    (t.header.pageCount + t.cache.entries.length + 1) pos (by rw [reads.header]; omega)).post ?_
  rintro entries u ⟨reads', rfl⟩
  exact ⟨reads.trans reads', rfl⟩

/-- The descent ends at a leaf with nothing to scan before it, when no two entries share a
key or none has the key looked for. -/
theorem Tree.wp_leafForKey {key : K}
    (clear : (leaves.flatten.Pairwise fun a b => a.1 < b.1) ∨ ∀ e ∈ leaves.flatten, e.1 ≠ key)
    {bound : Nat} (enough : root < bound) :
    Wp (leafForKey crc codec key bound root) s
      (fun r t => Reads s t ∧ ∃ i, i < leaves.length ∧ r = start + i ∧
        ∀ e ∈ (leaves.take i).flatten, e.1 < key) (fun _ _ => False) := by
  obtain ⟨height, hcovers⟩ := tree.covers
  have tall := hcovers.height
  have bounds := hcovers.bounds
  obtain ⟨rfl, rfl⟩ | ⟨some_, full⟩ := tree.full
  · obtain ⟨bound, rfl⟩ : ∃ b, bound = b + 1 := ⟨bound - 1, by omega⟩
    rw [leafForKey, wp_bind]
    refine (wp_load crc h data (by omega) (by omega)).post ?_
    rintro p t ⟨rfl, reads⟩
    rw [if_pos (tree.leafType (root, []) List.mem_cons_self), wp_pure]
    exact ⟨reads, 0, by simp, rfl, by simp⟩
  have keyed : Keyed codec (infosFrom codec start leaves) := by
    intro info hinfo
    obtain ⟨i, hi⟩ := List.getElem?_of_mem hinfo
    rw [getElem?_infosFrom] at hi
    obtain ⟨entries, hentries, rfl⟩ := Option.map_eq_some_iff.mp hi
    obtain ⟨e, rest, rfl⟩ := List.exists_cons_of_ne_nil (full _ (List.mem_of_getElem? hentries))
    exact ⟨e.1, rfl⟩
  refine (Minigraf.wp_leafForKey crc data codec h hcovers keyed tree.leafType counted limit (by omega)
    key).post ?_
  rintro r t ⟨reads, before, hit, after, hsplit, rfl, passed⟩
  have here : (infosFrom codec start leaves)[before.length]? = some hit := by
    rw [hsplit, List.getElem?_append_right le_rfl, Nat.sub_self]
    rfl
  rw [getElem?_infosFrom] at here
  obtain ⟨entries, hentries, rfl⟩ := Option.map_eq_some_iff.mp here
  have inside := (List.getElem?_eq_some_iff.mp hentries).1
  refine ⟨reads, before.length, inside, rfl, ?_⟩
  obtain rfl | ⟨k, hk, le⟩ := passed
  · simp
  intro e he
  obtain ⟨first, rest, rfl⟩ := List.exists_cons_of_ne_nil (full _ (List.mem_of_getElem? hentries))
  have same : first.1 = k := codec.key.encode_injective hk
  have split : leaves.flatten = (leaves.take before.length).flatten ++
      (leaves.drop before.length).flatten := by
    rw [← List.flatten_append, List.take_append_drop]
  have mem : first ∈ (leaves.drop before.length).flatten := by
    rw [List.drop_eq_getElem_cons inside, (List.getElem?_eq_some_iff.mp hentries).2]
    simp
  rcases clear with distinct | apart
  · rw [split, List.pairwise_append] at distinct
    exact (distinct.2.2 e he first mem).trans_le (same.trans_le le)
  · have sorted := tree.sorted
    rw [split, List.pairwise_append] at sorted
    refine lt_of_le_of_ne ((sorted.2.2 e he first mem).trans (same.trans_le le)) (apart e ?_)
    rw [split]
    exact List.mem_append_left _ he

/-- A range scan finds the entries of the range, when no two entries share a key or none
has the key it starts from. -/
theorem Tree.wp_rangeScan {from_ : K}
    (clear : (leaves.flatten.Pairwise fun a b => a.1 < b.1) ∨ ∀ e ∈ leaves.flatten, e.1 ≠ from_)
    (until_ : Option K) :
    Wp (rangeScan crc codec root from_ until_) s
      (fun refs t => Reads s t ∧ refs =
        (leaves.flatten.filter fun e => inRange from_ until_ e.1).map Prod.snd)
      (fun _ _ => False) := by
  have bound := tree.bound
  obtain ⟨height, hcovers⟩ := tree.covers
  have bounds := hcovers.bounds
  rw [rangeScan, wp_bind, walkBound, wp_bind, wp_get, wp_pure, wp_bind]
  refine (tree.wp_leafForKey crc h data counted limit clear (by omega)).post ?_
  rintro r t ⟨reads, i, inside, rfl, below⟩
  rw [wp_bind, wp_bind, wp_get, wp_pure]
  refine (@Chain.wp_scanLeaves K codec H C crc start leaves t _ reads.okay data
    (by rw [reads.disk]; exact tree.chain) (by rw [reads.header]; omega) (by omega) from_ until_ i
    (t.header.pageCount + t.cache.entries.length + 1) inside (by rw [reads.header]; omega)).post ?_
  rintro refs u ⟨reads', rfl⟩
  refine ⟨reads.trans reads', ?_⟩
  have split : leaves.flatten = (leaves.take i).flatten ++ (leaves.drop i).flatten := by
    rw [← List.flatten_append, List.take_append_drop]
  have sorted := tree.sorted
  rw [split] at sorted ⊢
  have early : (leaves.take i).flatten.filter (fun e => inRange from_ until_ e.1) = [] := by
    rw [List.filter_eq_nil_iff]
    intro e he
    simp [inRange, below e he]
  rw [scanEntries_sorted from_ until_ (List.pairwise_append.mp sorted).2.1, List.filter_append,
    early, List.nil_append]

end Trees
end Minigraf
