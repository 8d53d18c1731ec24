import Minigraf.Storage.PackedPages

/-!
Leaf and internal pages of the on-disk B+tree of `src/storage/btree_v6.rs`: how they
are encoded, how they are read, and that what is read is what was encoded while the
records leave room for the slots.
-/

namespace Minigraf

open Bytes EStateM

def PAGE_TYPE_LEAF : UInt8 := 0x21

def PAGE_TYPE_INTERNAL : UInt8 := 0x22

def LEAF_HEADER_SIZE : Nat := 12

def INTERNAL_HEADER_SIZE : Nat := 12

def SLOT_SIZE : Nat := 4

def PAGE_FILL_BYTES : Nat := PAGE_SIZE * 3 / 4

/-- The fixed header of a leaf or an internal page, on a page of zeros. -/
def nodeHeader (pageType : UInt8) (count link : Nat) : Page :=
  ⟨[pageType, 0] ++ leBytes 2 count ++ leBytes 8 link ++ List.replicate (PAGE_SIZE - 12) 0, by
    simp only [List.length_append, length_leBytes, List.length_replicate, List.length_cons,
      List.length_nil]
    rfl⟩

/-- An index or slice step that panics when it leaves the page. -/
def orPanic {α : Type} (a : Option α) : Except ErrorCode α := a.elim (.error .panicked) .ok

def orError {α : Type} (e : ErrorCode) (a : Option α) : Except ErrorCode α :=
  a.elim (.error e) .ok

def encodeLeafPage (entries : List (List UInt8)) (nextLeaf : Nat) : Except ErrorCode Page :=
  if entries.length > 65535 then throw .int049
  else orPanic ((nodeHeader PAGE_TYPE_LEAF entries.length nextLeaf).putRecords LEAF_HEADER_SIZE
    PAGE_SIZE entries)

/-- The child array from `off` on. -/
def putChildren (page : Page) (off : Nat) : List Nat → Option Page
  | [] => some page
  | child :: children => do
      let page ← page.write off (leBytes 8 child)
      putChildren page (off + 8) children

/-- The page `write_internal_page` makes. -/
def encodeInternalPage (childIds : List Nat) (sepBytes : List (List UInt8)) :
    Except ErrorCode Page :=
  match childIds.getLast? with
  | none => throw .stg011
  | some rightmost =>
      if sepBytes.length > 65535 then throw .int049
      else orPanic do
        let page ← putChildren (nodeHeader PAGE_TYPE_INTERNAL sepBytes.length rightmost)
          INTERNAL_HEADER_SIZE childIds.dropLast
        page.putRecords (INTERNAL_HEADER_SIZE + sepBytes.length * 8) PAGE_SIZE sepBytes

/-! ## Reading -/

def readU16At (page : Page) (off : Nat) : Except ErrorCode Nat :=
  orError .int049 (readNat page.val off 2)

def readU64At (page : Page) (off : Nat) : Except ErrorCode Nat :=
  orError .int049 (readNat page.val off 8)

/-- The bytes behind the slot at `slotOff`. -/
def readSlotBytes (page : Page) (slotOff : Nat) : Except ErrorCode (List UInt8) := do
  let offset ← readU16At page slotOff
  let length ← readU16At page (slotOff + 2)
  orError .int049 (readAt page.val offset length)

def decodeOr {α : Type} (codec : Codec α) (bytes : List UInt8) : Except ErrorCode α :=
  orError .postcard (codec.decode bytes)

/-- `validate_leaf_slots`: the slots stay inside the page and behind the directory. -/
def validateLeafSlots (page : Page) : Except ErrorCode Unit := do
  let count ← readU16At page 2
  let dataStart := LEAF_HEADER_SIZE + count * SLOT_SIZE
  if dataStart > PAGE_SIZE then throw .int049
  else
    (List.range count).forM fun i => do
      let offset ← readU16At page (LEAF_HEADER_SIZE + i * SLOT_SIZE)
      let length ← readU16At page (LEAF_HEADER_SIZE + i * SLOT_SIZE + 2)
      if offset < dataStart ∨ offset + length > PAGE_SIZE then throw .int049 else pure ()

section Decoding

variable {K : Type} (codec : IndexCodec K)

def readLeafEntries (page : Page) : Except ErrorCode (List (K × FactRef)) := do
  let count ← readU16At page 2
  (List.range count).mapM fun i => do
    let bytes ← readSlotBytes page (LEAF_HEADER_SIZE + i * SLOT_SIZE)
    decodeOr codec.entry bytes

def leafFirstKey (page : Page) : Except ErrorCode (Option K) := do
  let count ← readU16At page 2
  if count = 0 then pure none
  else do
    let bytes ← readSlotBytes page LEAF_HEADER_SIZE
    let entry ← decodeOr codec.entry bytes
    pure (some entry.1)

end Decoding

/-! ## Pages that hold a leaf or an internal node -/

/-- A leaf page with these records and this successor. -/
structure LeafPage (page : Page) (records : List (List UInt8)) (nextLeaf : Nat) : Prop where
  type : page.type = PAGE_TYPE_LEAF
  count : readNat page.val 2 2 = some records.length
  next : readNat page.val 4 8 = some nextLeaf
  room : LEAF_HEADER_SIZE + 4 * records.length ≤ PAGE_SIZE
  stored : ∀ i r, records[i]? = some r →
    Block.Stored page (LEAF_HEADER_SIZE + 4 * i) (LEAF_HEADER_SIZE + 4 * records.length) r

/-- An internal page with these children and separators. -/
structure InternalPage (page : Page) (childIds : List Nat) (seps : List (List UInt8)) : Prop where
  type : page.type = PAGE_TYPE_INTERNAL
  count : readNat page.val 2 2 = some seps.length
  arity : childIds.length = seps.length + 1
  rightmost : ∀ id, childIds.getLast? = some id → readNat page.val 4 8 = some id
  child : ∀ i id, childIds.dropLast[i]? = some id →
    readNat page.val (INTERNAL_HEADER_SIZE + 8 * i) 8 = some id
  stored : ∀ i r, seps[i]? = some r →
    Block.Stored page (INTERNAL_HEADER_SIZE + seps.length * 8 + 4 * i) 0 r

theorem nodeHeader_fields (pageType : UInt8) {count link : Nat} (hcount : count < 256 ^ 2)
    (hlink : link < 256 ^ 8) :
    (nodeHeader pageType count link).type = pageType ∧
      readNat (nodeHeader pageType count link).val 2 2 = some count ∧
      readNat (nodeHeader pageType count link).val 4 8 = some link := by
  have inside : (nodeHeader pageType count link).val.length = PAGE_SIZE :=
    (nodeHeader pageType count link).property
  refine ⟨rfl, ?_, ?_⟩
  · have front : ((nodeHeader pageType count link).val.drop 2).take 2 = leBytes 2 count := by
      simp only [nodeHeader, List.append_assoc]
      exact List.take_left' (length_leBytes 2 count)
    rw [readNat, readAt, if_pos (by rw [inside]; decide), front, Option.map_some,
      leNat_leBytes 2 count hcount]
  · have front : ((nodeHeader pageType count link).val.drop 4).take 8 = leBytes 8 link := by
      simp only [nodeHeader, List.append_assoc]
      rw [← List.append_assoc, List.drop_left' (by simp), List.take_left' (length_leBytes 8 link)]
    rw [readNat, readAt, if_pos (by rw [inside]; decide), front, Option.map_some,
      leNat_leBytes 8 link hlink]

theorem encodeLeafPage_room {records : List (List UInt8)} {nextLeaf : Nat}
    (room : LEAF_HEADER_SIZE + 4 * records.length + Block.recordBytes records ≤ PAGE_SIZE)
    (hnext : nextLeaf < 256 ^ 8) :
    ∃ page, encodeLeafPage records nextLeaf = .ok page ∧ LeafPage page records nextLeaf := by
  obtain ⟨page, hput, hagree, hstored⟩ :=
    (nodeHeader PAGE_TYPE_LEAF records.length nextLeaf).putRecords_stored
      (by decide : PAGE_SIZE < 65536) room le_rfl
  simp only [LEAF_HEADER_SIZE, PAGE_SIZE] at room hagree hstored
  obtain ⟨htype, hcount, hlink⟩ := nodeHeader_fields PAGE_TYPE_LEAF
    (by omega : records.length < 256 ^ 2) hnext
  refine ⟨page, ?_, ?_, ?_, ?_, ?_, ?_⟩
  · rw [encodeLeafPage, if_neg (by omega), hput]
    rfl
  · rw [Page.type_of_readAt (hagree 0 1 (by omega)), htype]
  · rw [hagree.readNat (by omega), hcount]
  · rw [hagree.readNat (by omega), hlink]
  · simp only [LEAF_HEADER_SIZE, PAGE_SIZE]
    omega
  · intro i r hr
    obtain ⟨off, hoff, hlen, hread, hlow⟩ := hstored i r hr
    refine ⟨off, hoff, hlen, hread, ?_⟩
    simp only [LEAF_HEADER_SIZE]
    omega

/-- The bytes of a stored record are read through its slot. -/
theorem readSlotBytes_stored {page : Page} {slotOff low : Nat} {r : List UInt8}
    (h : Block.Stored page slotOff low r) : readSlotBytes page slotOff = .ok r := by
  obtain ⟨off, hoff, hlen, hread, _⟩ := h
  simp only [readSlotBytes, readU16At, hoff, hlen, orError, Option.elim_some, bind, Except.bind,
    hread]

theorem LeafPage.readNext {page : Page} {records : List (List UInt8)} {nextLeaf : Nat}
    (h : LeafPage page records nextLeaf) : readU64At page 4 = .ok nextLeaf := by
  rw [readU64At, h.next]
  rfl

theorem LeafPage.validateLeafSlots {page : Page} {records : List (List UInt8)} {nextLeaf : Nat}
    (h : LeafPage page records nextLeaf) : Minigraf.validateLeafSlots page = .ok () := by
  have count : readU16At page 2 = .ok records.length := by
    rw [readU16At, h.count]
    rfl
  have room : ¬ LEAF_HEADER_SIZE + records.length * SLOT_SIZE > PAGE_SIZE := by
    have := h.room
    simp only [SLOT_SIZE]
    omega
  simp only [Minigraf.validateLeafSlots, count, bind, Except.bind, if_neg room]
  refine List.forM_ok fun i hi => ?_
  have hi := List.mem_range.mp hi
  obtain ⟨off, hoff, hlen, hread, hlow⟩ := h.stored i records[i] (List.getElem?_eq_getElem hi)
  have bound := (readAt_eq_some hread).1
  rw [page.property] at bound
  rw [Nat.mul_comm 4 i] at hoff hlen
  have fine : ¬ (off < LEAF_HEADER_SIZE + records.length * SLOT_SIZE ∨
      off + records[i].length > PAGE_SIZE) := by
    simp only [SLOT_SIZE]
    omega
  have offset : readU16At page (LEAF_HEADER_SIZE + i * SLOT_SIZE) = .ok off := by
    rw [readU16At, SLOT_SIZE, hoff]
    rfl
  have length : readU16At page (LEAF_HEADER_SIZE + i * SLOT_SIZE + 2) = .ok records[i].length := by
    rw [readU16At, SLOT_SIZE, hlen]
    rfl
  simp only [offset, length, if_neg fine]
  rfl

section Leaves

variable {K : Type} (codec : IndexCodec K) {page : Page} {entries : List (K × FactRef)}
  {nextLeaf : Nat}

theorem readLeafEntries_leaf (h : LeafPage page (entries.map codec.entry.encode) nextLeaf) :
    readLeafEntries codec page = .ok entries := by
  have count : readU16At page 2 = .ok entries.length := by
    rw [readU16At, h.count, List.length_map]
    rfl
  simp only [readLeafEntries, count, bind, Except.bind]
  cases entries with
  | nil => rfl
  | cons first rest =>
      have each : ∀ i ∈ List.range (first :: rest).length,
          (do let bytes ← readSlotBytes page (LEAF_HEADER_SIZE + i * SLOT_SIZE)
              decodeOr codec.entry bytes) =
            (Except.ok ((first :: rest).getD i first) : Except ErrorCode _) := by
        intro i hi
        have hi := List.mem_range.mp hi
        have stored := h.stored i (codec.entry.encode ((first :: rest).getD i first)) (by
          rw [List.getElem?_map, List.getElem?_eq_getElem hi, List.getD_eq_getElem?_getD,
            List.getElem?_eq_getElem hi]
          rfl)
        rw [show 4 * i = i * SLOT_SIZE by simp only [SLOT_SIZE]; omega] at stored
        simp only [readSlotBytes_stored stored, bind, Except.bind, decodeOr,
          codec.entry.decode_encode, orError, Option.elim_some]
      have whole := List.mapM_ok each
      simp only [bind, Except.bind] at whole
      rw [whole]
      congr 1
      apply List.ext_getElem
      · simp
      · intro i h₁ h₂
        simp [List.getElem?_eq_getElem h₂]

end Leaves

theorem putChildren_inside {page : Page} {off : Nat} {children : List Nat}
    (inside : off + 8 * children.length ≤ PAGE_SIZE) (small : ∀ id ∈ children, id < 256 ^ 8) :
    ∃ page', putChildren page off children = some page' ∧
      Block.AgreeOutside page page' off (off + 8 * children.length) ∧
      ∀ i id, children[i]? = some id → readNat page'.val (off + 8 * i) 8 = some id := by
  induction children generalizing page off with
  | nil => exact ⟨page, rfl, fun _ _ _ => rfl, by simp⟩
  | cons id children ih =>
      rw [List.length_cons] at inside ⊢
      obtain ⟨page₁, hwrite, hval⟩ := page.write_inside off (leBytes 8 id)
        (by rw [length_leBytes]; omega)
      obtain ⟨page', hput, hagree, hread⟩ := @ih page₁ (off + 8) (by omega)
        fun c hc => small c (List.mem_cons_of_mem id hc)
      have first : Block.AgreeOutside page page₁ off (off + 8) :=
        Block.write_agree hwrite le_rfl (by rw [length_leBytes])
      refine ⟨page', ?_, ?_, ?_⟩
      · simp only [putChildren, hwrite, Option.bind_eq_bind, Option.bind_some, hput]
      · exact (first.mono le_rfl (by omega)).trans (hagree.mono (by omega) (by omega))
      · intro i c hc
        cases i with
        | zero =>
            obtain rfl : id = c := by simpa using hc
            rw [Nat.mul_zero, Nat.add_zero, hagree.readNat (by omega), hval,
              readNat_writeAt_self (by rw [page.property]; omega) (small id List.mem_cons_self)]
        | succ i =>
            have later := hread i c (by simpa using hc)
            rw [show off + 8 * (i + 1) = off + 8 + 8 * i by omega]
            exact later

theorem encodeInternalPage_room {childIds : List Nat} {seps : List (List UInt8)}
    (arity : childIds.length = seps.length + 1)
    (room : INTERNAL_HEADER_SIZE + 12 * seps.length + Block.recordBytes seps ≤ PAGE_SIZE)
    (small : ∀ id ∈ childIds, id < 256 ^ 8) :
    ∃ page, encodeInternalPage childIds seps = .ok page ∧ InternalPage page childIds seps := by
  have last : childIds.getLast? = some (childIds.getLast (by
      intro none_
      rw [none_] at arity
      cases arity)) := List.getLast?_eq_some_getLast _
  revert last
  generalize childIds.getLast _ = rightmost
  intro last
  have hlast : rightmost ∈ childIds := List.mem_of_getLast? last
  have count : childIds.dropLast.length = seps.length := by
    rw [List.length_dropLast]
    omega
  simp only [INTERNAL_HEADER_SIZE, PAGE_SIZE] at room
  obtain ⟨htype, hcount, hlink⟩ := nodeHeader_fields PAGE_TYPE_INTERNAL
    (by omega : seps.length < 256 ^ 2) (small rightmost hlast)
  obtain ⟨page₁, hput₁, hagree₁, hread₁⟩ := @putChildren_inside
    (nodeHeader PAGE_TYPE_INTERNAL seps.length rightmost) 12 childIds.dropLast
    (by rw [count, PAGE_SIZE]; omega) fun id hid => small id (List.dropLast_subset _ hid)
  obtain ⟨page, hput, hagree, hstored⟩ := page₁.putRecords_stored
    (by decide : PAGE_SIZE < 65536)
    (by rw [PAGE_SIZE]; omega : 12 + seps.length * 8 + 4 * seps.length + Block.recordBytes seps ≤
      PAGE_SIZE) le_rfl
  rw [count] at hagree₁
  refine ⟨page, ?_, ?_, ?_, arity, ?_, ?_, ?_⟩
  · simp only [encodeInternalPage, last, if_neg (by omega : ¬ seps.length > 65535),
      INTERNAL_HEADER_SIZE, hput₁, Option.bind_eq_bind, Option.bind_some, hput]
    rfl
  · rw [Page.type_of_readAt (hagree 0 1 (by omega)),
      Page.type_of_readAt (hagree₁ 0 1 (by omega)), htype]
  · rw [hagree.readNat (by omega), hagree₁.readNat (by omega), hcount]
  · intro id hid
    rw [last] at hid
    cases hid
    rw [hagree.readNat (by omega), hagree₁.readNat (by omega), hlink]
  · intro i id hid
    have inside : i < seps.length := by
      rw [← count]
      exact (List.getElem?_eq_some_iff.mp hid).1
    simp only [INTERNAL_HEADER_SIZE]
    rw [hagree.readNat (by omega), hread₁ i id hid]
  · intro i r hr
    obtain ⟨off, hoff, hlen, hread, _⟩ := hstored i r hr
    exact ⟨off, hoff, hlen, hread, Nat.zero_le _⟩

end Minigraf
