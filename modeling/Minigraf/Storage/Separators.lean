import Minigraf.Storage.SmallFacts

/-!
Rounds are exact while every key fits an internal page. A key may fit a leaf and not an
internal page: `write_internal_page` places the separators from the end of the page
downwards and does not ask where the child array ends, so a separator of 4077 bytes
starts on the last byte of the first child, and the tree is lost from its root.
-/

namespace Minigraf

open Bytes EStateM

/-! ## The page -/

theorem leNat_append (front back : List UInt8) :
    leNat (front ++ back) = leNat front + 256 ^ front.length * leNat back := by
  induction front with
  | nil => rw [List.nil_append, leNat, List.length_nil, Nat.pow_zero, Nat.zero_add, Nat.one_mul]
  | cons b front ih =>
      rw [List.cons_append, leNat, ih, leNat, List.length_cons, Nat.pow_succ]
      ring

/-- An internal page whose first child is not a page. -/
structure Misleading (page : Page) : Prop where
  type : page.type = PAGE_TYPE_INTERNAL
  count : readNat page.val 2 2 = some 1
  child : ∃ id, readNat page.val INTERNAL_HEADER_SIZE 8 = some id ∧ PAGE_LIMIT ≤ id

/-- The slot of the only separator lies on the separator, behind its first byte. -/
def ChildOverwritten (b : UInt8) (page : Page) : Prop :=
  ∃ rest, readSlotBytes page (INTERNAL_HEADER_SIZE + 1 * 8) = .ok (b :: 19 :: rest)

/-- A byte read on its own, of a longer slice. -/
theorem getElem?_of_readAt {buf bytes : List UInt8} {off len : Nat} {b : UInt8}
    (h : readAt buf off len = some (b :: bytes)) : buf[off]? = some b := by
  unfold readAt at h
  split at h
  · have first := congrArg (fun l : Option (List UInt8) => l.bind (·[0]?)) h
    simp only [Option.bind_some, List.getElem?_cons_zero, List.getElem?_take, List.getElem?_drop,
      Nat.add_zero] at first
    split at first
    · exact first
    · cases first
  · cases h

/-- The first byte of a separator of 4077 bytes is the last of the first child. -/
theorem encodeInternalPage_overlap {first second : Nat} {b : UInt8} {sep : List UInt8}
    (wide : sep.length = 4076) (set : b ≠ 0) (small : second < 256 ^ 8) :
    ∃ page, encodeInternalPage [first, second] [b :: sep] = .ok page ∧ Misleading page ∧
      ChildOverwritten b page := by
  have width : (b :: sep).length = 4077 := by rw [List.length_cons, wide]
  obtain ⟨type₀, count₀, -⟩ := nodeHeader_fields PAGE_TYPE_INTERNAL (by decide : 1 < 256 ^ 2) small
  obtain ⟨p₀, h₀, -⟩ := (nodeHeader PAGE_TYPE_INTERNAL 1 second).write_inside 12 (leBytes 8 first)
    (by rw [length_leBytes]; decide)
  obtain ⟨p₁, h₁, hval₁⟩ := p₀.write_inside 19 (b :: sep) (by rw [width]; decide)
  obtain ⟨p₂, h₂, hval₂⟩ := p₁.write_inside 20 (leBytes 2 19) (by rw [length_leBytes]; decide)
  obtain ⟨p₃, h₃, hval₃⟩ := p₂.write_inside 22 (leBytes 2 4077) (by rw [length_leBytes]; decide)
  have agree₀ : Block.AgreeOutside _ p₀ 12 PAGE_SIZE :=
    Block.write_agree h₀ le_rfl (by rw [length_leBytes]; decide)
  have agree₁ : Block.AgreeOutside p₀ p₁ 12 PAGE_SIZE :=
    Block.write_agree h₁ (by decide) (by rw [width]; decide)
  have agree₂ : Block.AgreeOutside p₁ p₂ 20 PAGE_SIZE :=
    Block.write_agree h₂ le_rfl (by rw [length_leBytes]; decide)
  have agree₃ : Block.AgreeOutside p₂ p₃ 20 PAGE_SIZE :=
    Block.write_agree h₃ (by decide) (by rw [length_leBytes]; decide)
  have late := agree₂.trans agree₃
  have whole := (agree₀.trans agree₁).trans (late.mono (by decide) le_rfl)
  have last : readAt p₁.val 19 4077 = some (b :: sep) := by
    rw [hval₁, ← width, readAt_writeAt_self (by rw [p₀.property, width]; decide)]
  have tail : p₁.val.drop 19 = b :: sep := by
    rw [readAt, if_pos (by rw [p₁.property]; decide), Option.some.injEq] at last
    rwa [List.take_of_length_le (by rw [List.length_drop, p₁.property]; decide)] at last
  refine ⟨p₃, ?_, ⟨?_, ?_, ?_⟩, ?_⟩
  · have children : putChildren (nodeHeader PAGE_TYPE_INTERNAL 1 second) 12 [first] = some p₀ := by
      rw [putChildren, h₀]
      rfl
    have records : p₀.putRecords 20 PAGE_SIZE [b :: sep] = some p₃ := by
      rw [Block.putRecords, if_pos (by rw [width]; decide), width, show PAGE_SIZE - 4077 = 19 from rfl]
      simp only [h₁, h₂, h₃, Option.bind_eq_bind, Option.bind_some, Block.putRecords]
    have both : (putChildren (nodeHeader PAGE_TYPE_INTERNAL 1 second) 12 [first]).bind
        (fun page => page.putRecords 20 PAGE_SIZE [b :: sep]) = some p₃ := by
      rw [children, Option.bind_some, records]
    rw [encodeInternalPage]
    exact congrArg orPanic both
  · rw [Page.type_of_readAt (whole 0 1 (by omega)), type₀]
  · rw [whole.readNat (by omega), count₀]
  · have bytes : (p₁.val.drop 12).take 8 = (p₁.val.drop 12).take 7 ++ [b] := by
      rw [show 8 = 7 + 1 from rfl, List.take_add, List.drop_drop, tail]
      rfl
    have seven : ((p₁.val.drop 12).take 7).length = 7 := by
      rw [List.length_take, List.length_drop, p₁.property]
      rfl
    have byte : 1 ≤ b.toNat := by
      have : b.toNat ≠ 0 := fun zero => set (UInt8.toNat_inj.mp zero)
      omega
    refine ⟨leNat ((p₁.val.drop 12).take 7 ++ [b]), ?_, ?_⟩
    · rw [INTERNAL_HEADER_SIZE, late.readNat (by omega), readNat, readAt,
        if_pos (by rw [p₁.property]; decide), Option.map_some, bytes]
    · rw [leNat_append, seven, leNat, leNat, PAGE_LIMIT]
      omega
  · have slot : readAt p₃.val 20 2 = some [19, 0] := by
      have alone : Block.AgreeOutside p₂ p₃ 22 PAGE_SIZE :=
        Block.write_agree h₃ le_rfl (by rw [length_leBytes]; decide)
      rw [alone 20 2 (by omega), hval₂]
      exact @readAt_writeAt_self p₁.val (leBytes 2 19) 20 (by rw [p₁.property, length_leBytes]; decide)
    have offset : readU16At p₃ (INTERNAL_HEADER_SIZE + 1 * 8) = .ok 19 := by
      rw [readU16At, readNat, show INTERNAL_HEADER_SIZE + 1 * 8 = 20 from rfl, slot]
      rfl
    have length : readU16At p₃ (INTERNAL_HEADER_SIZE + 1 * 8 + 2) = .ok 4077 := by
      rw [readU16At, hval₃, show INTERNAL_HEADER_SIZE + 1 * 8 + 2 = 22 from rfl,
        readNat_writeAt_self (by rw [p₂.property]; decide) (by decide)]
      rfl
    have byte : p₃.val[19]? = some b := by
      have alone : readAt p₃.val 19 1 = some [b] := by
        rw [late 19 1 (.inl (by decide)), readAt, if_pos (by rw [p₁.property]; decide), tail]
        rfl
      exact getElem?_of_readAt alone
    have next : p₃.val[20]? = some 19 := getElem?_of_readAt slot
    have split : p₃.val.drop 19 = b :: 19 :: p₃.val.drop 21 := by
      rw [List.drop_eq_getElem?_toList_append, byte, List.drop_eq_getElem?_toList_append, next]
      rfl
    refine ⟨p₃.val.drop 21, ?_⟩
    rw [readSlotBytes, offset, length]
    simp only [bind, Except.bind, readAt]
    rw [if_pos (by rw [p₃.property]; decide), split]
    rw [List.take_of_length_le (by rw [← split, List.length_drop, p₃.property]; decide)]
    rfl

/-! ## The tree -/

section Trees

variable {H C : Type} {crc : Crc H C}

/-- No write reaches a page past the limit. -/
theorem Writes.far {ok : Nat → Page → Prop} {s t : Dev C} (h : Writes crc ok s t) {id : Nat}
    (far : PAGE_LIMIT ≤ id) : t.disk.page id = s.disk.page id := by
  induction h with
  | refl => rfl
  | tail _ step ih =>
      cases step with
      | other | flush => exact ih
      | page id' p _ _ near =>
          have : id ≠ id' := by
            rw [← far_iff] at far
            rintro rfl
            omega
          rw [← ih]
          exact Function.update_of_ne this _ _

/-- A walk from a misleading root finds no leaf. -/
theorem Misleading.wp_streamAllEntries {K : Type} {codec : IndexCodec K} {s : Dev C} (h : s.Ok)
    {root : Nat} (data : root ≠ 0) (lost : Misleading (s.disk.page root))
    (blank : ∀ id, PAGE_LIMIT ≤ id → s.disk.page id = Block.zeros PAGE_SIZE) :
    Wp (streamAllEntries crc codec root) s (fun _ _ => False) (fun _ _ => True) := by
  obtain ⟨id, child, far⟩ := lost.child
  have count : readU16At (s.disk.page root) 2 = .ok 1 := by
    rw [readU16At, lost.count]
    rfl
  have next : readU64At (s.disk.page root) INTERNAL_HEADER_SIZE = .ok id := by
    rw [readU64At, child]
    rfl
  simp only [streamAllEntries, findLeftmostLeaf, walkBound, wp_bind, wp_get, wp_pure]
  rw [leftmostLeaf, wp_bind]
  refine (wp_getOrLoad crc h data).mono ?_ fun _ _ _ => trivial
  rintro _ t ⟨rfl, cache, rfl, okay⟩
  rw [if_neg (by rw [lost.type]; decide), if_pos lost.type, count, ofResult]
  simp only [wp_bind, wp_pure, if_neg (by decide : ¬ 1 = 0), next, ofResult]
  generalize s.header.pageCount + s.cache.entries.length = bound
  cases bound with
  | zero => trivial
  | succ bound =>
      rw [leftmostLeaf, wp_bind]
      refine (wp_getOrLoad crc okay (by rw [PAGE_LIMIT] at far; omega)).mono ?_ fun _ _ _ => trivial
      rintro _ u ⟨rfl, -⟩
      have type : Page.type (Block.zeros PAGE_SIZE) = 0 := rfl
      simp only [blank id far, type, if_neg (by decide : ¬ (0 : UInt8) = PAGE_TYPE_LEAF),
        if_neg (by decide : ¬ (0 : UInt8) = PAGE_TYPE_INTERNAL), wp_throw]

/-- A tree of two leaves, the second of which starts with a key of 4077 bytes. -/
theorem wp_buildBtree_overlap {K : Type} {codec : IndexCodec K} {s : Dev C} (h : s.Ok) {start : Nat}
    (data : start ≠ 0) (dense : start ≤ s.header.pageCount) (limit : start + 3 ≤ PAGE_LIMIT)
    {e e' : K × FactRef} {b : UInt8} {rest : List UInt8}
    (room : LEAF_HEADER_SIZE + 4 + (codec.entry.encode e).length ≤ PAGE_SIZE)
    (room' : LEAF_HEADER_SIZE + 4 + (codec.entry.encode e').length ≤ PAGE_SIZE)
    (cut : leafOverflows (.one (codec.entry.encode e).length) (codec.entry.encode e').length = true)
    (key : codec.key.encode e'.1 = b :: rest) (wide : rest.length = 4076) (set : b ≠ 0) :
    Wp (buildBtree crc codec [e, e'] start) s
      (fun r t => Wrote crc (IndexAt start) s t ∧ r = (start + 2, start + 3) ∧
        start + 3 ≤ t.header.pageCount ∧ Misleading (t.disk.page (start + 2)) ∧
        ChildOverwritten b (t.disk.page (start + 2)))
      (fun _ t => Stopped crc (IndexAt start) False s t) := by
  have leaves : packLeaves codec leafOverflows [e, e'] = [(e, []), (e', [])] := by
    simp only [packLeaves, Greedy.groups, Greedy.fill, cut, if_true]
  have nodes (i j : NodeInfo) : groupLevel [i, j] = [(i, [j])] := by
    have open_ : siblingFull ⟨0, 0⟩ j = false := by simp [siblingFull]
    simp only [groupLevel, Greedy.groups, Greedy.fill, open_, Bool.false_eq_true, if_false]
  have rooms : ∀ leaf ∈ [(e, ([] : List (K × FactRef))), (e', [])],
      LeafRoom codec (Greedy.members leaf) := by
    intro leaf hleaf
    rcases List.mem_pair.mp hleaf with rfl | rfl
    · simpa [LeafRoom, Greedy.members, Block.recordBytes] using room
    · simpa [LeafRoom, Greedy.members, Block.recordBytes] using room'
  obtain ⟨page, encoded, lost, covered⟩ := @encodeInternalPage_overlap start (start + 1) b rest wide set
    (by rw [PAGE_LIMIT] at limit; omega)
  rw [buildBtree, leaves]
  simp only [wp_bind]
  refine (wp_writeLeaves codec crc h dense (by omega) rooms).mono ?_ ?_
  · rintro _ t ⟨wrote, count, -, hleaves⟩
    simp only [List.length_cons, List.length_nil] at count ⊢
    refine (@wp_patchLeaves H C crc t wrote.okay start 1 data (by omega) (by omega)
      (fun _ => [codec.entry.encode e]) ?_).mono ?_ ?_
    · intro i one
      obtain rfl : i = 0 := by omega
      exact hleaves 0 _ rfl
    · rintro _ u ⟨wrote', count', -, -⟩
      simp only [leafInfos, key]
      rw [buildInternalLevels, nodes, wp_bind]
      simp only [writeNodes, writeInternalPage, Greedy.members, List.map_cons, List.map_nil, encoded,
        wp_bind, ofResult, wp_pure]
      refine (wp_writeCached crc (IndexAt start) wrote'.okay (by omega)
        ⟨by omega, .inr lost.type⟩).mono ?_ ?_
      · rintro _ v ⟨wrote'', pages, count'', -⟩
        rw [nextLevel, nextLevel, buildInternalLevels, wp_pure]
        refine ⟨(wrote.trans wrote').trans wrote'', rfl, by omega, ?_⟩
        rw [pages, Function.update_self]
        exact ⟨lost, covered⟩
      · intro _ v stopped
        refine (wrote.trans wrote').stopped (stopped.mono (fun _ _ => id) fun far => ?_)
        rw [far_iff] at far
        omega
    · intro _ u stopped
      exact wrote.stopped stopped
  · intro _ t stopped
    refine stopped.mono (fun _ _ => id) fun far => ?_
    simp only [List.length_cons, List.length_nil] at far
    omega

end Trees

/-! ## Two facts -/

/-- A text of so many bytes. -/
def letters : Nat → String
  | 0 => ""
  | n + 1 => (letters n).push 'a'

theorem length_letters (n : Nat) : (letters n).toUTF8.data.toList.length = n := by
  show (letters n).utf8ByteSize = n
  induction n with
  | zero => rfl
  | succ n ih =>
      rw [letters, String.utf8ByteSize_push, ih]
      rfl

def narrowFact : Fact := ⟨0, ":a", .integer 1, 5, 1, 5, VALID_TIME_FOREVER, true⟩

/-- A fact whose AVET key takes 35 bytes beside the text. -/
def textFact (text : String) : Fact := ⟨0, ":a", .string text, 5, 1, 5, VALID_TIME_FOREVER, true⟩

namespace Postcard

variable {text : String} (size : text.toUTF8.data.toList.length = 4042)

include size

theorem length_wideFact : (factFields.put (textFact text)).length = 4079 := by
  have put : (Serial.text.put text).length = 4044 := by
    show (Serial.bytes.put text.toUTF8.data.toList).length = 4044
    rw [Serial.length_bytes, size]
    decide
  have value : (value.put (.string text)).length = 4045 := congrArg (· + 1) put
  simp only [factFields, Serial.via, Serial.pair, List.length_append, textFact, value, length_uuid]
  decide

theorem pair_fits : ∀ f ∈ [narrowFact, textFact text], f.Fits standard.fact := by
  intro f hf
  rcases List.mem_pair.mp hf with rfl | rfl
  · exact fits (by decide)
  · rw [Fact.Fits, show (standard.fact.encode (textFact text)).length = 4079 from length_wideFact size]
    decide

theorem length_wideValue : (encodeValue (.string text)).length = 4043 := by
  simp only [encodeValue, List.length_cons, toList_eq_data, size]

theorem wideKey : ∃ rest, avetKey.put (textFact text).avetKey = 2 :: rest ∧ rest.length = 4076 := by
  refine ⟨[58, 97] ++ (Serial.bytes.pair (i64.pair (i64.pair (uuid.pair u64)))).put
    (encodeValue (.string text), 5, VALID_TIME_FOREVER, 0, 1), ?_, ?_⟩
  · show Serial.text.put ":a" ++ _ = _
    rw [show Serial.text.put ":a" = [2, 58, 97] from rfl]
    rfl
  · simp only [Serial.pair, List.length_append, Serial.length_bytes, length_wideValue size, length_uuid]
    decide

omit size

/-- Places on the first pages of a file. -/
def Near (r : FactRef) : Prop := r.pageId < 128 ∧ r.slotIndex < 128

theorem Near.length {r : FactRef} (h : Near r) : (factRef.put r).length ≤ 2 := by
  have page : (Serial.varint.put r.pageId).length ≤ 0 + 1 := Serial.length_varint_le h.1
  have slot : (Serial.varint.put r.slotIndex).length ≤ 0 + 1 := Serial.length_varint_le h.2
  simp only [factRef, Serial.via, Serial.pair, List.length_append]
  omega

/-- The entries of the two facts that have the same key. -/
theorem entriesFit_pair {K : Type} {key : Serial K} {keyOf : Fact → Option K} {k : K} {r r' : FactRef}
    (same : keyOf narrowFact = some k) (same' : keyOf (textFact text) = some k) (near : Near r)
    (near' : Near r') (short : (key.put k).length ≤ 64) :
    EntriesFit (indexCodec key) keyOf [(narrowFact, r), (textFact text, r')] := by
  have fits {r : FactRef} (near : Near r) : EntryFits (indexCodec key) (k, r) := by
    have size := near.length
    constructor
    · simp only [indexCodec, Serial.codec, Serial.pair, List.length_append, LEAF_HEADER_SIZE, PAGE_SIZE]
      omega
    · simp only [SepFits, indexCodec, Serial.codec, INTERNAL_HEADER_SIZE, PAGE_SIZE]
      omega
  intro e he
  simp only [entriesOf, List.filterMap_cons, same, same', Option.map_some, List.filterMap_nil,
    List.mem_cons, List.not_mem_nil, or_false] at he
  rcases he with rfl | rfl
  · exact fits near
  · exact fits near'

theorem eavt_fits {r r' : FactRef} (near : Near r) (near' : Near r') :
    EntriesFit standard.eavt (some ∘ Fact.eavtKey) [(narrowFact, r), (textFact text, r')] :=
  entriesFit_pair rfl rfl near near' (by decide)

theorem aevt_fits {r r' : FactRef} (near : Near r) (near' : Near r') :
    EntriesFit standard.aevt (some ∘ Fact.aevtKey) [(narrowFact, r), (textFact text, r')] :=
  entriesFit_pair rfl rfl near near' (by decide)

theorem vaet_fits (r r' : FactRef) :
    EntriesFit standard.vaet Fact.vaetKey [(narrowFact, r), (textFact text, r')] :=
  fun _ no => nomatch no

theorem avet_entries (r r' : FactRef) :
    indexEntries (some ∘ Fact.avetKey) [(narrowFact, r), (textFact text, r')] =
      [(narrowFact.avetKey, r), ((textFact text).avetKey, r')] := by
  have bytes : encodeValue narrowFact.value < encodeValue (.string text) := by
    rw [encodeValue]
    exact List.Lex.rel (by decide)
  have sorted : narrowFact.avetKey ≤ (textFact text).avetKey := by
    show AvetKey.fields _ ≤ AvetKey.fields _
    refine Prod.Lex.toLex_le_toLex.mpr (.inr ⟨rfl, ?_⟩)
    exact Prod.Lex.toLex_le_toLex.mpr (.inl bytes)
  refine List.mergeSort_of_pairwise ?_
  simp only [List.filterMap_cons, Function.comp_apply, Option.map_some, List.filterMap_nil,
    List.pairwise_cons, List.mem_singleton, forall_eq, decide_eq_true_eq]
  exact ⟨sorted, fun _ no => absurd no List.not_mem_nil, .nil⟩

include size in
theorem leavesFit {r r' : FactRef} (near : Near r) (near' : Near r') :
    LeavesFit standard [(narrowFact, r), (textFact text, r')] := by
  refine ⟨fun e he => (eavt_fits near near' e he).leaf, fun e he => (aevt_fits near near' e he).leaf,
    ?_, fun e he => (vaet_fits r r' e he).leaf⟩
  obtain ⟨rest, key, wide⟩ := wideKey size
  intro e he
  have short := near.length
  have short' := near'.length
  simp only [entriesOf, List.filterMap_cons, Function.comp_apply, Option.map_some, List.filterMap_nil,
    List.mem_cons, List.not_mem_nil, or_false] at he
  rcases he with rfl | rfl
  · have narrow : (avetKey.put narrowFact.avetKey).length ≤ 64 := by decide
    simp only [standard, indexCodec, Serial.codec, Serial.pair, List.length_append, LEAF_HEADER_SIZE,
      PAGE_SIZE]
    omega
  · simp only [standard, indexCodec, Serial.codec, Serial.pair, List.length_append, key,
      List.length_cons, wide, LEAF_HEADER_SIZE, PAGE_SIZE]
    omega

end Postcard

/-! ## One save -/

section Saving

variable {H C : Type} [DecidableEq C] {crc : Crc H C}

/-- The two facts pending on a new file. -/
structure TwoPending (crc : Crc H C) (text : String) (s : Store H C) : Prop where
  clean : s.Clean crc Postcard.standard []
  facts : s.storage.facts = [narrowFact, textFact text]
  dirty : s.dirty = true
  calm : s.dev.faults = none
  header : s.dev.header = FileHeader.new crc
  blank : ∀ id, s.dev.disk.page id = Block.zeros PAGE_SIZE
  pages : s.committedFactPages = 0

variable {text : String} {s : Store H C}

theorem TwoPending.placed (h : TwoPending crc text s) : ∃ r r', Postcard.Near r ∧ Postcard.Near r' ∧
    s.pendingAt Postcard.standard = [(narrowFact, r), (textFact text, r')] := by
  have groups := length_packGroups_le Postcard.standard.fact s.storage.facts
  have whole := packGroups_flatten Postcard.standard.fact s.storage.facts
  have count := length_packedRefs (1 + s.committedFactPages)
    (packGroups Postcard.standard.fact s.storage.facts)
  have near : ∀ r ∈ packedRefs (1 + s.committedFactPages)
      (packGroups Postcard.standard.fact s.storage.facts), Postcard.Near r := by
    intro r hr
    have bound := mem_packedRefs hr
    rw [whole] at bound
    rw [h.facts, h.pages] at bound
    rw [h.facts] at groups
    simp only [List.length_cons, List.length_nil] at bound groups
    exact ⟨by omega, by omega⟩
  rw [whole, h.facts] at count
  rw [Store.pendingAt, h.facts]
  rw [h.facts] at near
  obtain ⟨r, r', both⟩ := List.length_eq_two.mp count
  rw [both] at near ⊢
  exact ⟨r, r', near r List.mem_cons_self, near r' (List.mem_cons_of_mem _ List.mem_cons_self), rfl⟩

omit [DecidableEq C] in
/-- The AVET entries of the two facts built in bulk: the root misleads. -/
theorem wp_buildAvet_overlap {d : Dev C} (okay : d.Ok) {start : Nat} (data : start ≠ 0)
    (dense : start ≤ d.header.pageCount) (limit : start + 3 ≤ PAGE_LIMIT) {r r' : FactRef}
    (near : Postcard.Near r) (near' : Postcard.Near r')
    (size : text.toUTF8.data.toList.length = 4042) :
    Wp (buildBtree crc Postcard.standard.avet
        [(narrowFact.avetKey, r), ((textFact text).avetKey, r')] start) d
      (fun p t => Wrote crc (IndexAt start) d t ∧ p = (start + 2, start + 3) ∧
        start + 3 ≤ t.header.pageCount ∧ Misleading (t.disk.page (start + 2)))
      (fun _ t => Stopped crc (IndexAt start) False d t) := by
  obtain ⟨rest, key, wide⟩ := Postcard.wideKey size
  have roomy : ∀ e ∈ entriesOf (some ∘ Fact.avetKey) [(narrowFact, r), (textFact text, r')],
      LEAF_HEADER_SIZE + 4 + (Postcard.standard.avet.entry.encode e).length ≤ PAGE_SIZE :=
    (Postcard.leavesFit size near near').avet
  have cut : leafOverflows
      (.one (Postcard.standard.avet.entry.encode (narrowFact.avetKey, r)).length)
      (Postcard.standard.avet.entry.encode ((textFact text).avetKey, r')).length = true := by
    refine decide_eq_true ?_
    simp only [Postcard.standard, Postcard.indexCodec, Serial.codec, Serial.pair, List.length_append,
      key, List.length_cons, wide, LEAF_HEADER_SIZE, PAGE_FILL_BYTES, PAGE_SIZE]
    omega
  refine (wp_buildBtree_overlap okay data dense limit (roomy _ List.mem_cons_self)
    (roomy _ (List.mem_cons_of_mem _ List.mem_cons_self)) cut key wide (by decide)).post ?_
  rintro p t ⟨wrote, same, counted, lost, _⟩
  exact ⟨wrote, same, counted, lost⟩

omit [DecidableEq C] in
/-- The indexes of the two facts, behind the fact pages: the root of AVET misleads. -/
theorem wp_rebuildIndexes_overlap {d : Dev C} (okay : d.Ok) {start : Nat} (data : start ≠ 0)
    (dense : start ≤ d.header.pageCount) (limit : start + 64 ≤ PAGE_LIMIT) {r r' : FactRef}
    (near : Postcard.Near r) (near' : Postcard.Near r')
    (size : text.toUTF8.data.toList.length = 4042) :
    Wp (rebuildIndexes crc Postcard.standard ⟨[], [], [], []⟩ [(narrowFact, r), (textFact text, r')]
        start) d
      (fun p t => Wrote crc (IndexAt start) d t ∧ start ≤ p.1.avet ∧
        Misleading (t.disk.page p.1.avet) ∧ start ≤ p.2 ∧ p.2 ≤ t.header.pageCount ∧ p.2 ≤ PAGE_LIMIT)
      (fun _ t => Stopped crc (IndexAt start) False d t) := by
  have empty {K : Type} (codec : IndexCodec K) [LinearOrder K] (key : Fact → Option K) :
      LeavesOf codec key [] [] := ⟨[], .nil, .nil, .refl _⟩
  rw [rebuildIndexes, chainTrees, wp_bind]
  refine (wp_rebuildTree Postcard.standard.eavt crc okay data dense (by omega) (empty _ _)
    (Postcard.eavt_fits near near')).mono ?_ fun _ t stopped => stopped.mono (fun _ _ => id) ?_
  · rintro ⟨r1, next1⟩ t1 ⟨wrote1, near1, count1, limit1, tree1⟩
    have b1 := tree1.bounds
    simp only [List.nil_append, List.length_cons, List.length_nil] at near1 count1 limit1
    rw [wp_bind]
    refine (wp_rebuildTree Postcard.standard.aevt crc wrote1.okay (by omega) count1 limit1 (empty _ _)
      (Postcard.aevt_fits near near')).mono ?_ fun _ t stopped => wrote1.stopped
        (stopped.mono (fun _ _ => IndexAt.mono (by omega)) ?_)
    · rintro ⟨r2, next2⟩ t2 ⟨wrote2, near2, count2, limit2, tree2⟩
      have b2 := tree2.bounds
      have through2 := wrote1.trans (wrote2.mono fun _ _ => IndexAt.mono (by omega))
      simp only [List.nil_append, List.length_cons, List.length_nil] at near2 count2 limit2
      rw [wp_bind]
      have bulk : rebuildBtreeIncremental crc Postcard.standard.avet []
          (indexEntries (some ∘ Fact.avetKey) [(narrowFact, r), (textFact text, r')]) next2 =
          buildBtree crc Postcard.standard.avet
            [(narrowFact.avetKey, r), ((textFact text).avetKey, r')] next2 := by
        rw [Postcard.avet_entries]
        rfl
      rw [bulk]
      refine (wp_buildAvet_overlap wrote2.okay (by omega) count2 (by omega) near near' size).mono ?_
        fun _ t stopped => through2.stopped (stopped.mono (fun _ _ => IndexAt.mono (by omega)) id)
      rintro ⟨r3, next3⟩ t3 ⟨wrote3, same, count3, lost⟩
      cases same
      have through3 := through2.trans (wrote3.mono fun _ _ => IndexAt.mono (by omega))
      rw [wp_bind]
      refine (wp_rebuildTree Postcard.standard.vaet crc wrote3.okay (by omega) count3 (by omega)
        (empty _ _) (Postcard.vaet_fits r r')).mono ?_ fun _ t stopped => through3.stopped
          (stopped.mono (fun _ _ => IndexAt.mono (by omega)) ?_)
      · rintro ⟨r4, next4⟩ t4 ⟨wrote4, near4, count4, limit4, tree4⟩
        have b4 := tree4.bounds
        rw [wp_pure]
        refine ⟨through3.trans (wrote4.mono fun _ _ => IndexAt.mono (by omega)), by simp only; omega, ?_,
          by simp only; omega, count4, limit4⟩
        obtain kept | later := wrote4.writes.page (next2 + 2)
        · simp only [kept]
          exact lost
        · exact absurd later.1 (by omega)
      · simp only [List.nil_append, List.length_cons, List.length_nil]
        omega
    · simp only [List.nil_append, List.length_cons, List.length_nil]
      omega
  · simp only [List.nil_append, List.length_cons, List.length_nil]
    omega

omit [DecidableEq C] in
theorem Dev.Ok.invalidated {d : Dev C} (h : d.Ok) (n : Nat) :
    Dev.Ok { d with cache := d.cache.invalidateFrom n } := by
  intro bound
  refine ⟨h.inside, fun e he data _ => h.cached e (List.mem_filter.mp he).1 data, fun off => ?_⟩
  simp only [PageCache.invalidateFrom, h.disabled off, List.filter_nil]

/-- The save succeeds, and the AVET index cannot be read any more. -/
theorem TwoPending.wp_save (h : TwoPending crc text s)
    (size : text.toUTF8.data.toList.length = 4042) :
    Wp (save crc Postcard.standard) s
      (fun _ t => ¬ IndexesExact crc Postcard.standard t.dev) (fun _ _ => False) := by
  obtain ⟨r, r', near, near', placed⟩ := h.placed
  have fits : ∀ f ∈ s.storage.facts, f.Fits Postcard.standard.fact := by
    rw [h.facts]
    exact Postcard.pair_fits size
  obtain ⟨pages, packed⟩ := packFacts_fits Postcard.standard.fact fits (1 + s.committedFactPages)
  obtain ⟨-, -, width⟩ := packFacts_read packed
  have few : (packGroups Postcard.standard.fact s.storage.facts).length ≤ 3 := by
    have := length_packGroups_le Postcard.standard.fact s.storage.facts
    rwa [show s.storage.facts.length = 2 by rw [h.facts]; rfl] at this
  have counted : s.dev.header.pageCount = 1 := by rw [h.header]; rfl
  have limit : PAGE_LIMIT = 2 ^ 52 := rfl
  rw [save, wp_bind, wp_get, h.dirty]
  simp only [Bool.not_true, Bool.false_eq_true, if_false, wp_bind, onDev, wp_zoom]
  refine h.clean.wp_currentHeader.mono ?_ (fun _ _ no => no.elim)
  rintro header d ⟨rfl, rfl⟩
  have unrooted : collectOldLeaves crc s.dev.header = pure ⟨[], [], [], []⟩ := by
    rw [h.header]
    rfl
  rw [unrooted, wp_pure, packed]
  simp only [wp_modify, ofResult, wp_pure]
  generalize hd : ({ s.dev with cache := s.dev.cache.invalidateFrom (1 + s.committedFactPages) } :
    Dev C) = d
  have header₁ : d.header = s.dev.header := by rw [← hd]
  have disk₁ : d.disk = s.dev.disk := by rw [← hd]
  have calm₁ : d.faults = none := by rw [← hd]; exact h.calm
  have okay₁ : d.Ok := by
    rw [← hd]
    exact h.clean.okay.invalidated _
  have uncached : ∀ e ∈ d.cache.entries, e.1 < 1 + s.committedFactPages := by
    intro e he
    rw [← hd] at he
    simpa using (List.mem_filter.mp he).2
  have new : s.storage.facts.zip (packedRefs (1 + s.committedFactPages)
      (packGroups Postcard.standard.fact s.storage.facts)) =
      [(narrowFact, r), (textFact text, r')] := placed
  -- Nothing fails on a quiet device with room, so every step is the one that succeeds.
  have quiet {ok : Nat → Page → Prop} {cause : Prop} {t u : Dev C} (wrote : Wrote crc ok d t)
      (stopped : Stopped crc ok cause t u) (room : ¬ cause) : False :=
    stopped.why.elim (fun fault => fault (wrote.calm calm₁)) room
  refine (wp_writeFactPages crc okay₁ (by rw [header₁, counted, h.pages]) (by rw [h.pages, limit]; omega)
    uncached).mono ?_ fun _ _ stopped => quiet (.refl okay₁) stopped (by rw [h.pages]; omega)
  rintro _ d₂ ⟨wrote₂, count₂, -, -, -⟩
  have wrote₂' := wrote₂.mono fun (id : Nat) (p : Page) (_ : PageAt (1 + s.committedFactPages) pages id p) =>
    @trivial
  refine (wp_sync crc wrote₂.okay fun _ _ => True).mono ?_ fun _ _ stopped =>
    quiet wrote₂' stopped.1 id
  rintro _ d₃ ⟨wrote₃, f₃, rfl⟩
  have upTo₃ := wrote₂'.trans wrote₃
  rw [new]
  refine (wp_rebuildIndexes_overlap wrote₃.okay (by omega) (by simp only; omega)
    (by rw [h.pages, limit]; omega) near near' size).mono ?_ fun _ _ stopped =>
      quiet upTo₃ (stopped.mono (fun _ _ _ => trivial) id) id
  rintro ⟨roots, next⟩ d₄ ⟨wrote₄, above, lost, past, count₄, limit₄⟩
  have upTo₄ := upTo₃.trans (wrote₄.mono fun _ _ _ => trivial)
  simp only at above lost past count₄ limit₄
  refine (wp_sync crc wrote₄.okay fun _ _ => True).mono ?_ fun _ _ stopped =>
    quiet upTo₄ stopped.1 id
  rintro _ d₅ ⟨wrote₅, f₅, rfl⟩
  have upTo₅ := upTo₄.trans wrote₅
  have blank (id : Nat) (far : PAGE_LIMIT ≤ id) : d₄.disk.page id = Block.zeros PAGE_SIZE := by
    rw [upTo₄.writes.far far, disk₁, h.blank]
  simp only [commitSave, takePrefix, onDev, wp_bind, wp_modifyGet, wp_zoom]
  refine (wp_hashFactPages crc wrote₅.okay ?_ (by simp only; omega) (by omega)).mono ?_
    (fun _ _ no => no.elim)
  · intro hasher cached
    rw [(h.clean.hashed _ hasher cached).2, h.pages]
    rfl
  rintro factHash t ⟨same, -⟩
  subst t
  refine (wp_hashPages crc wrote₅.okay _ (by omega)).mono ?_ ?_
  · rintro hasher t ⟨same, -⟩
    subst t
    have nodes : s.dev.header.nodeCount = 0 := by rw [h.header]; rfl
    have many : s.storage.facts.length = 2 := by rw [h.facts]; rfl
    rw [if_neg (by rw [nodes, many]; decide)]
    simp only [writeHeaderPage, sync, wp_bind, wp_zoom]
    apply wp_tick
    · intro f hf
      simp only [wp_modify]
      apply wp_tick
      · intro g _
        rintro ⟨_, _, _, _, _, _, ⟨entries, u, run, _⟩, _⟩
        have okay := @Dev.Ok.withHeader C _ wrote₄.okay
          (savedHeader crc s roots next (s.committedFactPages + pages.length) (crc.finalize hasher))
          count₄ g
        have walk := @Misleading.wp_streamAllEntries H C crc _ Postcard.standard.avet _ okay roots.avet
          (by omega) lost blank
        exact walk.of_ok run
      · intro failed
        exact failed (hf (upTo₅.calm calm₁))
    · intro failed
      exact failed (upTo₅.calm calm₁)
  · rintro _ t ⟨same, why⟩
    simp only at why
    omega

end Saving

/-! ## Rounds -/

section Exact

variable {H C : Type} [DecidableEq C] {crc : Crc H C} {postcard : Postcard}

/-- After every round of a handle on a new file the indexes and the checksum are exact,
and no later round touches the fact pages there were. -/
theorem Rounds.indexes_exact {capacity : Nat} {faults : Option Nat} {rounds later : List (List Fact)}
    {s t : Store H C}
    (h : Rounds crc postcard (Store.init (Dev.create crc capacity faults)) rounds s)
    (h' : Rounds crc postcard s later t) (some_ : rounds ≠ [])
    (keys : ∀ facts ∈ rounds ++ later, ∀ f ∈ facts, f.KeysFit postcard) :
    IndexesExact crc postcard t.dev ∧
      ∀ i, 1 ≤ i → i ≤ s.dev.disk.header.factPageCount → t.dev.disk.page i = s.dev.disk.page i := by
  obtain ⟨placed, clean, committed, none_, _, _⟩ := h.saved (.create capacity faults) rfl
    fun facts hfacts => keys facts (List.mem_append_left _ hfacts)
  obtain ⟨placed', clean', committed', _, _, kept⟩ := h'.saved clean none_
    fun facts hfacts => keys facts (List.mem_append_right _ hfacts)
  refine ⟨clean'.exact (committed' (.inr (committed (.inl some_)))), fun i _ low => kept i ?_⟩
  rwa [clean.synced, (committed (.inl some_)).counted] at low

end Exact

/-- Three rounds of a thousand facts of a few bytes. -/
theorem Rounds.exact_thousands : ∃ s, Rounds Crc.lossless Postcard.standard
      (Store.init (Dev.create Crc.lossless 64 none)) (List.replicate 3 (List.replicate 1000 narrowFact)) s ∧
    IndexesExact Crc.lossless Postcard.standard s.dev := by
  have each {facts : List Fact} {f : Fact}
      (hfacts : facts ∈ List.replicate 3 (List.replicate 1000 narrowFact)) (hf : f ∈ facts) :
      f = narrowFact := by
    rw [List.eq_of_mem_replicate hfacts] at hf
    exact List.eq_of_mem_replicate hf
  obtain ⟨s, _, rounds, _⟩ := @exists_rounds _ _ _ Crc.lossless 64
    (List.replicate 3 (List.replicate 1000 narrowFact))
    (fun facts hfacts f hf => by rw [each hfacts hf]; decide)
    (by rw [List.flatten_replicate_replicate, List.length_replicate, List.length_replicate]; decide)
  refine ⟨s, rounds, (Rounds.indexes_exact rounds .start (by decide) ?_).1⟩
  intro facts hfacts f hf
  rw [List.append_nil] at hfacts
  rw [each hfacts hf]
  exact ⟨by decide, by decide, by decide, by simp [Fact.vaetKey, narrowFact]⟩

/-- One round of two facts whose entries fit a leaf each. -/
theorem Rounds.overlap_not_exact : ∃ s, Rounds Crc.lossless Postcard.standard
      (Store.init (Dev.create Crc.lossless 64 none)) [[narrowFact, textFact (letters 4042)]] s ∧
    ¬ IndexesExact Crc.lossless Postcard.standard s.dev := by
  have start : (Store.init (Dev.create Crc.lossless 64 none) :
      Store (List UInt8) (List UInt8)).Clean Crc.lossless Postcard.standard [] := .create 64 none
  have added := wp_addPending (Store.init (Dev.create Crc.lossless 64 none) :
    Store (List UInt8) (List UInt8)) [narrowFact, textFact (letters 4042)]
  obtain ⟨_, mid, run, appended, same⟩ := (added.mono (fun _ _ h => h) fun _ _ many =>
    absurd many.2 (by simp [Store.init, FactStorage.new])).exists_ok
  have two : TwoPending Crc.lossless (letters 4042) mid := by
    refine ⟨?_, appended.facts, ?_, ?_, ?_, ?_, ?_⟩
    · rw [same]
      exact start.appended appended true
    all_goals rw [same]
    all_goals intros
    all_goals rfl
  obtain ⟨_, t, saved, lost⟩ := (two.wp_save (length_letters 4042)).exists_ok
  obtain ⟨r, r', near, near', placed⟩ := two.placed
  refine ⟨t, .next .start ⟨mid, run, ?_, ?_, saved⟩, lost⟩
  · exact Postcard.pair_fits (length_letters 4042)
  · rw [placed]
    exact Postcard.leavesFit (length_letters 4042) near near'

end Minigraf
