import Minigraf.Lib.Serial
import Minigraf.Storage.Image

/-!
The postcard format of facts, index keys and index entries: numbers as varints, signed
ones in zigzag order, text and UUIDs behind their length, floats as eight bytes, enums
behind the number of their variant. The rest of the development takes the format as a
parameter; here is the one that the source's derived serialisers write.
-/

namespace Minigraf

open Bytes

/-- Signed numbers as unsigned ones, small ones first. -/
def zigzag : Int → Nat
  | .ofNat n => 2 * n
  | .negSucc n => 2 * n + 1

def unzigzag (n : Nat) : Int :=
  if n % 2 = 0 then .ofNat (n / 2) else .negSucc (n / 2)

theorem unzigzag_zigzag (i : Int) : unzigzag (zigzag i) = i := by
  cases i with
  | ofNat n =>
      rw [zigzag, unzigzag, if_pos (by omega)]
      congr 1
      omega
  | negSucc n =>
      rw [zigzag, unzigzag, if_neg (by omega)]
      congr 1
      omega

theorem zigzag_lt {i : Int} {n : Nat} (low : -n ≤ i) (high : i < n) : zigzag i < 2 * n := by
  cases i with
  | ofNat m =>
      rw [zigzag]
      have : m < n := Int.ofNat_lt.mp high
      omega
  | negSucc m =>
      rw [zigzag]
      omega

namespace Postcard

def u64 : Serial UInt64 :=
  Serial.varint.via UInt64.toNat (some ∘ UInt64.ofNat) fun _ => congrArg some UInt64.ofNat_toNat

def i64 : Serial Int64 :=
  Serial.varint.via (fun i => zigzag i.toInt) (fun n => some (Int64.ofInt (unzigzag n))) fun i => by
    rw [unzigzag_zigzag, Int64.ofInt_toInt]

def bool : Serial Bool :=
  Serial.byte.via (fun b => if b then 1 else 0)
    (fun n => if n = 0 then some false else if n = 1 then some true else none) fun b => by
      cases b <;> rfl

def f64 : Serial F64 :=
  (Serial.fixed 8 (by decide)).via (fun f => ⟨leBytes 8 f.bits.toNat, length_leBytes 8 _⟩)
    (fun bs => some ⟨UInt64.ofNat (leNat bs.val)⟩) fun f => by
      rw [leNat_leBytes 8 _ f.bits.toNat_lt, UInt64.ofNat_toNat]

/-- A UUID is its sixteen bytes, most significant first, behind their number. -/
def uuid : Serial EntityId :=
  Serial.bytes.via (fun id => (leBytes 16 id.val).reverse)
    (fun bs =>
      if h : leNat bs.reverse < 2 ^ 128 then if bs.length = 16 then some ⟨_, h⟩ else none
      else none)
    fun id => by
      have same : leNat (leBytes 16 id.val) = id.val := leNat_leBytes 16 _ id.isLt
      simp only [List.reverse_reverse, same, id.isLt, dite_true, List.length_reverse, length_leBytes,
        if_true]

/-- The number of a variant, then what it carries. -/
def putValue : Value → List UInt8
  | .string s => 0 :: Serial.text.put s
  | .integer i => 1 :: i64.put i
  | .float f => 2 :: f64.put f
  | .boolean b => 3 :: bool.put b
  | .ref id => 4 :: uuid.put id
  | .keyword k => 5 :: Serial.text.put k
  | .null => [6]

def getValue : List UInt8 → Option (Value × List UInt8)
  | [] => none
  | tag :: rest =>
      match tag.toNat with
      | 0 => (Serial.text.get rest).map fun (s, rest) => (.string s, rest)
      | 1 => (i64.get rest).map fun (i, rest) => (.integer i, rest)
      | 2 => (f64.get rest).map fun (f, rest) => (.float f, rest)
      | 3 => (bool.get rest).map fun (b, rest) => (.boolean b, rest)
      | 4 => (uuid.get rest).map fun (id, rest) => (.ref id, rest)
      | 5 => (Serial.text.get rest).map fun (k, rest) => (.keyword k, rest)
      | 6 => some (.null, rest)
      | _ => none

def value : Serial Value where
  put := putValue
  get := getValue
  get_put v rest := by
    cases v with
    | string s => simp [putValue, getValue, Serial.text.get_put]
    | integer i => simp [putValue, getValue, i64.get_put]
    | float f => simp [putValue, getValue, f64.get_put]
    | boolean b => simp [putValue, getValue, bool.get_put]
    | ref id => simp [putValue, getValue, uuid.get_put]
    | keyword k => simp [putValue, getValue, Serial.text.get_put]
    | null => simp [putValue, getValue]
  put_ne_nil v := by cases v <;> exact List.cons_ne_nil _ _

/-! ## Records: one field after the other -/

def factFields : Serial Fact :=
  (uuid.pair (Serial.text.pair (value.pair (u64.pair (u64.pair (i64.pair (i64.pair bool))))))).via
    (fun f => (f.entity, f.attr, f.value, f.txId, f.txCount, f.validFrom, f.validTo, f.asserted))
    (fun (entity, attr, value, txId, txCount, validFrom, validTo, asserted) =>
      some ⟨entity, attr, value, txId, txCount, validFrom, validTo, asserted⟩)
    fun _ => rfl

def eavtKey : Serial EavtKey :=
  (uuid.pair (Serial.text.pair (i64.pair (i64.pair u64)))).via
    (fun k => (k.entity, k.attr, k.validFrom, k.validTo, k.txCount))
    (fun (entity, attr, validFrom, validTo, txCount) => some ⟨entity, attr, validFrom, validTo, txCount⟩)
    fun _ => rfl

def aevtKey : Serial AevtKey :=
  (Serial.text.pair (uuid.pair (i64.pair (i64.pair u64)))).via
    (fun k => (k.attr, k.entity, k.validFrom, k.validTo, k.txCount))
    (fun (attr, entity, validFrom, validTo, txCount) => some ⟨attr, entity, validFrom, validTo, txCount⟩)
    fun _ => rfl

def avetKey : Serial AvetKey :=
  (Serial.text.pair (Serial.bytes.pair (i64.pair (i64.pair (uuid.pair u64))))).via
    (fun k => (k.attr, k.valueBytes, k.validFrom, k.validTo, k.entity, k.txCount))
    (fun (attr, valueBytes, validFrom, validTo, entity, txCount) =>
      some ⟨attr, valueBytes, validFrom, validTo, entity, txCount⟩)
    fun _ => rfl

def vaetKey : Serial VaetKey :=
  (uuid.pair (Serial.text.pair (i64.pair (i64.pair (uuid.pair u64))))).via
    (fun k => (k.refTarget, k.attr, k.validFrom, k.validTo, k.sourceEntity, k.txCount))
    (fun (refTarget, attr, validFrom, validTo, sourceEntity, txCount) =>
      some ⟨refTarget, attr, validFrom, validTo, sourceEntity, txCount⟩)
    fun _ => rfl

def factRef : Serial FactRef :=
  (Serial.varint.pair Serial.varint).via (fun r => (r.pageId, r.slotIndex))
    (fun (pageId, slotIndex) => some ⟨pageId, slotIndex⟩) fun _ => rfl

def indexCodec {K : Type} (key : Serial K) : IndexCodec K where
  key := key.codec
  entry := (key.pair factRef).codec

/-- The format the source writes. -/
def standard : Postcard where
  fact := factFields.codec
  eavt := indexCodec eavtKey
  aevt := indexCodec aevtKey
  avet := indexCodec avetKey
  vaet := indexCodec vaetKey

/-! ## Sizes -/

theorem length_u64_le (n : UInt64) : (u64.put n).length ≤ 10 := by
  have bound : n.toNat < 128 ^ (9 + 1) := Nat.lt_trans n.toNat_lt (by decide)
  exact Serial.length_varint_le bound

theorem length_i64_le (i : Int64) : (i64.put i).length ≤ 10 := by
  have low := i.le_toInt
  have high := i.toInt_lt
  have bound : zigzag i.toInt < 128 ^ (9 + 1) := by
    have := @zigzag_lt i.toInt (2 ^ 63) (by exact_mod_cast low) (by exact_mod_cast high)
    omega
  exact Serial.length_varint_le bound

theorem length_bool (b : Bool) : (bool.put b).length = 1 := rfl

theorem length_uuid (id : EntityId) : (uuid.put id).length = 17 := by
  have sixteen : ((leBytes 16 id.val).reverse).length = 16 := by simp
  have head : (Serial.varint.put 16).length = 1 := by decide
  show (Serial.bytes.put (leBytes 16 id.val).reverse).length = 17
  rw [Serial.length_bytes, sixteen, head]

/-- The bytes of a text. -/
def textBytes (s : String) : Nat := s.toUTF8.data.toList.length

theorem length_text_le {s : String} (short : textBytes s < 2 ^ 14) :
    (Serial.text.put s).length ≤ textBytes s + 2 := by
  have head : (Serial.varint.put (textBytes s)).length ≤ 1 + 1 := Serial.length_varint_le short
  have size := Serial.length_bytes s.toUTF8.data.toList
  have same : (Serial.text.put s).length = (Serial.bytes.put s.toUTF8.data.toList).length := rfl
  simp only [textBytes] at head ⊢
  omega

/-- The bytes a value takes beside its variant and a length. -/
def valueBytes : Value → Nat
  | .string s | .keyword s => textBytes s
  | _ => 16

theorem length_value_le {v : Value} (short : valueBytes v < 2 ^ 14) :
    (value.put v).length ≤ valueBytes v + 3 := by
  cases v with
  | string s | keyword s => exact Nat.succ_le_succ (length_text_le short)
  | integer i =>
      have := length_i64_le i
      exact (by omega : (i64.put i).length + 1 ≤ 16 + 3)
  | float f =>
      have : (f64.put f).length = 8 := length_leBytes 8 _
      exact (by omega : (f64.put f).length + 1 ≤ 16 + 3)
  | boolean b => exact (by decide : 1 + 1 ≤ 16 + 3)
  | ref id =>
      have := length_uuid id
      exact (by omega : (uuid.put id).length + 1 ≤ 16 + 3)
  | null => exact (by decide : 1 ≤ 16 + 3)

theorem length_encodeValue_le (v : Value) : (encodeValue v).length ≤ valueBytes v + 1 := by
  cases v with
  | string s | keyword s =>
      simp only [encodeValue, List.length_cons, toList_eq_data]
      exact Nat.le_refl _
  | integer | float | boolean | ref | null =>
      simp [encodeValue, valueBytes, toBeBytes, uuidBytes]

/-- The bytes of a fact's attribute and value. -/
def factBytes (f : Fact) : Nat := textBytes f.attr + valueBytes f.value

theorem length_factFields_le {f : Fact} (short : factBytes f < 2 ^ 14) :
    (factFields.put f).length ≤ factBytes f + 63 := by
  rw [factBytes] at short ⊢
  have attr := @length_text_le f.attr (by omega)
  have val := @length_value_le f.value (by omega)
  have id := length_uuid f.entity
  have txId := length_u64_le f.txId
  have txCount := length_u64_le f.txCount
  have validFrom := length_i64_le f.validFrom
  have validTo := length_i64_le f.validTo
  have asserted := length_bool f.asserted
  simp only [factFields, Serial.via, Serial.pair, List.length_append]
  omega

/-- A fact with room for the rest in its record. -/
theorem fits {f : Fact} (small : factBytes f ≤ 3900) : f.Fits standard.fact := by
  have size := @length_factFields_le f (by omega)
  simp only [Fact.Fits, standard, Serial.codec, MAX_FACT_BYTES, PAGE_SIZE, PACKED_HEADER_SIZE]
  omega

theorem length_factRef_le {r : FactRef} (page : r.pageId < 2 ^ 63) (slot : r.slotIndex < 2 ^ 63) :
    (factRef.put r).length ≤ 18 := by
  have pageId : (Serial.varint.put r.pageId).length ≤ 8 + 1 := Serial.length_varint_le page
  have slotIndex : (Serial.varint.put r.slotIndex).length ≤ 8 + 1 := Serial.length_varint_le slot
  simp only [factRef, Serial.via, Serial.pair, List.length_append]
  omega

/-- Facts that are small, at places with page and slot numbers of nine bytes. -/
structure Small (p : Fact × FactRef) : Prop where
  bytes : factBytes p.1 ≤ 3900
  page : p.2.pageId < 2 ^ 63
  slot : p.2.slotIndex < 2 ^ 63

/-- Keys of at most 64 bytes beside the attribute and the value fit the pages. -/
theorem entriesFit {K : Type} {key : Serial K} {keyOf : Fact → Option K}
    {placed : List (Fact × FactRef)} (small : ∀ p ∈ placed, Small p)
    (size : ∀ f, factBytes f < 2 ^ 14 → ∀ k ∈ keyOf f, (key.put k).length ≤ factBytes f + 64) :
    EntriesFit (indexCodec key) keyOf placed := by
  intro e he
  obtain ⟨p, hp, hkey⟩ := List.mem_filterMap.mp he
  obtain ⟨k, hk, rfl⟩ := Option.map_eq_some_iff.mp hkey
  obtain ⟨bytes, page, slot⟩ := small p hp
  have keySize := size p.1 (by omega) k hk
  have refSize := length_factRef_le page slot
  constructor
  · simp only [indexCodec, Serial.codec, Serial.pair, List.length_append, LEAF_HEADER_SIZE, PAGE_SIZE]
    omega
  · simp only [SepFits, indexCodec, Serial.codec, INTERNAL_HEADER_SIZE, PAGE_SIZE]
    omega

theorem indexFits {placed : List (Fact × FactRef)} (small : ∀ p ∈ placed, Small p) :
    IndexFits standard placed := by
  have text (f : Fact) (short : factBytes f < 2 ^ 14) :
      (Serial.text.put f.attr).length ≤ textBytes f.attr + 2 := by
    rw [factBytes] at short
    exact length_text_le (by omega)
  constructor
  · refine entriesFit small fun f short k hk => ?_
    cases hk
    have attr := text f short
    have id := length_uuid f.entity
    have txCount := length_u64_le f.txCount
    have validFrom := length_i64_le f.validFrom
    have validTo := length_i64_le f.validTo
    simp only [eavtKey, Fact.eavtKey, Serial.via, Serial.pair, List.length_append, factBytes]
    omega
  · refine entriesFit small fun f short k hk => ?_
    cases hk
    have attr := text f short
    have id := length_uuid f.entity
    have txCount := length_u64_le f.txCount
    have validFrom := length_i64_le f.validFrom
    have validTo := length_i64_le f.validTo
    simp only [aevtKey, Fact.aevtKey, Serial.via, Serial.pair, List.length_append, factBytes]
    omega
  · refine entriesFit small fun f short k hk => ?_
    cases hk
    have attr := text f short
    have value := length_encodeValue_le f.value
    have short' : (encodeValue f.value).length < 128 ^ (2 + 1) := by
      rw [factBytes] at short
      omega
    have head := Serial.length_varint_le short'
    have id := length_uuid f.entity
    have txCount := length_u64_le f.txCount
    have validFrom := length_i64_le f.validFrom
    have validTo := length_i64_le f.validTo
    simp only [avetKey, Fact.avetKey, Serial.via, Serial.pair, List.length_append, Serial.length_bytes,
      factBytes]
    omega
  · refine entriesFit small fun f short k hk => ?_
    rw [Fact.vaetKey] at hk
    split at hk
    · cases hk
      rename_i target isRef
      have attr := text f short
      have target := length_uuid target
      have id := length_uuid f.entity
      have txCount := length_u64_le f.txCount
      have validFrom := length_i64_le f.validFrom
      have validTo := length_i64_le f.validTo
      simp only [vaetKey, Serial.via, Serial.pair, List.length_append, factBytes, isRef, valueBytes]
      omega
    · cases hk

end Postcard
end Minigraf
