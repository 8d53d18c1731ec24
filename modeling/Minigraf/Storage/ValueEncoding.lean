import Minigraf.Lib.BigEndian
import Minigraf.Lib.Bytes
import Minigraf.Query.FloatBits
import Minigraf.Storage.Index

/-!
The canonical encoding of values: it tells apart all values but NaNs, and the encodings of
two values of one variant compare as the values do.

A word is eight bytes, most significant first, so its bytes compare as the word does. The
sign transforms turn signed integers and floats into words in their order.
-/

namespace Minigraf

/-! ## Words -/

theorem shiftRight_byte (n k : Nat) : n >>> (k + 8) = n >>> k / 256 := by
  rw [Nat.shiftRight_add, Nat.shiftRight_eq_div_pow (n >>> k)]

theorem beNat_toBeBytes (w : UInt64) : beNat (toBeBytes w) = w.toNat := by
  have range := w.toNat_lt
  have top : w.toNat >>> 56 < 256 := by
    rw [Nat.shiftRight_eq_div_pow]
    omega
  have b7 := shiftRight_byte w.toNat 48
  have b6 := shiftRight_byte w.toNat 40
  have b5 := shiftRight_byte w.toNat 32
  have b4 := shiftRight_byte w.toNat 24
  have b3 := shiftRight_byte w.toNat 16
  have b2 := shiftRight_byte w.toNat 8
  have b1 : w.toNat >>> 8 = w.toNat / 256 := shiftRight_byte w.toNat 0
  change w.toNat >>> 56 % 256 * 256 ^ 7 + (w.toNat >>> 48 % 256 * 256 ^ 6 +
    (w.toNat >>> 40 % 256 * 256 ^ 5 + (w.toNat >>> 32 % 256 * 256 ^ 4 + (w.toNat >>> 24 % 256 * 256 ^ 3 +
    (w.toNat >>> 16 % 256 * 256 ^ 2 + (w.toNat >>> 8 % 256 * 256 ^ 1 + (w.toNat % 256 * 256 ^ 0 + 0))))))) = _
  omega

theorem length_toBeBytes (w : UInt64) : (toBeBytes w).length = 8 := rfl

theorem length_uuidBytes (id : EntityId) : (uuidBytes id).length = 16 := rfl

theorem toBeBytes_lt_iff {w w' : UInt64} : toBeBytes w < toBeBytes w' ↔ w.toNat < w'.toNat := by
  have widths := (length_toBeBytes w).trans (length_toBeBytes w').symm
  rw [lt_iff_beNat_lt widths, beNat_toBeBytes, beNat_toBeBytes]

theorem toBeBytes_inj {w w' : UInt64} : toBeBytes w = toBeBytes w' ↔ w = w' := by
  have widths := (length_toBeBytes w).trans (length_toBeBytes w').symm
  rw [eq_iff_beNat_eq widths, beNat_toBeBytes, beNat_toBeBytes, UInt64.toNat_inj]

theorem beNat_uuidBytes (id : EntityId) : beNat (uuidBytes id) = id.val := by
  have range := id.isLt
  have high : (UInt64.ofNat (id.val / 2 ^ 64)).toNat = id.val / 2 ^ 64 := UInt64.toNat_ofNat_of_lt' (by
    change _ < 2 ^ 64
    omega)
  have low : (UInt64.ofNat (id.val % 2 ^ 64)).toNat = id.val % 2 ^ 64 := UInt64.toNat_ofNat_of_lt' (by
    change _ < 2 ^ 64
    omega)
  rw [uuidBytes, beNat_append, beNat_toBeBytes, beNat_toBeBytes, high, low]
  change _ * 256 ^ 8 + _ = _
  omega

theorem uuidBytes_lt_iff {x y : EntityId} : uuidBytes x < uuidBytes y ↔ x < y := by
  have widths := (length_uuidBytes x).trans (length_uuidBytes y).symm
  rw [lt_iff_beNat_lt widths, beNat_uuidBytes, beNat_uuidBytes, Fin.lt_def]

theorem uuidBytes_inj {x y : EntityId} : uuidBytes x = uuidBytes y ↔ x = y := by
  have widths := (length_uuidBytes x).trans (length_uuidBytes y).symm
  rw [eq_iff_beNat_eq widths, beNat_uuidBytes, beNat_uuidBytes, Fin.val_inj]

theorem utf8_inj {s t : String} : s.toUTF8.toList = t.toUTF8.toList ↔ s = t := by
  rw [Bytes.toList_eq_data, Bytes.toList_eq_data, Array.toList_inj]
  constructor
  · intro same
    apply String.toByteArray_inj.mp
    exact ByteArray.ext same
  · intro same
    rw [same]

/-! ## Integers -/

theorem toInt_eq (i : Int64) : i.toInt =
    if i.toUInt64.toNat < 2 ^ 63 then (i.toUInt64.toNat : Int) else i.toUInt64.toNat - 2 ^ 64 := by
  have meaning : i.toInt = if 2 * i.toUInt64.toNat < 2 ^ 64 then (i.toUInt64.toNat : Int)
      else i.toUInt64.toNat - (2 ^ 64 : Nat) := BitVec.toInt_eq_toNat_cond _
  rw [meaning]
  split <;> split <;> omega

/-- The word of an integer stands above that of the least one by as much as it does. -/
theorem integerWord (i : Int64) : ((i.toUInt64 ^^^ 0x8000000000000000).toNat : Int) = i.toInt + 2 ^ 63 := by
  rw [toNat_xor_sign, toInt_eq]
  split <;> omega

theorem integerWord_lt_iff {i j : Int64} :
    (i.toUInt64 ^^^ 0x8000000000000000).toNat < (j.toUInt64 ^^^ 0x8000000000000000).toNat ↔ i < j := by
  have first := integerWord i
  have second := integerWord j
  rw [Int64.lt_iff_toInt_lt]
  omega

/-! ## Floats -/

/-- The numeric order of floats that are no NaN, `-0.0` before `+0.0`. -/
def F64.Before (f g : F64) : Prop :=
  f.place < g.place ∨ f.place = g.place ∧ f.isNegative = true ∧ g.isNegative = false

theorem toNat_floatSortBits {f : F64} (number : f.isNaN = false) : (floatSortBits f).toNat =
    if f.bits.toNat < 2 ^ 63 then 2 ^ 63 + f.bits.toNat else 2 ^ 64 - 1 - f.bits.toNat := by
  rw [floatSortBits, if_neg (by simp [number])]
  simp only [shiftRight_sign_iff]
  split
  · rw [toNat_xor_sign, if_pos (by assumption)]
  · rw [toNat_not]

theorem floatSortBits_lt_iff {f g : F64} (number : f.isNaN = false) (number' : g.isNaN = false) :
    (floatSortBits f).toNat < (floatSortBits g).toNat ↔ f.Before g := by
  have range := f.bits.toNat_lt
  have range' := g.bits.toNat_lt
  rw [toNat_floatSortBits number, toNat_floatSortBits number', F64.Before, F64.place_eq, F64.place_eq,
    ← Bool.not_eq_true g.isNegative, F64.isNegative_iff, F64.isNegative_iff]
  split <;> split <;> omega

theorem floatSortBits_inj {f g : F64} (number : f.isNaN = false) (number' : g.isNaN = false) :
    floatSortBits f = floatSortBits g ↔ f = g := by
  constructor
  · intro same
    have range := f.bits.toNat_lt
    have range' := g.bits.toNat_lt
    have words := congrArg UInt64.toNat same
    rw [toNat_floatSortBits number, toNat_floatSortBits number'] at words
    have bits : f.bits.toNat = g.bits.toNat := by split at words <;> split at words <;> omega
    cases f
    cases g
    exact congrArg F64.mk (UInt64.toNat_inj.mp bits)
  · exact congrArg floatSortBits

/-! ## Values -/

/-- The natural order of each variant. -/
inductive Value.Before : Value → Value → Prop where
  | boolean : Before (.boolean false) (.boolean true)
  | integer {i j : Int64} (lt : i < j) : Before (.integer i) (.integer j)
  | float {f g : F64} (before : f.Before g) : Before (.float f) (.float g)
  | string {s t : String} (lt : s.toUTF8.toList < t.toUTF8.toList) : Before (.string s) (.string t)
  | keyword {k l : String} (lt : k.toUTF8.toList < l.toUTF8.toList) : Before (.keyword k) (.keyword l)
  | ref {x y : EntityId} (lt : x < y) : Before (.ref x) (.ref y)

/-- What every NaN is encoded as. -/
def nanBytes : List UInt8 := 0x03 :: toBeBytes 0x7FF8000000000000

/-- The negative subnormal that shares its encoding with the NaNs. -/
def nanTwin : F64 := ⟨0x8007FFFFFFFFFFFF⟩

theorem encodeValue_of_isNaN {f : F64} (nan : f.isNaN = true) : encodeValue (.float f) = nanBytes := by
  rw [encodeValue, floatSortBits, if_pos nan, nanBytes]

/-- The first byte of the encoding. -/
def Value.tag : Value → UInt8
  | .null => 0x00
  | .boolean _ => 0x01
  | .integer _ => 0x02
  | .float _ => 0x03
  | .string _ => 0x04
  | .keyword _ => 0x05
  | .ref _ => 0x06

theorem head?_encodeValue (v : Value) : (encodeValue v).head? = some v.tag := by
  cases v <;> rfl

theorem discriminant_of_tag {a b : Value} (same : a.tag = b.tag) : a.discriminant = b.discriminant := by
  cases a <;> cases b <;> first | rfl | exact absurd same (by simp [Value.tag])

/-- Values that encode alike are of one variant. -/
theorem discriminant_of_encodeValue {a b : Value} (same : encodeValue a = encodeValue b) :
    a.discriminant = b.discriminant := by
  have heads := congrArg List.head? same
  rw [head?_encodeValue, head?_encodeValue, Option.some_inj] at heads
  exact discriminant_of_tag heads

theorem integerWord_inj {i j : Int64} :
    i.toUInt64 ^^^ 0x8000000000000000 = j.toUInt64 ^^^ 0x8000000000000000 ↔ i = j := by
  constructor
  · intro same
    have first := integerWord i
    have second := integerWord j
    rw [same] at first
    apply Int64.toInt_inj.mp
    omega
  · intro same
    rw [same]

theorem encodeValue_inj {a b : Value} (number : ¬ a.IsNaN) (number' : ¬ b.IsNaN) :
    encodeValue a = encodeValue b ↔ a = b := by
  refine ⟨fun same => ?_, congrArg encodeValue⟩
  have variant := discriminant_of_encodeValue same
  have payload := congrArg List.tail same
  cases a with
  | string s =>
      cases b with
      | string t => exact congrArg _ (utf8_inj.mp payload)
      | integer _ | float _ | boolean _ | ref _ | keyword _ | null => cases variant
  | integer i =>
      cases b with
      | integer j => exact congrArg _ (integerWord_inj.mp (toBeBytes_inj.mp payload))
      | string _ | float _ | boolean _ | ref _ | keyword _ | null => cases variant
  | float f =>
      cases b with
      | float g =>
          have words := toBeBytes_inj.mp payload
          exact congrArg _ ((floatSortBits_inj (eq_false_of_ne_true number) (eq_false_of_ne_true number')).mp words)
      | string _ | integer _ | boolean _ | ref _ | keyword _ | null => cases variant
  | boolean c =>
      cases b with
      | boolean d => cases c <;> cases d <;> first | rfl | cases payload
      | string _ | integer _ | float _ | ref _ | keyword _ | null => cases variant
  | ref x =>
      cases b with
      | ref y => exact congrArg _ (uuidBytes_inj.mp payload)
      | string _ | integer _ | float _ | boolean _ | keyword _ | null => cases variant
  | keyword k =>
      cases b with
      | keyword l => exact congrArg _ (utf8_inj.mp payload)
      | string _ | integer _ | float _ | boolean _ | ref _ | null => cases variant
  | null =>
      cases b with
      | null => rfl
      | string _ | integer _ | float _ | boolean _ | ref _ | keyword _ => cases variant

theorem tagged_lt_iff (tag : UInt8) (bytes bytes' : List UInt8) : tag :: bytes < tag :: bytes' ↔ bytes < bytes' := by
  simp

theorem encodeValue_lt_iff {a b : Value} (number : ¬ a.IsNaN) (number' : ¬ b.IsNaN)
    (variant : a.discriminant = b.discriminant) : encodeValue a < encodeValue b ↔ a.Before b := by
  cases a with
  | string s =>
      cases b with
      | string t => exact (tagged_lt_iff _ _ _).trans ⟨.string, fun | .string lt => lt⟩
      | integer _ | float _ | boolean _ | ref _ | keyword _ | null => cases variant
  | integer i =>
      cases b with
      | integer j =>
          have words := toBeBytes_lt_iff.trans (integerWord_lt_iff (i := i) (j := j))
          exact ((tagged_lt_iff _ _ _).trans words).trans ⟨.integer, fun | .integer lt => lt⟩
      | string _ | float _ | boolean _ | ref _ | keyword _ | null => cases variant
  | float f =>
      cases b with
      | float g =>
          have words := toBeBytes_lt_iff.trans
            (floatSortBits_lt_iff (eq_false_of_ne_true number) (eq_false_of_ne_true number'))
          exact ((tagged_lt_iff _ _ _).trans words).trans ⟨.float, fun | .float before => before⟩
      | string _ | integer _ | boolean _ | ref _ | keyword _ | null => cases variant
  | boolean c =>
      cases b with
      | boolean d =>
          cases c <;> cases d
          · exact iff_of_false (lt_irrefl _) fun no => nomatch no
          · exact iff_of_true (by decide) .boolean
          · exact iff_of_false (by decide) fun no => nomatch no
          · exact iff_of_false (lt_irrefl _) fun no => nomatch no
      | string _ | integer _ | float _ | ref _ | keyword _ | null => cases variant
  | ref x =>
      cases b with
      | ref y => exact ((tagged_lt_iff _ _ _).trans uuidBytes_lt_iff).trans ⟨.ref, fun | .ref lt => lt⟩
      | string _ | integer _ | float _ | boolean _ | keyword _ | null => cases variant
  | keyword k =>
      cases b with
      | keyword l => exact (tagged_lt_iff _ _ _).trans ⟨.keyword, fun | .keyword lt => lt⟩
      | string _ | integer _ | float _ | boolean _ | ref _ | null => cases variant
  | null =>
      cases b with
      | null => exact iff_of_false (lt_irrefl _) fun no => nomatch no
      | string _ | integer _ | float _ | boolean _ | ref _ | keyword _ => cases variant

/-- The bytes of the NaNs are those of the twin as well. -/
theorem encodeValue_nanTwin : encodeValue (.float nanTwin) = nanBytes := rfl

theorem encodeValue_eq_nanBytes_iff {v : Value} (number : ¬ v.IsNaN) :
    encodeValue v = nanBytes ↔ v = .float nanTwin := by
  rw [← encodeValue_nanTwin]
  exact encodeValue_inj number Bool.false_ne_true

/-- Values that are no NaNs have the same encoding exactly if they are the same, and those of
one variant compare as their encodings do. All NaNs share one encoding, which is that of one
value besides, a negative subnormal. -/
theorem encodeValue_canonical :
    (∀ a b : Value, ¬ a.IsNaN → ¬ b.IsNaN → (encodeValue a = encodeValue b ↔ a = b)) ∧
    (∀ a b : Value, ¬ a.IsNaN → ¬ b.IsNaN → a.discriminant = b.discriminant →
      (encodeValue a < encodeValue b ↔ a.Before b)) ∧
    (∀ f : F64, f.isNaN = true → encodeValue (.float f) = nanBytes) ∧
    ∀ v : Value, ¬ v.IsNaN → (encodeValue v = nanBytes ↔ v = .float nanTwin) :=
  ⟨fun _ _ => encodeValue_inj, fun _ _ => encodeValue_lt_iff, fun _ => encodeValue_of_isNaN,
    fun _ => encodeValue_eq_nanBytes_iff⟩

end Minigraf
