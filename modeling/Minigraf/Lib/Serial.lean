import Minigraf.Lib.Bytes
import Minigraf.Lib.Codec

/-!
Self-delimiting formats: a value is read off the front of the bytes and the rest is
left. They compose by writing one value after another, and each gives a codec.
-/

structure Serial (α : Type) where
  put : α → List UInt8
  get : List UInt8 → Option (α × List UInt8)
  get_put : ∀ a rest, get (put a ++ rest) = some (a, rest)
  put_ne_nil : ∀ a, put a ≠ []

namespace Serial

open Bytes

variable {α β : Type}

/-- One value alone; bytes behind it are ignored. -/
def codec (s : Serial α) : Codec α where
  encode := s.put
  decode bytes := (s.get bytes).map Prod.fst
  decode_encode a := by
    rw [← List.append_nil (s.put a), s.get_put]
    rfl
  encode_ne_nil := s.put_ne_nil

def pair (s : Serial α) (t : Serial β) : Serial (α × β) where
  put p := s.put p.1 ++ t.put p.2
  get bytes := do
    let (a, bytes) ← s.get bytes
    let (b, bytes) ← t.get bytes
    pure ((a, b), bytes)
  get_put p rest := by
    rw [List.append_assoc, s.get_put]
    simp only [Option.bind_eq_bind, Option.bind_some, t.get_put]
    rfl
  put_ne_nil p no := s.put_ne_nil p.1 (List.append_eq_nil_iff.mp no).1

/-- The values of a type written as those of another. -/
def via (s : Serial α) (into : β → α) (back : α → Option β) (inv : ∀ b, back (into b) = some b) :
    Serial β where
  put b := s.put (into b)
  get bytes := do
    let (a, bytes) ← s.get bytes
    let b ← back a
    pure (b, bytes)
  get_put b rest := by
    rw [s.get_put]
    simp only [Option.bind_eq_bind, Option.bind_some, inv]
    rfl
  put_ne_nil b := s.put_ne_nil (into b)

/-! ## Variable-length numbers -/

/-- Seven bits a byte, lowest first, the high bit set on all but the last. -/
def varintBytes : Nat → Nat → List UInt8
  | 0, n => [UInt8.ofNat n]
  | more + 1, n =>
      if n < 128 then [UInt8.ofNat n]
      else UInt8.ofNat (128 + n % 128) :: varintBytes more (n / 128)

def getVarint : List UInt8 → Option (Nat × List UInt8)
  | [] => none
  | b :: rest =>
      if b.toNat < 128 then some (b.toNat, rest)
      else (getVarint rest).map fun (high, rest) => (b.toNat % 128 + 128 * high, rest)

theorem getVarint_varintBytes (more n : Nat) (rest : List UInt8) (h : n < 128 ^ (more + 1)) :
    getVarint (varintBytes more n ++ rest) = some (n, rest) := by
  induction more generalizing n with
  | zero =>
      have byte : (UInt8.ofNat n).toNat = n := by
        rw [UInt8.toNat_ofNat']
        omega
      simp only [varintBytes, List.singleton_append, getVarint, byte]
      rw [if_pos (by omega)]
  | succ more ih =>
      rw [varintBytes]
      split
      · have byte : (UInt8.ofNat n).toNat = n := by
          rw [UInt8.toNat_ofNat']
          omega
        simp only [List.singleton_append, getVarint, byte]
        rw [if_pos ‹_›]
      · have byte : (UInt8.ofNat (128 + n % 128)).toNat = 128 + n % 128 := by
          rw [UInt8.toNat_ofNat']
          omega
        have high : n / 128 < 128 ^ (more + 1) := by
          rw [Nat.div_lt_iff_lt_mul (by decide)]
          exact h
        simp only [List.cons_append, getVarint, byte]
        rw [if_neg (by omega), ih _ high]
        simp only [Option.map_some, Option.some.injEq, Prod.mk.injEq, and_true]
        omega

theorem varintBytes_ne_nil (more n : Nat) : varintBytes more n ≠ [] := by
  cases more with
  | zero => exact List.cons_ne_nil _ _
  | succ more =>
      rw [varintBytes]
      split <;> exact List.cons_ne_nil _ _

theorem lt_pow_log2 (n : Nat) : n < 128 ^ (n.log2 + 1) :=
  calc n < 2 ^ (n.log2 + 1) := Nat.lt_log2_self
    _ ≤ 128 ^ (n.log2 + 1) := Nat.pow_le_pow_left (by decide) _

def varint : Serial Nat where
  put n := varintBytes n.log2 n
  get := getVarint
  get_put n rest := getVarint_varintBytes _ n rest (lt_pow_log2 n)
  put_ne_nil n := varintBytes_ne_nil _ n

theorem length_varintBytes_le {more n k : Nat} (h : n < 128 ^ (k + 1)) :
    (varintBytes more n).length ≤ k + 1 := by
  induction more generalizing n k with
  | zero => exact Nat.le_add_left 1 k
  | succ more ih =>
      rw [varintBytes]
      split
      · exact Nat.le_add_left 1 k
      · cases k with
        | zero => omega
        | succ k =>
            have high : n / 128 < 128 ^ (k + 1) := by
              rw [Nat.div_lt_iff_lt_mul (by decide)]
              exact h
            exact Nat.succ_le_succ (ih high)

/-- A number below `128 ^ (k + 1)` takes at most `k + 1` bytes. -/
theorem length_varint_le {n k : Nat} (h : n < 128 ^ (k + 1)) : (varint.put n).length ≤ k + 1 :=
  length_varintBytes_le h

/-! ## Byte strings -/

/-- A byte string behind its length. -/
def bytes : Serial (List UInt8) where
  put bs := varint.put bs.length ++ bs
  get all := do
    let (n, all) ← varint.get all
    readExact n all
  get_put bs rest := by
    rw [List.append_assoc, varint.get_put]
    simp only [Option.bind_eq_bind, Option.bind_some]
    exact readExact_append rfl rest
  put_ne_nil bs no := varint.put_ne_nil bs.length (List.append_eq_nil_iff.mp no).1

theorem length_bytes (bs : List UInt8) :
    (bytes.put bs).length = (varint.put bs.length).length + bs.length :=
  List.length_append

/-- One byte. -/
def byte : Serial UInt8 where
  put b := [b]
  get
    | [] => none
    | b :: rest => some (b, rest)
  get_put _ _ := rfl
  put_ne_nil _ := List.cons_ne_nil _ _

/-- Bytes of a fixed width, not preceded by their number. -/
def fixed (w : Nat) (positive : 0 < w) : Serial { bs : List UInt8 // bs.length = w } where
  put bs := bs.val
  get all :=
    if h : w ≤ all.length then some (⟨all.take w, List.length_take_of_le h⟩, all.drop w) else none
  get_put bs rest := by
    obtain ⟨bs, rfl⟩ := bs
    simp
  put_ne_nil bs no := by
    have width := bs.property
    rw [no] at width
    exact absurd width (Nat.ne_of_lt positive)

/-- Text as its UTF-8 bytes. -/
def text : Serial String :=
  bytes.via (fun s => s.toUTF8.data.toList) (fun bs => String.fromUTF8? bs.toByteArray) fun s => by
    have same : s.toUTF8.data.toList.toByteArray = s.toByteArray :=
      ByteArray.ext (by simp [String.toUTF8])
    rw [same, String.fromUTF8?, dif_pos s.isValidUTF8]
    rfl

/-! ## Lists -/

/-- A number of values one after the other. -/
def getItems (s : Serial α) : Nat → List UInt8 → Option (List α × List UInt8)
  | 0, all => some ([], all)
  | n + 1, all => do
      let (a, all) ← s.get all
      let (items, all) ← getItems s n all
      pure (a :: items, all)

theorem getItems_flatMap (s : Serial α) (items : List α) (rest : List UInt8) :
    getItems s items.length (items.flatMap s.put ++ rest) = some (items, rest) := by
  induction items with
  | nil => rfl
  | cons a items ih =>
      rw [List.flatMap_cons, List.append_assoc, List.length_cons, getItems, s.get_put]
      simp only [Option.bind_eq_bind, Option.bind_some, ih]
      rfl

/-- A list behind its length. -/
def list (s : Serial α) : Serial (List α) where
  put items := varint.put items.length ++ items.flatMap s.put
  get all := do
    let (n, all) ← varint.get all
    getItems s n all
  get_put items rest := by
    rw [List.append_assoc, varint.get_put]
    exact getItems_flatMap s items rest
  put_ne_nil items no := varint.put_ne_nil items.length (List.append_eq_nil_iff.mp no).1

end Serial
