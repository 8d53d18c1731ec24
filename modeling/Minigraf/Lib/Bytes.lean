import Mathlib.Data.List.Basic
import Mathlib.Tactic.Ring

/-!
Byte strings as lists: little-endian numbers, reading a front of known width, and
reading and writing a slice of a fixed-size buffer.

A buffer is read back through two rules: a slice that was just written is what was
written, and a slice apart from it is what it was. Everything a page layout needs
follows from these and from the arithmetic of its offsets.
-/

namespace Bytes

/-! ## Little-endian numbers -/

/-- The low `w` bytes of `n`, least significant first. -/
def leBytes : Nat → Nat → List UInt8
  | 0, _ => []
  | w + 1, n => UInt8.ofNat (n % 256) :: leBytes w (n / 256)

/-- The number little-endian bytes spell. -/
def leNat : List UInt8 → Nat
  | [] => 0
  | b :: bs => b.toNat + 256 * leNat bs

@[simp] theorem length_leBytes (w n : Nat) : (leBytes w n).length = w := by
  induction w generalizing n with
  | zero => rfl
  | succ w ih => simp [leBytes, ih]

theorem leNat_leBytes (w n : Nat) (h : n < 256 ^ w) : leNat (leBytes w n) = n := by
  induction w generalizing n with
  | zero =>
      have zero : n = 0 := by simpa using h
      subst zero
      rfl
  | succ w ih =>
      have small : n / 256 < 256 ^ w := by
        apply (Nat.div_lt_iff_lt_mul (by decide : 0 < 256)).mpr
        simpa only [Nat.pow_succ] using h
      have low : (UInt8.ofNat (n % 256)).toNat = n % 256 := by simp
      rw [leBytes, leNat, ih _ small, low]
      omega

/-! ## Byte arrays -/

theorem toList_loop (bs : ByteArray) (i : Nat) (read : List UInt8) :
    ByteArray.toList.loop bs i read = read.reverse ++ bs.data.toList.drop i := by
  induction left : bs.size - i generalizing i read with
  | zero =>
      have done : bs.data.toList.length ≤ i := by
        rw [Array.length_toList]
        exact Nat.sub_eq_zero_iff_le.mp left
      rw [ByteArray.toList.loop, if_neg (by omega), List.drop_eq_nil_of_le done, List.append_nil]
  | succ left ih =>
      have inside : i < bs.data.toList.length := by
        rw [Array.length_toList]
        exact (by omega : i < bs.size)
      have here : bs.get! i = bs.data.toList[i] := by
        rw [Array.length_toList] at inside
        rw [ByteArray.get!, Array.getElem_toList, getElem!_pos bs.data i inside]
      rw [ByteArray.toList.loop, if_pos (by omega), ih _ _ (by omega), List.drop_eq_getElem_cons inside,
        List.reverse_cons, List.append_assoc, List.singleton_append, here]

theorem toList_eq_data (bs : ByteArray) : bs.toList = bs.data.toList := toList_loop bs 0 []

/-! ## Reading a front -/

/-- Split off the first `n` bytes, as `read_exact` does: `none` at end of file. -/
def readExact (n : Nat) (bytes : List UInt8) : Option (List UInt8 × List UInt8) :=
  if n ≤ bytes.length then some (bytes.take n, bytes.drop n) else none

theorem readExact_append {front : List UInt8} {n : Nat} (width : front.length = n)
    (rest : List UInt8) : readExact n (front ++ rest) = some (front, rest) := by
  subst width
  simp [readExact]

theorem readExact_length {n : Nat} {bytes front rest : List UInt8}
    (h : readExact n bytes = some (front, rest)) :
    front.length = n ∧ bytes = front ++ rest := by
  unfold readExact at h
  split at h
  · cases h
    simp_all
  · cases h

/-! ## Slices of a buffer -/

/-- The `len` bytes at `off`, when they lie inside the buffer. -/
def readAt (buf : List UInt8) (off len : Nat) : Option (List UInt8) :=
  if off + len ≤ buf.length then some ((buf.drop off).take len) else none

/-- Overwrite the buffer from `off` on with `bytes`. -/
def writeAt (buf : List UInt8) (off : Nat) (bytes : List UInt8) : List UInt8 :=
  buf.take off ++ bytes ++ buf.drop (off + bytes.length)

theorem length_writeAt {buf bytes : List UInt8} {off : Nat}
    (inside : off + bytes.length ≤ buf.length) :
    (writeAt buf off bytes).length = buf.length := by
  simp only [writeAt, List.length_append, List.length_take, List.length_drop]
  omega

theorem readAt_writeAt_self {buf bytes : List UInt8} {off : Nat}
    (inside : off + bytes.length ≤ buf.length) :
    readAt (writeAt buf off bytes) off bytes.length = some bytes := by
  have front : (buf.take off).length = off := by
    simp only [List.length_take]; omega
  rw [readAt, if_pos (by rw [length_writeAt inside]; exact inside), writeAt, List.append_assoc,
    List.drop_left' front, List.take_left]

theorem readAt_writeAt_of_before {buf bytes : List UInt8} {off off' len : Nat}
    (inside : off + bytes.length ≤ buf.length) (before : off' + len ≤ off) :
    readAt (writeAt buf off bytes) off' len = readAt buf off' len := by
  have front : (buf.take off).length = off := by
    simp only [List.length_take]; omega
  rw [readAt, readAt, length_writeAt inside]
  split
  · rw [writeAt, List.append_assoc, List.drop_append_of_le_length (by omega),
      List.take_append_of_le_length (by simp only [List.length_drop]; omega), List.drop_take,
      List.take_take, Nat.min_eq_left (by omega)]
  · rfl

theorem readAt_writeAt_of_after {buf bytes : List UInt8} {off off' len : Nat}
    (inside : off + bytes.length ≤ buf.length) (after : off + bytes.length ≤ off') :
    readAt (writeAt buf off bytes) off' len = readAt buf off' len := by
  have front : (buf.take off ++ bytes).length = off + bytes.length := by
    simp only [List.length_append, List.length_take]; omega
  rw [readAt, readAt, length_writeAt inside]
  split
  · rw [writeAt, List.drop_append, List.drop_of_length_le (by omega), List.nil_append, front,
      List.drop_drop, Nat.add_sub_cancel' after]
  · rfl

/-- A slice read inside a buffer lies inside it, and has the length asked for. -/
theorem readAt_eq_some {buf bytes : List UInt8} {off len : Nat}
    (h : readAt buf off len = some bytes) : off + len ≤ buf.length ∧ bytes.length = len := by
  unfold readAt at h
  split at h
  · cases h
    simp only [List.length_take, List.length_drop]
    omega
  · cases h

/-- The little-endian number of `w` bytes at `off`. -/
def readNat (buf : List UInt8) (off w : Nat) : Option Nat :=
  (readAt buf off w).map leNat

theorem readNat_writeAt_self {buf : List UInt8} {off w n : Nat}
    (inside : off + w ≤ buf.length) (fits : n < 256 ^ w) :
    readNat (writeAt buf off (leBytes w n)) off w = some n := by
  have slice : readAt (writeAt buf off (leBytes w n)) off (leBytes w n).length =
      some (leBytes w n) := readAt_writeAt_self (by rw [length_leBytes]; exact inside)
  rw [length_leBytes] at slice
  rw [readNat, slice, Option.map_some, leNat_leBytes w n fits]

/-! ## Blocks of a fixed size -/

/-- A buffer of exactly `n` bytes. -/
abbrev Block (n : Nat) := { buf : List UInt8 // buf.length = n }

namespace Block

variable {n : Nat}

def zeros (n : Nat) : Block n := ⟨List.replicate n 0, List.length_replicate⟩

/-- Overwrite the bytes from `off` on, when they lie inside the block. -/
def write (b : Block n) (off : Nat) (bytes : List UInt8) : Option (Block n) :=
  if h : off + bytes.length ≤ n then
    some ⟨writeAt b.val off bytes, by rw [length_writeAt (by rw [b.property]; exact h), b.property]⟩
  else none

theorem write_inside (b : Block n) (off : Nat) (bytes : List UInt8)
    (inside : off + bytes.length ≤ n) :
    ∃ b', b.write off bytes = some b' ∧ b'.val = writeAt b.val off bytes := by
  rw [write, dif_pos inside]
  exact ⟨_, rfl, rfl⟩

theorem write_eq_some {b b' : Block n} {off : Nat} {bytes : List UInt8}
    (h : b.write off bytes = some b') :
    off + bytes.length ≤ n ∧ b'.val = writeAt b.val off bytes := by
  unfold write at h
  split at h
  · cases h
    exact ⟨‹_›, rfl⟩
  · cases h

end Block
end Bytes
