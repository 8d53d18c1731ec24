import Minigraf.Lib.Bytes

/-!
Slotted blocks: a directory of (offset, length) pairs grows upwards from a base
while the records it points to are stored from the end of the block downwards.
While the two do not meet, every record is read back through its slot.
-/

namespace Bytes
namespace Block

variable {n : Nat}

/-- Store records below `pos`, with their slots from `dir` on. -/
def putRecords (b : Block n) (dir pos : Nat) : List (List UInt8) → Option (Block n)
  | [] => some b
  | r :: rs =>
      if r.length ≤ pos then do
        let b ← b.write (pos - r.length) r
        let b ← b.write dir (leBytes 2 (pos - r.length))
        let b ← b.write (dir + 2) (leBytes 2 r.length)
        putRecords b (dir + 4) (pos - r.length) rs
      else none

/-- The bytes a list of records takes, without its slots. -/
def recordBytes (rs : List (List UInt8)) : Nat := (rs.map List.length).sum

theorem length_le_recordBytes {rs : List (List UInt8)} {r : List UInt8} (h : r ∈ rs) :
    r.length ≤ recordBytes rs := by
  induction rs with
  | nil => cases h
  | cons first rest ih =>
      simp only [recordBytes, List.map_cons, List.sum_cons] at ih ⊢
      obtain rfl | h := List.mem_cons.mp h
      · omega
      · have := ih h
        omega

/-- The record `r` is stored in the block behind the slot at `dir`, from `low` on. -/
def Stored (b : Block n) (dir low : Nat) (r : List UInt8) : Prop :=
  ∃ off, readNat b.val dir 2 = some off ∧ readNat b.val (dir + 2) 2 = some r.length ∧
    readAt b.val off r.length = some r ∧ low ≤ off

/-- Two blocks that agree below `dir` and from `pos` on. -/
def AgreeOutside (b b' : Block n) (dir pos : Nat) : Prop :=
  ∀ off len, off + len ≤ dir ∨ pos ≤ off → readAt b'.val off len = readAt b.val off len

theorem AgreeOutside.mono {b b' : Block n} {dir pos dir' pos' : Nat}
    (h : AgreeOutside b b' dir pos) (hdir : dir' ≤ dir) (hpos : pos ≤ pos') :
    AgreeOutside b b' dir' pos' := by
  intro off len hout
  exact h off len (by omega)

theorem AgreeOutside.trans {b₁ b₂ b₃ : Block n} {dir pos : Nat}
    (h : AgreeOutside b₁ b₂ dir pos) (h' : AgreeOutside b₂ b₃ dir pos) :
    AgreeOutside b₁ b₃ dir pos := by
  intro off len hout
  rw [h' off len hout, h off len hout]

theorem AgreeOutside.readNat {b b' : Block n} {dir pos : Nat} (h : AgreeOutside b b' dir pos)
    {off w : Nat} (hout : off + w ≤ dir ∨ pos ≤ off) :
    Bytes.readNat b'.val off w = Bytes.readNat b.val off w := by
  rw [Bytes.readNat, Bytes.readNat, h off w hout]

theorem Stored.agree {b b' : Block n} {dir low : Nat} {r : List UInt8} (h : Stored b dir low r)
    {dir' pos' : Nat} (hagree : AgreeOutside b b' dir' pos') (hdir : dir + 4 ≤ dir' ∨ pos' ≤ dir)
    (hpos : pos' ≤ low) : Stored b' dir low r := by
  obtain ⟨off, hoff, hlen, hread, hlow⟩ := h
  refine ⟨off, ?_, ?_, ?_, hlow⟩
  · rw [hagree.readNat (by omega), hoff]
  · rw [hagree.readNat (by omega), hlen]
  · rw [hagree off r.length (by omega), hread]

theorem write_agree {b b' : Block n} {off : Nat} {bytes : List UInt8}
    (h : b.write off bytes = some b') {dir pos : Nat} (hdir : dir ≤ off)
    (hpos : off + bytes.length ≤ pos) : AgreeOutside b b' dir pos := by
  obtain ⟨inside, hval⟩ := write_eq_some h
  intro off' len hout
  have hlen := b.property
  obtain hbefore | hafter := hout
  · rw [hval, readAt_writeAt_of_before (by omega) (by omega)]
  · rw [hval, readAt_writeAt_of_after (by omega) (by omega)]

/-- One record and its slot. -/
theorem putRecord (b : Block n) {dir pos : Nat} {r : List UInt8} (small : n < 65536)
    (room : dir + 4 + r.length ≤ pos) (inside : pos ≤ n) :
    ∃ b₁ b₂ b₃ : Block n, b.write (pos - r.length) r = some b₁ ∧
      b₁.write dir (leBytes 2 (pos - r.length)) = some b₂ ∧
      b₂.write (dir + 2) (leBytes 2 r.length) = some b₃ ∧
      Stored b₃ dir (pos - r.length) r ∧ AgreeOutside b b₃ dir pos := by
  obtain ⟨b₁, h₁, hval₁⟩ := b.write_inside (pos - r.length) r (by omega)
  obtain ⟨b₂, h₂, hval₂⟩ := b₁.write_inside dir (leBytes 2 (pos - r.length))
    (by rw [length_leBytes]; omega)
  obtain ⟨b₃, h₃, hval₃⟩ := b₂.write_inside (dir + 2) (leBytes 2 r.length)
    (by rw [length_leBytes]; omega)
  have agree₂ : AgreeOutside b₁ b₂ dir (dir + 2) :=
    write_agree h₂ le_rfl (by rw [length_leBytes])
  have agree₃ : AgreeOutside b₂ b₃ (dir + 2) (dir + 4) :=
    write_agree h₃ le_rfl (by rw [length_leBytes])
  refine ⟨b₁, b₂, b₃, h₁, h₂, h₃, ⟨pos - r.length, ?_, ?_, ?_, le_rfl⟩, ?_⟩
  · rw [agree₃.readNat (by omega), hval₂,
      readNat_writeAt_self (by rw [b₁.property]; omega) (by omega)]
  · rw [hval₃, readNat_writeAt_self (by rw [b₂.property]; omega) (by omega)]
  · rw [agree₃ _ _ (by omega), agree₂ _ _ (by omega), hval₁,
      readAt_writeAt_self (by rw [b.property]; omega)]
  · have first : AgreeOutside b b₁ dir pos := write_agree h₁ (by omega) (by omega)
    exact (first.trans (agree₂.mono le_rfl (by omega))).trans
      (agree₃.mono (by omega) (by omega))

/-- While directory and records do not meet, every record is stored behind its slot
and nothing else changes. -/
theorem putRecords_stored (b : Block n) {dir pos : Nat} {rs : List (List UInt8)}
    (small : n < 65536) (room : dir + 4 * rs.length + recordBytes rs ≤ pos) (inside : pos ≤ n) :
    ∃ b', b.putRecords dir pos rs = some b' ∧ AgreeOutside b b' dir pos ∧
      ∀ i r, rs[i]? = some r → Stored b' (dir + 4 * i) (pos - recordBytes rs) r := by
  induction rs generalizing b dir pos with
  | nil => exact ⟨b, rfl, fun _ _ _ => rfl, by simp⟩
  | cons r rs ih =>
      simp only [List.length_cons, recordBytes, List.map_cons, List.sum_cons] at room ⊢
      obtain ⟨b₁, b₂, b₃, h₁, h₂, h₃, hstored, hagree⟩ :=
        putRecord b small (by omega : dir + 4 + r.length ≤ pos) inside
      obtain ⟨b', hput, hagree', hrest⟩ := @ih b₃ (dir + 4) (pos - r.length)
        (by simp only [recordBytes]; omega) (by omega)
      refine ⟨b', ?_, hagree.trans (hagree'.mono (by omega) (by omega)), ?_⟩
      · simp only [putRecords, if_pos (by omega : r.length ≤ pos), h₁, h₂, h₃, Option.bind_eq_bind,
          Option.bind_some, hput]
      · intro i r' hr'
        cases i with
        | zero =>
            cases hr'
            obtain ⟨off, hoff, hlen, hread, hlow⟩ :=
              hstored.agree hagree' (.inl le_rfl) le_rfl
            exact ⟨off, hoff, hlen, hread, by omega⟩
        | succ i =>
            have later := hrest i r' (by simpa using hr')
            rw [show dir + 4 * (i + 1) = dir + 4 + 4 * i by omega,
              show pos - (r.length + (rs.map List.length).sum) =
                pos - r.length - recordBytes rs by simp only [recordBytes]; omega]
            exact later

end Block
end Bytes
