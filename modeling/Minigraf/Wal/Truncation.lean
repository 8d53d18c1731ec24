import Minigraf.Storage.Postcard
import Minigraf.Wal.Format

/-!
Decoding a log that was cut off. Entries have no length of their own, so where one ends is
only known by reading it; still the scan of any prefix gives the entries that lie inside it.
-/

namespace Minigraf
namespace Wal

open Bytes

section Truncation

variable (postcard : Codec Fact) (crc : List UInt8 → UInt32)

/-- The offset at which each of the encodings ends, in a file they fill from `start` on. -/
def endOffsets (start : Nat) : List (List UInt8) → List Nat
  | [] => []
  | bytes :: encodings => (start + bytes.length) :: endOffsets (start + bytes.length) encodings

/-- The entries whose encodings lie wholly inside the first `n` bytes, with their ends. -/
def entriesInside (n start : Nat) (entries : List WalEntry) (encodings : List (List UInt8)) :
    List (WalEntry × Nat) :=
  (entries.zip (endOffsets start encodings)).filter fun p => p.2 ≤ n

theorem lt_endOffsets {start stop : Nat} {encodings : List (List UInt8)}
    (h : stop ∈ endOffsets start encodings) : start ≤ stop := by
  induction encodings generalizing start with
  | nil => cases h
  | cons bytes encodings ih =>
      rw [endOffsets, List.mem_cons] at h
      obtain rfl | h := h
      · exact Nat.le_add_right start _
      · exact (Nat.le_add_right start _).trans (ih h)

theorem entriesInside_none {n start : Nat} (entries : List WalEntry) (encodings : List (List UInt8))
    (before : n < start) : entriesInside n start entries encodings = [] := by
  rw [entriesInside, List.filter_eq_nil_iff]
  intro p hp
  have := lt_endOffsets (List.of_mem_zip hp).2
  simp only [decide_eq_true_eq]
  omega

/-- A prefix of the encodings is those inside it and a torn one. -/
theorem exists_torn {entries : List WalEntry} {encodings : List (List UInt8)}
    (h : List.Forall₂ (Encodes postcard crc) entries encodings) (start cut : Nat) :
    ∃ whole tail, encodings.flatten.take cut = whole.flatten ++ tail ∧ TornTail postcard crc tail ∧
      List.Forall₂ (Encodes postcard crc)
        ((entriesInside (start + cut) start entries encodings).map Prod.fst) whole ∧
      ((entriesInside (start + cut) start entries encodings).map Prod.snd).getLast?.getD start =
        start + whole.flatten.length := by
  induction h generalizing start cut with
  | nil => exact ⟨[], [], by simp, .inl rfl, .nil, rfl⟩
  | @cons entry bytes entries encodings hentry _ ih =>
      by_cases inside : bytes.length ≤ cut
      · obtain ⟨whole, tail, split, torn, each, last⟩ := ih (start + bytes.length) (cut - bytes.length)
        rw [Nat.add_assoc, Nat.add_sub_cancel' inside] at each last
        have here : entriesInside (start + cut) start (entry :: entries) (bytes :: encodings) =
            (entry, start + bytes.length) ::
              entriesInside (start + cut) (start + bytes.length) entries encodings := by
          rw [entriesInside, endOffsets, List.zip_cons_cons, List.filter_cons_of_pos]
          · rfl
          · simp only [decide_eq_true_eq]
            omega
        refine ⟨bytes :: whole, tail, ?_, torn, ?_, ?_⟩
        · rw [List.flatten_cons, List.take_append, List.take_of_length_le inside, split,
            List.flatten_cons, List.append_assoc]
        · rw [here]
          exact .cons hentry each
        · rw [here, List.map_cons, List.getLast?_cons, Option.getD_some, List.flatten_cons,
            List.length_append, ← Nat.add_assoc, ← last]
      · have none_ : entriesInside (start + cut) start (entry :: entries) (bytes :: encodings) = [] := by
          have later := entriesInside_none entries encodings
            (by omega : start + cut < start + bytes.length)
          rw [entriesInside, endOffsets, List.zip_cons_cons, List.filter_cons_of_neg]
          · exact later
          · simp only [decide_eq_true_eq]
            omega
        refine ⟨[], bytes.take cut, ?_, ?_, ?_, ?_⟩
        · rw [List.flatten_cons, List.take_append_of_le_length (by omega)]
          rfl
        · refine .inr ⟨entry, bytes, bytes.drop cut, hentry, (List.take_append_drop cut bytes).symm, ?_⟩
          rw [ne_eq, List.drop_eq_nil_iff]
          exact inside
        · rw [none_]
          exact .nil
        · rw [none_]
          rfl

/-- Whatever is cut off behind the header, the scan returns the entries that lie wholly
inside what is left, in order, and the offset where the last of them ends. -/
theorem scanEntries_truncated {entries : List WalEntry} {encodings : List (List UInt8)}
    (h : List.Forall₂ (Encodes postcard crc) entries encodings) {n : Nat} (header : WAL_HEADER_SIZE ≤ n) :
    scanEntries postcard crc ((walHeader ++ encodings.flatten).take n) =
      ((entriesInside n WAL_HEADER_SIZE entries encodings).map Prod.fst,
        ((entriesInside n WAL_HEADER_SIZE entries encodings).map Prod.snd).getLast?.getD
          WAL_HEADER_SIZE) := by
  obtain ⟨whole, tail, split, torn, each, last⟩ :=
    exists_torn postcard crc h WAL_HEADER_SIZE (n - WAL_HEADER_SIZE)
  rw [Nat.add_sub_cancel' header] at each last
  have file : (walHeader ++ encodings.flatten).take n = walHeader ++ (whole.flatten ++ tail) := by
    rw [List.take_append, List.take_of_length_le (by rw [length_walHeader]; exact header),
      length_walHeader, split]
  rw [file, scanEntries_file postcard crc each torn, last, List.length_append, length_walHeader]

/-- An entry of facts that fit can be encoded, and takes its fixed fields at least. -/
theorem exists_encodes (txCount : UInt64) (facts : Vec Fact) (fits : ∀ f ∈ facts.val, f.Fits postcard) :
    ∃ bytes, Encodes postcard crc ⟨txCount, facts.val⟩ bytes ∧ 20 ≤ bytes.length := by
  obtain ⟨records, hrecords⟩ := exists_records postcard fits
  obtain ⟨bytes, hbytes⟩ : ∃ bytes, serializeEntry postcard crc txCount facts.val = .ok bytes := by
    simp only [serializeEntry, hrecords, bind, Except.bind]
    exact ⟨_, rfl⟩
  obtain ⟨_, _, fields⟩ := serializeEntry_ok postcard crc hbytes
  refine ⟨bytes, ⟨facts.property, hbytes⟩, ?_⟩
  rw [fields]
  simp only [List.length_append, length_leBytes]
  omega

def loggedFact : Fact := ⟨0, ":a", .integer 1, 5, 1, 5, 6, true⟩

/-- A log of two entries, cut off in the checksum of the second. -/
theorem scanEntries_truncated_second : ∃ bytes bytes',
    Encodes Postcard.standard.fact crc32 ⟨1, [loggedFact]⟩ bytes ∧
    Encodes Postcard.standard.fact crc32 ⟨2, []⟩ bytes' ∧
    scanEntries Postcard.standard.fact crc32
        ((walHeader ++ [bytes, bytes'].flatten).take (WAL_HEADER_SIZE + bytes.length + 3)) =
      ([⟨1, [loggedFact]⟩], WAL_HEADER_SIZE + bytes.length) := by
  have fits : ∀ f ∈ [loggedFact], f.Fits Postcard.standard.fact := by
    intro f hf
    rw [List.mem_singleton.mp hf]
    exact Postcard.fits (by decide)
  obtain ⟨bytes, first, _⟩ := exists_encodes Postcard.standard.fact crc32 1 (⟨[loggedFact], by decide⟩ : Vec Fact) fits
  obtain ⟨bytes', second, wide⟩ := exists_encodes Postcard.standard.fact crc32 2 (⟨[], by decide⟩ : Vec Fact)
    (fun _ no => nomatch no)
  refine ⟨bytes, bytes', first, second, ?_⟩
  rw [scanEntries_truncated Postcard.standard.fact crc32 (.cons first (.cons second .nil)) (by omega)]
  have inside : entriesInside (WAL_HEADER_SIZE + bytes.length + 3) WAL_HEADER_SIZE
      [⟨1, [loggedFact]⟩, ⟨2, []⟩] [bytes, bytes'] =
        [(⟨1, [loggedFact]⟩, WAL_HEADER_SIZE + bytes.length)] := by
    simp only [entriesInside, endOffsets, List.zip_cons_cons, List.zip_nil_left]
    rw [List.filter_cons_of_pos (by simp), List.filter_cons_of_neg (by simp; omega), List.filter_nil]
  rw [inside]
  rfl

end Truncation
end Wal
end Minigraf
