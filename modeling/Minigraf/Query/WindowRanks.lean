import Minigraf.Query.FloatBits
import Minigraf.Query.Windows

/-!
Ranks. A row has the rank of the row before it while its key is `==` to the key that rank
was given at. That is one more than the number of rows before it in the order exactly where
keys that compare equal are `==`.
-/

namespace Minigraf

/-! ## Equal keys -/

theorem F64.isZero_cases {f : F64} (zero : f.isZero = true) : f = ⟨0⟩ ∨ f = ⟨0x8000000000000000⟩ := by
  have range := f.bits.toNat_lt
  rw [isZero, decide_eq_true_eq, ← UInt64.toNat_inj, toNat_magnitude] at zero
  change _ = 0 at zero
  have parts : f.bits.toNat = 0 ∨ f.bits.toNat = 2 ^ 63 := by omega
  cases f with
  | mk bits =>
      rcases parts with low | high
      · exact .inl (congrArg mk (UInt64.toNat_inj.mp low))
      · exact .inr (congrArg mk (UInt64.toNat_inj.mp high))

theorem F64.isZero_level {f : F64} (zero : f.isZero = true) :
    f.toFloat.isNaN = false ∧ floatLevel f.toFloat = toLex (0, toLex (0, 0)) := by
  rcases isZero_cases zero with rfl | rfl
  · exact ⟨rfl, rfl⟩
  · exact ⟨rfl, rfl⟩

theorem partialCmp_self (x : Float) : (partialCmp x x).getD .eq = .eq := by
  cases nan : x.isNaN with
  | true =>
      rw [partialCmp_nan (.inl nan)]
      rfl
  | false =>
      rw [partialCmp_levels nan nan]
      exact compare_self _

theorem valueCmp_self (v : Value) : valueCmp v v = .eq := by
  cases v with
  | integer i => exact compare_self i.toInt
  | string s => exact compare_self s
  | float f => exact partialCmp_self f.toFloat
  | boolean _ | ref _ | keyword _ | null => rfl

/-- Keys that are `==` compare equal. -/
theorem valueCmp_of_eq {v w : Value} (same : v.eq w = true) : valueCmp v w = .eq := by
  rcases Value.eq_iff.mp same with ⟨f, g, rfl, rfl, equal⟩ | ⟨rfl, _⟩
  · have zeros : f = g ∨ f.isZero = true ∧ g.isZero = true := by
      simp only [F64.eq, Bool.and_eq_true, Bool.or_eq_true, decide_eq_true_eq] at equal
      exact equal.2
    rcases zeros with rfl | ⟨left, right⟩
    · exact valueCmp_self _
    · obtain ⟨hf, levelF⟩ := F64.isZero_level left
      obtain ⟨hg, levelG⟩ := F64.isZero_level right
      simp only [valueCmp]
      rw [partialCmp_levels hf hg, levelF, levelG]
      exact compare_self _
  · exact valueCmp_self _

theorem compareKeys_of_eq (order : Order) {v w : Value} (same : v.eq w = true) : compareKeys order v w = .eq := by
  cases order with
  | asc => exact valueCmp_of_eq same
  | desc =>
      rw [compareKeys, valueCmp_of_eq same]
      rfl

/-! ## Ranks -/

section

variable {order : Order} {all : List Value} (pre : PreorderOn (compareKeys order) all)
  (sorted : all.Pairwise fun a b => compareKeys order a b ≠ .gt)

/-- How many rows come before a row of this key. -/
def rowsBefore (order : Order) (all : List Value) (key : Value) : Nat :=
  all.countP fun k => decide (compareKeys order k key = .lt)

/-- Keys that compare equal are `==`. -/
def TiesSame (order : Order) (a b : Value) : Prop := compareKeys order a b = .eq → a.eq b = true

include pre in
theorem PreorderOn.lt_of_le_of_lt {a b c : Value} (ha : a ∈ all) (hb : b ∈ all) (hc : c ∈ all)
    (left : compareKeys order a b ≠ .gt) (right : compareKeys order b c = .lt) : compareKeys order a c = .lt := by
  have forth := pre.trans a ha b hb c hc left (by rw [right]; nofun)
  cases own : compareKeys order a c with
  | lt => rfl
  | gt => exact absurd own forth
  | eq =>
      have back := pre.trans c hc a ha b hb (by rw [pre.reverse c hc a ha, own]; nofun) left
      rw [pre.reverse c hc b hb, right] at back
      exact absurd rfl back

include pre in
theorem PreorderOn.lt_iff_of_eq {a b c : Value} (ha : a ∈ all) (hb : b ∈ all) (hc : c ∈ all)
    (same : compareKeys order b c = .eq) : compareKeys order a b = .lt ↔ compareKeys order a c = .lt := by
  have along : ∀ {b c : Value}, b ∈ all → c ∈ all → compareKeys order b c = .eq → compareKeys order a b = .lt →
      compareKeys order a c = .lt := by
    intro b c hb hc same less
    have forth := pre.trans a ha b hb c hc (by rw [less]; nofun) (by rw [same]; nofun)
    cases own : compareKeys order a c with
    | lt => rfl
    | gt => exact absurd own forth
    | eq =>
        have joined := pre.trans_eq ha hc hb own (by rw [pre.reverse c hc b hb, same]; rfl)
        rw [less] at joined
        cases joined
  exact ⟨along hb hc same, along hc hb (by rw [pre.reverse c hc b hb, same]; rfl)⟩

include pre in
theorem PreorderOn.lt_of_lt_of_le {a b c : Value} (ha : a ∈ all) (hb : b ∈ all) (hc : c ∈ all)
    (left : compareKeys order a b = .lt) (right : compareKeys order b c ≠ .gt) : compareKeys order a c = .lt := by
  cases own : compareKeys order b c with
  | lt => exact pre.lt_of_le_of_lt ha hb hc (by rw [left]; nofun) own
  | eq => exact (pre.lt_iff_of_eq ha hb hc own).mp left
  | gt => exact absurd own right

include sorted in
/-- No row comes before one that stands in front of it. -/
theorem rowsBefore_eq {front : List Value} {key : Value} {rest : List Value} (split : all = front ++ key :: rest)
    (self : compareKeys order key key = .eq)
    (reverse : ∀ k ∈ rest, compareKeys order k key = (compareKeys order key k).swap) :
    rowsBefore order all key = rowsBefore order front key := by
  rw [split, List.pairwise_append] at sorted
  have later := List.pairwise_cons.mp sorted.2.1
  have none_ : rowsBefore order (key :: rest) key = 0 := by
    apply List.countP_eq_zero.mpr
    intro k mem
    rw [decide_eq_true_iff]
    rcases List.mem_cons.mp mem with rfl | mem
    · rw [self]
      nofun
    · rw [reverse k mem]
      intro less
      have above := later.1 k mem
      cases own : compareKeys order key k with
      | gt => exact above own
      | lt | eq =>
          rw [own] at less
          cases less
  rw [split, rowsBefore, List.countP_append]
  exact congrArg (_ + ·) none_

include pre sorted in
/-- All that come before a row do where the one before it does. -/
theorem rowsBefore_lt {front : List Value} {last key : Value} {rest : List Value}
    (split : all = front ++ last :: key :: rest) (less : compareKeys order last key = .lt) :
    rowsBefore order all key = front.length + 1 := by
  have mem : ∀ k ∈ front ++ last :: key :: rest, k ∈ all := fun k own => split ▸ own
  have hlast := mem last (by simp)
  have hkey := mem key (by simp)
  have reverse : ∀ k ∈ rest, compareKeys order k key = (compareKeys order key k).swap := by
    intro k own
    exact pre.reverse k (mem k (by simp [own])) key hkey
  have split' : all = (front ++ [last]) ++ key :: rest := by rw [split, List.append_assoc]; rfl
  rw [rowsBefore_eq sorted split' (pre.refl hkey) reverse, rowsBefore, List.countP_eq_length.mpr]
  · rw [List.length_append]
    rfl
  · intro k own
    rw [decide_eq_true_iff]
    rcases List.mem_append.mp own with own | own
    · rw [split, List.pairwise_append] at sorted
      exact pre.lt_of_le_of_lt (mem k (by simp [own])) hlast hkey (sorted.2.2 k own last List.mem_cons_self) less
    · cases List.mem_singleton.mp own
      exact less

include pre in
theorem rowsBefore_congr {last key : Value} (hlast : last ∈ all) (hkey : key ∈ all)
    (same : compareKeys order last key = .eq) : rowsBefore order all key = rowsBefore order all last := by
  apply List.countP_congr
  intro k own
  rw [decide_eq_true_iff, decide_eq_true_iff]
  exact (pre.lt_iff_of_eq own hlast hkey same).symm

include pre sorted in
/-- Of a sorted list, ties between neighbours are all that matter. -/
theorem pairwise_tiesSame {front : List Value} {last key : Value} {rest : List Value}
    (split : all = front ++ last :: key :: rest) :
    (last :: key :: rest).Pairwise (TiesSame order) ↔
      TiesSame order last key ∧ (key :: rest).Pairwise (TiesSame order) := by
  have mem : ∀ k ∈ last :: key :: rest, k ∈ all := fun k own => split ▸ List.mem_append_right front own
  rw [split, List.pairwise_append] at sorted
  have ⟨above, tail⟩ := List.pairwise_cons.mp sorted.2.1
  have beyond := (List.pairwise_cons.mp tail).1
  rw [List.pairwise_cons]
  constructor
  · intro ⟨next, later⟩
    exact ⟨next key List.mem_cons_self, later⟩
  · intro ⟨next, later⟩
    refine ⟨?_, later⟩
    intro q own tie
    rcases List.mem_cons.mp own with rfl | own
    · exact next tie
    · have hlast := mem last (by simp)
      have hkey := mem key (by simp)
      have hq := mem q (by simp [own])
      have near : compareKeys order last key = .eq := by
        cases step : compareKeys order last key with
        | eq => rfl
        | gt => exact absurd step (above key List.mem_cons_self)
        | lt =>
            rw [pre.lt_of_lt_of_le hlast hkey hq step (beyond q own)] at tie
            cases tie
      have far : compareKeys order key q = .eq :=
        pre.trans_eq hkey hlast hq (by rw [pre.reverse key hkey last hlast, near]; rfl) tie
      exact Value.eq_trans (next near) ((List.pairwise_cons.mp later).1 q own far)

include pre sorted in
/-- The rank given from a row on is its place in the order, as far as keys that compare
equal are `==`. -/
theorem rankValues_suffix (fits : all.length < 2 ^ 63) (suffix : List Value) (front : List Value) (last : Value)
    (split : all = front ++ last :: suffix) (first : Value) (run : first = last ∨ first.eq last = true) :
    rankValues (some first) (1 + rowsBefore order all last) (front.length + 2) suffix =
        suffix.map (fun key => .integer (.ofNat (1 + rowsBefore order all key))) ↔
      (last :: suffix).Pairwise (TiesSame order) := by
  induction suffix generalizing front last first with
  | nil => exact iff_of_true rfl (List.pairwise_singleton _ _)
  | cons key rest ih =>
      have mem : ∀ k ∈ last :: key :: rest, k ∈ all := fun k own => split ▸ List.mem_append_right front own
      have hlast := mem last (by simp)
      have hkey := mem key (by simp)
      have split' : all = (front ++ [last]) ++ key :: rest := by rw [split, List.append_assoc]; rfl
      have number : (front ++ [last]).length + 2 = front.length + 2 + 1 := by rw [List.length_append]; rfl
      have place : front.length + 2 ≤ all.length := by
        rw [split]
        simp
      have next := fun first run => ih (front ++ [last]) key split' first run
      simp only [number] at next
      rw [pairwise_tiesSame pre sorted split, rankValues, List.map_cons]
      cases equal : first.eq key with
      | true =>
          have kept : last.eq key = true := run.elim (fun own => own ▸ equal) fun own => Value.eq_trans (Value.eq_comm own) equal
          have level := rowsBefore_congr pre hlast hkey (compareKeys_of_eq order kept)
          have stays : changes (some first) key = false := by rw [changes, equal]; rfl
          rw [stays, if_neg Bool.false_ne_true, ← level, List.cons_inj_right, next first (.inr equal)]
          exact (and_iff_right fun _ => kept).symm
      | false =>
          have differs : ¬ last.eq key = true := by
            intro kept
            have reached : first.eq key = true := run.elim (fun own => own ▸ kept) fun own => Value.eq_trans own kept
            rw [equal] at reached
            cases reached
          have moves : changes (some first) key = true := by rw [changes, equal]; rfl
          rw [moves, if_pos rfl]
          cases step : compareKeys order last key with
          | gt =>
              rw [split, List.pairwise_append] at sorted
              exact absurd step ((List.pairwise_cons.mp sorted.2.1).1 key List.mem_cons_self)
          | lt =>
              have level := rowsBefore_lt pre sorted split step
              have rank : front.length + 2 = 1 + rowsBefore order all key := by omega
              have vacuous : TiesSame order last key := by
                intro tie
                rw [step] at tie
                cases tie
              have later := next key (.inl rfl)
              rw [← rank] at later ⊢
              rw [List.cons_inj_right, later]
              exact (and_iff_right vacuous).symm
          | eq =>
              have level := rowsBefore_congr pre hlast hkey step
              have few : rowsBefore order all last ≤ front.length := by
                have reverse : ∀ k ∈ key :: rest, compareKeys order k last = (compareKeys order last k).swap := by
                  intro k own
                  exact pre.reverse k (mem k (List.mem_cons_of_mem _ own)) last hlast
                rw [rowsBefore_eq sorted split (pre.refl hlast) reverse]
                exact List.countP_le_length
              refine iff_of_false ?_ fun both => differs (both.1 step)
              intro values
              have head := (List.cons.inj values).1
              have ranks := congrArg Int64.toInt (Value.integer.inj head)
              rw [Int64.toInt_ofNat_of_lt (by omega), Int64.toInt_ofNat_of_lt (by omega)] at ranks
              omega

/-- Ranks are places in the order if and only if keys that compare equal are `==`. -/
theorem rankValues_iff (pre : PreorderOn (compareKeys order) all)
    (sorted : all.Pairwise fun a b => compareKeys order a b ≠ .gt) (fits : all.length < 2 ^ 63) :
    rankValues none 1 1 all = all.map (fun key => .integer (.ofNat (1 + rowsBefore order all key))) ↔
      all.Pairwise (TiesSame order) := by
  cases split : all with
  | nil => exact iff_of_true rfl List.Pairwise.nil
  | cons key rest =>
      rw [← split]
      have hkey : key ∈ all := split ▸ List.mem_cons_self
      have none_ : rowsBefore order all key = 0 := by
        have reverse : ∀ k ∈ rest, compareKeys order k key = (compareKeys order key k).swap := by
          intro k own
          exact pre.reverse k (split ▸ List.mem_cons_of_mem _ own) key hkey
        have first := rowsBefore_eq sorted ((List.nil_append _).symm ▸ split : all = [] ++ key :: rest) (pre.refl hkey) reverse
        exact first
      have later := rankValues_suffix pre sorted fits rest [] key split key (.inl rfl)
      rw [none_] at later
      have values : rankValues none 1 1 all = .integer (.ofNat 1) :: rankValues (some key) 1 2 rest := by
        rw [split]
        rfl
      have places : all.map (fun k => Value.integer (.ofNat (1 + rowsBefore order all k))) =
          .integer (.ofNat 1) :: rest.map fun k => .integer (.ofNat (1 + rowsBefore order all k)) := by
        calc all.map (fun k => Value.integer (.ofNat (1 + rowsBefore order all k)))
            = (key :: rest).map fun k => .integer (.ofNat (1 + rowsBefore order all k)) := congrArg _ split
          _ = .integer (.ofNat 1) :: rest.map fun k => .integer (.ofNat (1 + rowsBefore order all k)) := by
            rw [List.map_cons, none_]
      rw [values, places, List.cons_inj_right, split]
      rw [split] at later
      exact later

end

end Minigraf
