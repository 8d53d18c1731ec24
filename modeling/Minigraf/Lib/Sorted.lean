import Mathlib.Data.List.Basic
import Mathlib.Data.Prod.Lex
import Mathlib.Order.Lattice

/-!
Lists in the order of a relation, under merging, and ordered maps as sorted lists of
entries.
-/

namespace List

variable {α : Type} {R : α → α → Prop}

/-- Sorting by a key puts a list in the order of the keys. -/
theorem pairwise_mergeSort_by {κ : Type} [LinearOrder κ] (key : α → κ) (l : List α) :
    (l.mergeSort fun a b => decide (key a ≤ key b)).Pairwise fun a b => key a ≤ key b := by
  have trans : ∀ a b c : α, decide (key a ≤ key b) = true → decide (key b ≤ key c) = true →
      decide (key a ≤ key c) = true := by
    intro a b c hab hbc
    rw [decide_eq_true_eq] at hab hbc ⊢
    exact hab.trans hbc
  have total : ∀ a b : α, (decide (key a ≤ key b) || decide (key b ≤ key a)) = true := by
    intro a b
    rw [Bool.or_eq_true, decide_eq_true_eq, decide_eq_true_eq]
    exact le_total (key a) (key b)
  exact (pairwise_mergeSort trans total l).imp of_decide_eq_true

/-- Merging by a comparison that refines `R` keeps lists in the order of `R`. -/
theorem pairwise_merge_of (le : α → α → Bool) (trans : ∀ a b c, R a b → R b c → R a c)
    (left : ∀ a b, le a b = true → R a b) (right : ∀ a b, le a b = false → R b a)
    {l r : List α} (hl : l.Pairwise R) (hr : r.Pairwise R) : (l.merge r le).Pairwise R := by
  induction l generalizing r with
  | nil => rwa [nil_merge]
  | cons a l ihl =>
      induction r with
      | nil => rwa [merge_right]
      | cons b r ihr =>
          obtain ⟨ha, hl'⟩ := pairwise_cons.mp hl
          obtain ⟨hb, hr'⟩ := pairwise_cons.mp hr
          cases hab : le a b with
          | true =>
              rw [cons_merge_cons_pos le l r hab]
              refine pairwise_cons.mpr ⟨fun c hc => ?_, ihl hl' hr⟩
              obtain hc | hc := mem_merge.mp hc
              · exact ha c hc
              · obtain rfl | hc := mem_cons.mp hc
                · exact left _ _ hab
                · exact trans _ _ _ (left _ _ hab) (hb c hc)
          | false =>
              rw [cons_merge_cons_neg le l r (by simp [hab])]
              refine pairwise_cons.mpr ⟨fun c hc => ?_, ihr hr'⟩
              obtain hc | hc := mem_merge.mp hc
              · obtain rfl | hc := mem_cons.mp hc
                · exact right _ _ hab
                · exact trans _ _ _ (right _ _ hab) (ha c hc)
              · exact hb c hc

/-- Where whatever comes before a member is a member, the first members are all. -/
theorem takeWhile_eq_filter_of_pairwise {p : α → Bool} {l : List α} (hl : l.Pairwise R)
    (down : ∀ a b, R a b → p b = true → p a = true) : l.takeWhile p = l.filter p := by
  induction l with
  | nil => rfl
  | cons a l ih =>
      obtain ⟨ha, hl'⟩ := pairwise_cons.mp hl
      cases hp : p a with
      | true => rw [takeWhile_cons_of_pos hp, filter_cons_of_pos hp, ih hl']
      | false =>
          have none_ : l.filter p = [] :=
            filter_eq_nil_iff.mpr fun b hb hpb => by simp [down a b (ha b hb) hpb] at hp
          rw [takeWhile_cons_of_neg (by simp [hp]), filter_cons_of_neg (by simp [hp]), none_]

end List

/-! ## Least elements -/

section Least

variable {α β : Type} [LinearOrder α] [LinearOrder β] {bottom : β}

theorem toLex_bottom_le (least : ∀ y, bottom ≤ y) (a x : α) (y : β) :
    toLex (a, bottom) ≤ toLex (x, y) ↔ a ≤ x := by
  rw [Prod.Lex.toLex_le_toLex]
  constructor
  · rintro (lt | ⟨eq, _⟩)
    · exact lt.le
    · exact eq.le
  · intro le
    exact (lt_or_eq_of_le le).imp_right fun eq => ⟨eq, least y⟩

theorem toLex_lt_bottom (least : ∀ y, bottom ≤ y) (a x : α) (y : β) :
    toLex (x, y) < toLex (a, bottom) ↔ x < a := by
  rw [← not_le, ← not_le, toLex_bottom_le least]

theorem toLex_bottom_least {a : α} (leastA : ∀ x : α, a ≤ x) (least : ∀ y, bottom ≤ y) (p : α ×ₗ β) :
    toLex (a, bottom) ≤ p :=
  (toLex_bottom_le least a p.1 p.2).mpr (leastA p.1)

end Least

/-! ## Ordered maps -/

section Map

variable {K V : Type} [LinearOrder K]

/-- Insert into a list sorted by key; an equal key gets the new value. -/
def insertSorted (key : K) (value : V) : List (K × V) → List (K × V)
  | [] => [(key, value)]
  | entry :: later =>
      if key < entry.1 then (key, value) :: entry :: later
      else if key = entry.1 then (key, value) :: later
      else entry :: insertSorted key value later

theorem key_of_mem_insertSorted {key : K} {value : V} {entries : List (K × V)} {e : K × V}
    (h : e ∈ insertSorted key value entries) : e.1 = key ∨ e ∈ entries := by
  induction entries with
  | nil =>
      rw [insertSorted, List.mem_singleton] at h
      exact .inl (by rw [h])
  | cons entry later ih =>
      rw [insertSorted] at h
      split at h
      · obtain rfl | h := List.mem_cons.mp h
        · exact .inl rfl
        · exact .inr h
      · split at h
        · obtain rfl | h := List.mem_cons.mp h
          · exact .inl rfl
          · exact .inr (List.mem_cons_of_mem _ h)
        · obtain rfl | h := List.mem_cons.mp h
          · exact .inr List.mem_cons_self
          · exact (ih h).imp_right (List.mem_cons_of_mem _)

theorem insertSorted_sorted {key : K} {value : V} {entries : List (K × V)}
    (h : entries.Pairwise fun a b => a.1 < b.1) :
    (insertSorted key value entries).Pairwise fun a b => a.1 < b.1 := by
  induction entries with
  | nil => exact List.pairwise_singleton _ _
  | cons entry later ih =>
      obtain ⟨above, sorted⟩ := List.pairwise_cons.mp h
      rw [insertSorted]
      split
      · rename_i lt
        refine List.pairwise_cons.mpr ⟨fun e he => ?_, h⟩
        obtain rfl | he := List.mem_cons.mp he
        · exact lt
        · exact lt.trans (above e he)
      · split
        · rename_i eq
          refine List.pairwise_cons.mpr ⟨fun e he => ?_, sorted⟩
          exact eq.trans_lt (above e he)
        · rename_i notLt notEq
          refine List.pairwise_cons.mpr ⟨fun e he => ?_, ih sorted⟩
          obtain same | he := key_of_mem_insertSorted he
          · rw [same]
            exact lt_of_le_of_ne (not_lt.mp notLt) (Ne.symm notEq)
          · exact above e he

theorem length_insertSorted_le (key : K) (value : V) (entries : List (K × V)) :
    (insertSorted key value entries).length ≤ entries.length + 1 := by
  induction entries with
  | nil => exact le_rfl
  | cons entry later ih =>
      rw [insertSorted]
      split
      · exact le_rfl
      · split
        · exact Nat.le_succ _
        · exact Nat.succ_le_succ ih

/-- A sorted list that takes an entry keeps the entries under the other keys. -/
theorem mem_insertSorted {key : K} {value : V} {entries : List (K × V)}
    (sorted : entries.Pairwise fun a b => a.1 < b.1) {e : K × V} :
    e ∈ insertSorted key value entries ↔ e = (key, value) ∨ e ∈ entries ∧ e.1 ≠ key := by
  induction entries with
  | nil => simp [insertSorted]
  | cons entry later ih =>
      obtain ⟨above, sorted'⟩ := List.pairwise_cons.mp sorted
      rw [insertSorted]
      split
      · rename_i lt
        have apart : ∀ x ∈ entry :: later, x.1 ≠ key := by
          intro x hx
          obtain rfl | hx := List.mem_cons.mp hx
          · exact lt.ne'
          · exact (lt.trans (above x hx)).ne'
        rw [List.mem_cons]
        exact or_congr_right ⟨fun h => ⟨h, apart e h⟩, And.left⟩
      · split
        · rename_i eq
          have apart : ∀ x ∈ later, x.1 ≠ key := fun x hx => eq ▸ (above x hx).ne'
          simp only [List.mem_cons]
          refine or_congr_right ⟨fun h => ⟨.inr h, apart e h⟩, fun h => ?_⟩
          exact h.1.resolve_left fun same => h.2 (by rw [same, eq])
        · rename_i notEq
          simp only [List.mem_cons, ih sorted']
          constructor
          · rintro (rfl | rfl | ⟨h, other⟩)
            · exact .inr ⟨.inl rfl, Ne.symm notEq⟩
            · exact .inl rfl
            · exact .inr ⟨.inr h, other⟩
          · rintro (rfl | ⟨rfl | h, other⟩)
            · exact .inr (.inl rfl)
            · exact .inl rfl
            · exact .inr (.inr ⟨h, other⟩)

/-! ## The last of each key -/

section Last

variable {ι κ : Type} [DecidableEq κ]

/-- The members whose keys no later member has. -/
def lastBy (key : ι → κ) : List ι → List ι
  | [] => []
  | i :: l => if ∃ j ∈ l, key j = key i then lastBy key l else i :: lastBy key l

theorem mem_lastBy {key : ι → κ} {l : List ι} {i : ι} :
    i ∈ lastBy key l ↔ ∃ front back, l = front ++ i :: back ∧ ∀ j ∈ back, key j ≠ key i := by
  induction l with
  | nil => simp [lastBy]
  | cons k l ih =>
      have later : i ∈ lastBy key l → ∃ front back, k :: l = front ++ i :: back ∧ ∀ j ∈ back, key j ≠ key i := by
        intro mem
        obtain ⟨front, back, rfl, last⟩ := ih.mp mem
        exact ⟨k :: front, back, rfl, last⟩
      rw [lastBy]
      split
      · next taken =>
          refine ⟨later, ?_⟩
          rintro ⟨front, back, split, last⟩
          cases front with
          | nil =>
              cases split
              obtain ⟨j, hj, same⟩ := taken
              exact absurd same (last j hj)
          | cons _ front =>
              cases split
              exact ih.mpr ⟨front, back, rfl, last⟩
      · next free =>
          rw [List.mem_cons]
          constructor
          · rintro (rfl | mem)
            · exact ⟨[], l, rfl, fun j hj same => free ⟨j, hj, same⟩⟩
            · exact later mem
          · rintro ⟨front, back, split, last⟩
            cases front with
            | nil =>
                cases split
                exact .inl rfl
            | cons _ front =>
                cases split
                exact .inr (ih.mpr ⟨front, back, rfl, last⟩)

theorem lastBy_sublist (key : ι → κ) (l : List ι) : (lastBy key l).Sublist l := by
  induction l with
  | nil => exact .slnil
  | cons i l ih =>
      rw [lastBy]
      split
      · exact ih.cons i
      · exact ih.cons_cons i

theorem nodup_lastBy (key : ι → κ) (l : List ι) : ((lastBy key l).map key).Nodup := by
  induction l with
  | nil => exact .nil
  | cons i l ih =>
      rw [lastBy]
      split
      · exact ih
      · next free =>
          rw [List.map_cons, List.nodup_cons]
          refine ⟨fun mem => free ?_, ih⟩
          obtain ⟨j, hj, same⟩ := List.mem_map.mp mem
          exact ⟨j, (lastBy_sublist key l).subset hj, same⟩

/-- Every key is that of a last member. -/
theorem exists_lastBy {key : ι → κ} {l : List ι} {i : ι} (mem : i ∈ l) : ∃ j ∈ lastBy key l, key j = key i := by
  induction l generalizing i with
  | nil => cases mem
  | cons k l ih =>
      rw [lastBy]
      split
      · next taken =>
          obtain rfl | mem := List.mem_cons.mp mem
          · obtain ⟨k', hk', same⟩ := taken
            obtain ⟨j, hj, same'⟩ := ih hk'
            exact ⟨j, hj, same'.trans same⟩
          · exact ih mem
      · obtain rfl | mem := List.mem_cons.mp mem
        · exact ⟨i, List.mem_cons_self, rfl⟩
        · obtain ⟨j, hj, same⟩ := ih mem
          exact ⟨j, List.mem_cons_of_mem k hj, same⟩

/-- Members with a key each are all last. -/
theorem lastBy_eq_self {key : ι → κ} {l : List ι} (distinct : (l.map key).Nodup) : lastBy key l = l := by
  induction l with
  | nil => rfl
  | cons i l ih =>
      rw [List.map_cons, List.nodup_cons] at distinct
      rw [lastBy, if_neg, ih distinct.2]
      rintro ⟨j, hj, same⟩
      exact distinct.1 (same ▸ List.mem_map_of_mem hj)

theorem lastBy_eq_nil {key : ι → κ} {l : List ι} : lastBy key l = [] ↔ l = [] := by
  constructor
  · intro none_
    induction l with
    | nil => rfl
    | cons i l ih =>
        rw [lastBy] at none_
        split at none_
        · next taken =>
            obtain ⟨j, hj, -⟩ := taken
            rw [ih none_] at hj
            cases hj
        · cases none_
  · rintro rfl
    rfl

theorem map_lastBy {β : Type} (key : β → κ) (f : ι → β) (l : List ι) :
    (lastBy (fun i => key (f i)) l).map f = lastBy key (l.map f) := by
  induction l with
  | nil => rfl
  | cons i l ih =>
      have same : (∃ j ∈ l.map f, key j = key (f i)) ↔ ∃ j ∈ l, key (f j) = key (f i) := by simp
      rw [List.map_cons, lastBy, lastBy, ← ih]
      simp only [same]
      split
      · rfl
      · rfl

/-- Keys that tell the same members apart leave the same members. -/
theorem lastBy_congr {κ' : Type} [DecidableEq κ'] {key : ι → κ} {key' : ι → κ'}
    (same : ∀ i j, key i = key j ↔ key' i = key' j) (l : List ι) : lastBy key l = lastBy key' l := by
  induction l with
  | nil => rfl
  | cons i l ih =>
      rw [lastBy, lastBy, ih]
      simp only [same]

end Last

/-- An ordered map. -/
structure OrdMap (K V : Type) [LinearOrder K] where
  entries : List (K × V)
  sorted : entries.Pairwise fun a b => a.1 < b.1

namespace OrdMap

def empty : OrdMap K V := ⟨[], .nil⟩

def insert (m : OrdMap K V) (key : K) (value : V) : OrdMap K V :=
  ⟨insertSorted key value m.entries, insertSorted_sorted m.sorted⟩

def get? (m : OrdMap K V) (key : K) : Option V :=
  (m.entries.find? fun e => decide (e.1 = key)).map Prod.snd

theorem get?_eq_some {m : OrdMap K V} {key : K} {value : V} :
    m.get? key = some value ↔ (key, value) ∈ m.entries := by
  obtain ⟨entries, sorted⟩ := m
  rw [get?]
  induction entries with
  | nil => simp
  | cons entry later ih =>
      obtain ⟨above, sorted'⟩ := List.pairwise_cons.mp sorted
      rw [List.find?_cons, List.mem_cons]
      by_cases same : entry.1 = key
      · have fresh : (key, value) ∉ later := fun h => (above _ h).ne same
        simp only [same, decide_true, Option.map_some, Option.some.injEq, fresh, or_false]
        exact ⟨fun h => Prod.ext same.symm h.symm, fun h => by rw [← h]⟩
      · simp only [same, decide_false]
        refine (ih sorted').trans (or_iff_right fun h => same ?_).symm
        rw [← h]

theorem mem_insert {m : OrdMap K V} {key : K} {value : V} {e : K × V} :
    e ∈ (m.insert key value).entries ↔ e = (key, value) ∨ e ∈ m.entries ∧ e.1 ≠ key :=
  mem_insertSorted m.sorted

theorem get?_insert (m : OrdMap K V) (key : K) (value : V) (other : K) :
    (m.insert key value).get? other = if other = key then some value else m.get? other := by
  apply Option.ext
  intro v
  rw [get?_eq_some, mem_insert]
  split
  · next same => simp [same, eq_comm]
  · next differ => simp [differ, get?_eq_some]

/-- The map of some entries: a later entry replaces one with its key. -/
def ofEntries (entries : List (K × V)) : OrdMap K V :=
  entries.foldl (fun m e => m.insert e.1 e.2) empty

/-- Under each key the last value inserted counts; what has no key is not inserted. -/
theorem mem_foldl_insert {ι : Type} (key : ι → Option K) (value : ι → V) (l : List ι) (m : OrdMap K V)
    {e : K × V} :
    e ∈ (l.foldl (fun m i => (key i).elim m fun k => m.insert k (value i)) m).entries ↔
      (∃ front i back, l = front ++ i :: back ∧ key i = some e.1 ∧ value i = e.2 ∧
        ∀ j ∈ back, key j ≠ some e.1) ∨
      e ∈ m.entries ∧ ∀ j ∈ l, key j ≠ some e.1 := by
  induction l generalizing m with
  | nil => simp
  | cons i l ih =>
      have here : e ∈ ((key i).elim m fun k => m.insert k (value i)).entries ↔
          key i = some e.1 ∧ value i = e.2 ∨ e ∈ m.entries ∧ key i ≠ some e.1 := by
        cases hk : key i with
        | none => simp
        | some k =>
            rw [Option.elim_some, mem_insert]
            simp only [Prod.ext_iff, Option.some.injEq, ne_eq, eq_comm (a := k), eq_comm (a := value i)]
      rw [List.foldl_cons, ih, here]
      constructor
      · rintro (⟨front, j, back, rfl, same, last⟩ | ⟨⟨same, same'⟩ | ⟨old, other⟩, later⟩)
        · exact .inl ⟨i :: front, j, back, rfl, same, last⟩
        · exact .inl ⟨[], i, l, rfl, same, same', later⟩
        · exact .inr ⟨old, List.forall_mem_cons.mpr ⟨other, later⟩⟩
      · rintro (⟨front, j, back, split, same, same', last⟩ | ⟨old, other⟩)
        · cases front with
          | nil =>
              cases split
              exact .inr ⟨.inl ⟨same, same'⟩, last⟩
          | cons _ front =>
              cases split
              exact .inl ⟨front, j, back, rfl, same, same', last⟩
        · obtain ⟨other, later⟩ := List.forall_mem_cons.mp other
          exact .inr ⟨.inr ⟨old, other⟩, later⟩

def isEmpty (m : OrdMap K V) : Bool := m.entries.isEmpty

/-- The entries from `start` on. -/
def rangeFrom (m : OrdMap K V) (start : K) : List (K × V) :=
  m.entries.filter fun e => decide (start ≤ e.1)

/-- The entries from `start` on and below `stop`. A map with entries refuses bounds
that are out of order. -/
def range (m : OrdMap K V) (start stop : K) : Option (List (K × V)) :=
  if m.isEmpty then some []
  else if stop < start then none
  else some (m.entries.filter fun e => decide (start ≤ e.1) && decide (e.1 < stop))

/-- The entries are those that were inserted last under their keys. -/
theorem foldl_insert_perm {ι : Type} [DecidableEq K] (key : ι → K) (value : ι → V) (l : List ι) :
    (l.foldl (fun m i => m.insert (key i) (value i)) empty).entries.Perm
      ((lastBy key l).map fun i => (key i, value i)) := by
  have nodup := (l.foldl (fun m i => m.insert (key i) (value i)) empty).sorted.imp fun lt same =>
    lt.ne (congrArg Prod.fst same)
  have nodup' : ((lastBy key l).map fun i => (key i, value i)).Nodup := by
    have keys := nodup_lastBy key l
    rw [List.Nodup, List.pairwise_map] at keys ⊢
    exact keys.imp fun ne same => ne (congrArg Prod.fst same)
  rw [List.perm_ext_iff_of_nodup nodup nodup']
  intro e
  have inserted := mem_foldl_insert (fun i => some (key i)) value l empty (e := e)
  simp only [empty, List.not_mem_nil, false_and, or_false, ne_eq, Option.some.injEq] at inserted
  refine inserted.trans ?_
  rw [List.mem_map]
  simp only [mem_lastBy, Prod.ext_iff, ne_eq]
  constructor
  · rintro ⟨front, i, back, split, same, same', last⟩
    exact ⟨i, ⟨front, back, split, fun j hj => same ▸ last j hj⟩, same, same'⟩
  · rintro ⟨i, ⟨front, back, split, last⟩, same, same'⟩
    exact ⟨front, i, back, split, same, same', fun j hj => same ▸ last j hj⟩

end OrdMap
end Map
