import Minigraf.Query.Windows

/-!
The partitions of a window: each row stands in one, with the rows of the same partition
value.
-/

namespace Minigraf

/-! ## Keys -/

theorem sameKey_symm {a b : Option Value} (same : sameKey a b = true) : sameKey b a = true := by
  cases a with
  | none =>
      cases b with
      | none => rfl
      | some w => cases same
  | some v =>
      cases b with
      | none => cases same
      | some w => exact Value.eq_comm same

theorem sameKey_trans {a b c : Option Value} (left : sameKey a b = true) (right : sameKey b c = true) :
    sameKey a c = true := by
  cases a with
  | none =>
      cases b with
      | none => exact right
      | some w => cases left
  | some v =>
      cases b with
      | none => cases left
      | some w =>
          cases c with
          | none => cases right
          | some x => exact Value.eq_trans left right

/-- The rows in the partition of a row. -/
def peers (ws : WindowSpec) (rows : List Row) (i : Nat) : List Nat :=
  (List.range rows.length).filter fun j => decide (j = i) || sameKey (partitionKey ws rows i) (partitionKey ws rows j)

theorem mem_peers {ws : WindowSpec} {rows : List Row} {i j : Nat} : j ∈ peers ws rows i ↔
    j < rows.length ∧ (j = i ∨ sameKey (partitionKey ws rows i) (partitionKey ws rows j) = true) := by
  rw [peers, List.mem_filter, List.mem_range, Bool.or_eq_true, decide_eq_true_iff]

theorem peers_nodup (ws : WindowSpec) (rows : List Row) (i : Nat) : (peers ws rows i).Nodup :=
  List.nodup_range.filter _

/-! ## One more row -/

section

variable (key : Nat → Option Value)

/-- The entries of the map after the first `m` rows. -/
structure Parted (m : Nat) (parts : List (Option Value × List Nat)) : Prop where
  perm : (parts.flatMap Prod.snd).Perm (List.range m)
  first : ∀ entry ∈ parts, ∃ i, i ∈ entry.2 ∧ entry.1 = key i ∧
    ∀ j < m, j ∈ entry.2 ↔ j = i ∨ sameKey (key i) (key j) = true

variable {key}

/-- A row is pushed on the first entry of its key, or on a new one. -/
theorem pushRow_cases (k : Option Value) (i : Nat) (parts : List (Option Value × List Nat)) :
    ((∀ entry ∈ parts, sameKey entry.1 k = false) ∧ pushRow k i parts = parts ++ [(k, [i])]) ∨
      ∃ before k' rows after, parts = before ++ (k', rows) :: after ∧ sameKey k' k = true ∧
        pushRow k i parts = before ++ (k', rows ++ [i]) :: after := by
  induction parts with
  | nil => exact .inl ⟨nofun, rfl⟩
  | cons entry parts ih =>
      obtain ⟨k', rows⟩ := entry
      cases same : sameKey k' k with
      | true =>
          refine .inr ⟨[], k', rows, parts, rfl, same, ?_⟩
          rw [pushRow, if_pos same]
          rfl
      | false =>
          have later : pushRow k i ((k', rows) :: parts) = (k', rows) :: pushRow k i parts := by
            rw [pushRow, same]
            rfl
          rcases ih with ⟨none_, run⟩ | ⟨before, k₁, rows₁, after, split, own, run⟩
          · refine .inl ⟨?_, by rw [later, run]; rfl⟩
            intro other mem
            rcases List.mem_cons.mp mem with rfl | mem
            · exact same
            · exact none_ other mem
          · exact .inr ⟨(k', rows) :: before, k₁, rows₁, after, by rw [split]; rfl, own, by rw [later, run]; rfl⟩

namespace Parted

variable {m : Nat} {parts : List (Option Value × List Nat)}

theorem lt_of_mem (parted : Parted key m parts) {entry : Option Value × List Nat} (mem : entry ∈ parts) {j : Nat}
    (own : j ∈ entry.2) : j < m :=
  List.mem_range.mp (parted.perm.mem_iff.mp (List.mem_flatMap.mpr ⟨entry, mem, own⟩))

theorem new (parted : Parted key m parts) (none_ : ∀ entry ∈ parts, sameKey entry.1 (key m) = false) :
    Parted key (m + 1) (parts ++ [(key m, [m])]) where
  perm := by
    rw [List.flatMap_append, List.range_succ]
    exact parted.perm.append_right [m]
  first := by
    intro entry mem
    rcases List.mem_append.mp mem with old | new
    · obtain ⟨i, own, at_, members⟩ := parted.first entry old
      refine ⟨i, own, at_, ?_⟩
      intro j below
      rcases Nat.lt_succ_iff_lt_or_eq.mp below with below | last
      · exact members j below
      · have other := none_ entry old
        rw [at_] at other
        rw [last]
        refine iff_of_false (fun own => Nat.lt_irrefl _ (parted.lt_of_mem old own)) ?_
        rintro (rfl | same)
        · exact Nat.lt_irrefl _ (parted.lt_of_mem old own)
        · rw [other] at same
          cases same
    · cases List.mem_singleton.mp new
      refine ⟨m, List.mem_singleton_self m, rfl, ?_⟩
      intro j below
      rw [List.mem_singleton]
      refine ⟨.inl, ?_⟩
      rintro (rfl | same)
      · rfl
      · rcases Nat.lt_succ_iff_lt_or_eq.mp below with below | rfl
        · obtain ⟨entry, mem, own⟩ := List.mem_flatMap.mp (parted.perm.mem_iff.mpr (List.mem_range.mpr below))
          obtain ⟨i, _, at_, members⟩ := parted.first entry mem
          have other := none_ entry mem
          rw [at_] at other
          rcases (members j below).mp own with rfl | between
          · rw [sameKey_symm same] at other
            cases other
          · rw [sameKey_trans between (sameKey_symm same)] at other
            cases other
        · rfl

theorem pushed {before after : List (Option Value × List Nat)} {k : Option Value} {rows : List Nat}
    (parted : Parted key m (before ++ (k, rows) :: after)) (same : sameKey k (key m) = true) :
    Parted key (m + 1) (before ++ (k, rows ++ [m]) :: after) where
  perm := by
    have old := parted.perm
    rw [List.flatMap_append, List.flatMap_cons] at old ⊢
    rw [List.range_succ]
    have moved : (before.flatMap Prod.snd ++ (rows ++ [m] ++ after.flatMap Prod.snd)).Perm
        (before.flatMap Prod.snd ++ (rows ++ after.flatMap Prod.snd) ++ [m]) := by
      rw [List.append_assoc rows, List.append_assoc (before.flatMap Prod.snd), List.append_assoc rows]
      exact ((@List.perm_append_comm _ [m] _).append_left rows).append_left _
    exact moved.trans (old.append_right [m])
  first := by
    have whole := parted.perm.nodup_iff.mpr List.nodup_range
    rw [List.flatMap_append, List.flatMap_cons, List.nodup_append] at whole
    obtain ⟨_, inner, fromBefore⟩ := whole
    have fromAfter := (List.nodup_append.mp inner).2.2
    have matched : (k, rows) ∈ before ++ (k, rows) :: after := List.mem_append_right _ List.mem_cons_self
    obtain ⟨i₀, own₀, at₀, members₀⟩ := parted.first _ matched
    have at₀ : k = key i₀ := at₀
    have others : ∀ entry, (entry ∈ before ∨ entry ∈ after) → ∃ i, i ∈ entry.2 ∧ entry.1 = key i ∧
        ∀ j < m + 1, j ∈ entry.2 ↔ j = i ∨ sameKey (key i) (key j) = true := by
      intro entry place
      have old : entry ∈ before ++ (k, rows) :: after := by
        rcases place with place | place
        · exact List.mem_append_left _ place
        · exact List.mem_append_right _ (List.mem_cons_of_mem _ place)
      obtain ⟨i, own, at_, members⟩ := parted.first entry old
      have below := parted.lt_of_mem old own
      refine ⟨i, own, at_, ?_⟩
      intro j within
      rcases Nat.lt_succ_iff_lt_or_eq.mp within with within | last
      · exact members j within
      · rw [last]
        refine iff_of_false (fun own => Nat.lt_irrefl _ (parted.lt_of_mem old own)) ?_
        rintro (rfl | reached)
        · exact Nat.lt_irrefl _ below
        · have shared : i ∈ rows := by
            apply (members₀ i below).mpr
            rw [at₀] at same
            exact .inr (sameKey_trans same (sameKey_symm reached))
          rcases place with place | place
          · exact fromBefore i (List.mem_flatMap.mpr ⟨entry, place, own⟩) i (List.mem_append_left _ shared) rfl
          · exact fromAfter i shared i (List.mem_flatMap.mpr ⟨entry, place, own⟩) rfl
    intro entry mem
    rcases List.mem_append.mp mem with place | place
    · exact others entry (.inl place)
    · rcases List.mem_cons.mp place with rfl | place
      · refine ⟨i₀, List.mem_append_left _ own₀, at₀, ?_⟩
        intro j within
        rw [List.mem_append, List.mem_singleton]
        rcases Nat.lt_succ_iff_lt_or_eq.mp within with within | last
        · rw [← members₀ j within, or_iff_left within.ne]
        · rw [at₀] at same
          rw [last]
          exact iff_of_true (.inr rfl) (.inr same)
      · exact others entry (.inr place)

end Parted

theorem parted_partitions (ws : WindowSpec) (rows : List Row) :
    Parted (partitionKey ws rows) rows.length (partitions ws rows) := by
  have steps : ∀ m, Parted (partitionKey ws rows) m
      ((List.range m).foldl (fun parts i => pushRow (partitionKey ws rows i) i parts) []) := by
    intro m
    induction m with
    | zero => exact ⟨List.Perm.refl _, nofun⟩
    | succ m ih =>
        rw [List.range_succ, List.foldl_append, List.foldl_cons, List.foldl_nil]
        generalize (List.range m).foldl _ [] = parts at ih
        rcases pushRow_cases (partitionKey ws rows m) m parts with ⟨none_, run⟩ | ⟨before, k, own, after, split, same, run⟩
        · rw [run]
          exact ih.new none_
        · rw [run]
          rw [split] at ih
          exact ih.pushed same
  exact steps rows.length

/-- Every partition is that of each of its rows. -/
theorem partition_perm_peers {ws : WindowSpec} {rows : List Row} {part : List Nat}
    (own : part ∈ (partitions ws rows).map Prod.snd) {i : Nat} (mem : i ∈ part) : part.Perm (peers ws rows i) := by
  have parted := parted_partitions ws rows
  obtain ⟨entry, place, rfl⟩ := List.mem_map.mp own
  obtain ⟨i₀, _, _, members⟩ := parted.first entry place
  have nodup : entry.2.Nodup := (List.nodup_flatMap.mp (parted.perm.nodup_iff.mpr List.nodup_range)).1 entry place
  apply (List.perm_ext_iff_of_nodup nodup (peers_nodup ws rows i)).mpr
  intro j
  have reached := (members i (parted.lt_of_mem place mem)).mp mem
  rw [mem_peers]
  constructor
  · intro own
    have below := parted.lt_of_mem place own
    refine ⟨below, ?_⟩
    rcases reached with rfl | left
    · exact (members j below).mp own
    · rcases (members j below).mp own with rfl | right
      · exact .inr (sameKey_symm left)
      · exact .inr (sameKey_trans (sameKey_symm left) right)
  · intro ⟨below, near⟩
    rcases near with rfl | near
    · exact mem
    · rcases reached with rfl | left
      · exact (members j below).mpr (.inr near)
      · exact (members j below).mpr (.inr (sameKey_trans left near))

theorem exists_partition (ws : WindowSpec) {rows : List Row} {i : Nat} (below : i < rows.length) :
    ∃ part ∈ (partitions ws rows).map Prod.snd, i ∈ part := by
  have parted := parted_partitions ws rows
  obtain ⟨entry, place, own⟩ := List.mem_flatMap.mp (parted.perm.mem_iff.mpr (List.mem_range.mpr below))
  exact ⟨entry.2, List.mem_map_of_mem place, own⟩

end
end Minigraf
