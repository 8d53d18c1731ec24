import Minigraf.Graph.Lookups

/-!
The bounds of the lookups hold exactly the keys they are meant to, except that the bound
behind the last UUID wraps around; and the pending indexes hold an entry for each pending
fact, when no two of them share a key.
-/

namespace Minigraf

/-! ## Keys in range -/

section Bounds

theorem Int64.minValue_least (x : Int64) : Int64.minValue ≤ x := by
  rw [Int64.le_iff_toInt_le, Int64.toInt_minValue]
  exact x.minValue_le_toInt

theorem tail_least : ∀ y : Int64 ×ₗ Int64 ×ₗ UInt64,
    toLex (Int64.minValue, toLex (Int64.minValue, (0 : UInt64))) ≤ y :=
  toLex_bottom_least Int64.minValue_least (toLex_bottom_least Int64.minValue_least fun _ =>
    UInt64.zero_le)

theorem EavtKey.first_le (entity : EntityId) (attr : Attribute) (k : EavtKey) :
    EavtKey.first entity attr ≤ k ↔ entity < k.entity ∨ entity = k.entity ∧ attr ≤ k.attr := by
  change (EavtKey.first entity attr).fields ≤ k.fields ↔ _
  rw [EavtKey.fields, EavtKey.fields, Prod.Lex.toLex_le_toLex]
  exact or_congr_right (and_congr_right fun _ => toLex_bottom_le tail_least attr k.attr _)

theorem EavtKey.lt_first (entity : EntityId) (attr : Attribute) (k : EavtKey) :
    k < EavtKey.first entity attr ↔ k.entity < entity ∨ k.entity = entity ∧ k.attr < attr := by
  change k.fields < (EavtKey.first entity attr).fields ↔ _
  rw [EavtKey.fields, EavtKey.fields, Prod.Lex.toLex_lt_toLex]
  exact or_congr_right (and_congr_right fun _ => toLex_lt_bottom tail_least attr k.attr _)

theorem AevtKey.first_le (attr : Attribute) (k : AevtKey) : AevtKey.first attr ≤ k ↔ attr ≤ k.attr := by
  change (AevtKey.first attr).fields ≤ k.fields ↔ _
  exact toLex_bottom_le (toLex_bottom_least (fun x => Fin.zero_le x) tail_least) attr k.attr _

theorem AevtKey.lt_first (attr : Attribute) (k : AevtKey) : k < AevtKey.first attr ↔ k.attr < attr := by
  change k.fields < (AevtKey.first attr).fields ↔ _
  exact toLex_lt_bottom (toLex_bottom_least (fun x => Fin.zero_le x) tail_least) attr k.attr _

/-- Nothing lies between a list and the list with a least element behind it. -/
theorem eq_of_lt_append {α : Type} [LinearOrder α] {bottom : α} (least : ∀ x, bottom ≤ x)
    {l m : List α} (notLt : ¬ m < l) (lt : m < l ++ [bottom]) : m = l := by
  induction l generalizing m with
  | nil =>
      cases m with
      | nil => rfl
      | cons a m =>
          rw [List.nil_append, List.cons_lt_cons_iff] at lt
          obtain lt | ⟨_, lt⟩ := lt
          · exact absurd lt (not_lt.mpr (least a))
          · exact absurd lt (List.not_lt_nil m)
  | cons b l ih =>
      cases m with
      | nil => exact absurd (List.nil_lt_cons b l) notLt
      | cons a m =>
          rw [List.cons_append, List.cons_lt_cons_iff] at lt
          rw [List.cons_lt_cons_iff, not_or, not_and] at notLt
          obtain lt | ⟨rfl, lt⟩ := lt
          · exact absurd lt notLt.1
          · rw [ih (notLt.2 rfl) lt]

theorem lt_append_singleton {α : Type} [LT α] (l : List α) (a : α) : l < l ++ [a] := by
  induction l with
  | nil => exact List.nil_lt_cons a []
  | cons b l ih =>
      rw [List.cons_append, List.cons_lt_cons_iff]
      exact .inr ⟨rfl, ih⟩

theorem attr_in_range (attr attr' : Attribute) :
    attr ≤ attr' ∧ attr' < nextAttribute attr ↔ attr' = attr := by
  have least (c : Char) : '\x00' ≤ c := Nat.zero_le c.toNat
  rw [← not_lt, String.lt_iff_toList_lt, String.lt_iff_toList_lt, nextAttribute, String.toList_push]
  constructor
  · rintro ⟨notLt, lt⟩
    exact String.toList_inj.mp (eq_of_lt_append least notLt lt)
  · rintro rfl
    exact ⟨lt_irrefl _, lt_append_singleton _ _⟩

/-- The range of a map, where its bounds are in order or it has no entries. -/
theorem OrdMap.range_eq {K V : Type} [LinearOrder K] {m : OrdMap K V} {start stop : K}
    (ordered : start ≤ stop ∨ m.entries = []) :
    m.range start stop = some (m.entries.filter fun e => inRange start (some stop) e.1) := by
  have same (key : K) : (decide (start ≤ key) && decide (key < stop)) = inRange start (some stop) key := by
    simp [inRange, ← not_le]
  unfold OrdMap.range OrdMap.isEmpty
  split
  · rename_i empty
    rw [List.isEmpty_iff.mp empty]
    rfl
  · rename_i some_
    rw [if_neg (not_lt.mpr (ordered.resolve_right fun empty => some_ (by rw [empty]; rfl)))]
    simp only [same]

theorem EavtKey.first_empty_le (entity : EntityId) (k : EavtKey) :
    EavtKey.first entity "" ≤ k ↔ entity ≤ k.entity := by
  have least : "" ≤ k.attr := by
    rw [String.le_iff_toList_le, ← not_lt]
    exact List.not_lt_nil _
  rw [EavtKey.first_le, le_iff_lt_or_eq (a := entity)]
  exact or_congr_right (and_iff_left least)

theorem EavtKey.inRange_entity {entityId : EntityId} (inner : entityId ≠ Fin.last _) (k : EavtKey) :
    inRange (first entityId "") (some (first (entityId + 1) "")) k = decide (k.entity = entityId) := by
  have next : ((entityId + 1 : EntityId) : Nat) = entityId + 1 :=
    Fin.val_add_one_of_lt (Fin.lt_last_iff_ne_last.mpr inner)
  rw [Bool.eq_iff_iff]
  simp only [inRange, Option.any_some, EavtKey.first_empty_le, Bool.and_eq_true, decide_eq_true_eq,
    Bool.not_eq_true', decide_eq_false_iff_not, Fin.le_def, Fin.ext_iff, next]
  omega

theorem EavtKey.inRange_last (k : EavtKey) :
    inRange (first (Fin.last _) "") (some (first (Fin.last _ + 1) "")) k = false := by
  have least : EavtKey.first (Fin.last _ + 1) "" ≤ k := by
    rw [EavtKey.first_empty_le, Fin.last_add_one]
    exact Fin.zero_le _
  rw [inRange, Option.any_some, decide_eq_true least, Bool.not_true, Bool.and_false]

theorem EavtKey.inRange_attr (entityId : EntityId) (attr : Attribute) (k : EavtKey) :
    inRange (first entityId attr) (some (first entityId (nextAttribute attr))) k =
      decide (k.entity = entityId ∧ k.attr = attr) := by
  have exact_ := attr_in_range attr k.attr
  rw [Bool.eq_iff_iff]
  simp only [inRange, Option.any_some, EavtKey.first_le, Bool.and_eq_true, decide_eq_true_eq,
    Bool.not_eq_true', decide_eq_false_iff_not, not_or, not_and, not_le, ← exact_]
  constructor
  · rintro ⟨lt | ⟨rfl, low⟩, notLt, high⟩
    · exact absurd lt notLt
    · exact ⟨rfl, low, high rfl⟩
  · rintro ⟨rfl, low, high⟩
    exact ⟨.inr ⟨rfl, low⟩, lt_irrefl _, fun _ => high⟩

/-- From the first key of an entity and an attribute on, the keys of the pair come first. -/
theorem EavtKey.takeWhile_rangeFrom {V : Type} (m : OrdMap EavtKey V) (entityId : EntityId)
    (attr : Attribute) :
    ((m.rangeFrom (first entityId attr)).takeWhile
      fun e => decide (e.1.entity = entityId ∧ e.1.attr = attr)) =
      m.entries.filter fun e => decide (e.1.entity = entityId ∧ e.1.attr = attr) := by
  simp only [← EavtKey.inRange_attr]
  have sorted : (m.rangeFrom (first entityId attr)).Pairwise
      fun a b => a.1 < b.1 ∧ first entityId attr ≤ a.1 := by
    refine (m.sorted.filter _).imp_of_mem fun {a b} ha _ lt => ⟨lt, ?_⟩
    exact of_decide_eq_true (List.mem_filter.mp ha).2
  rw [List.takeWhile_eq_filter_of_pairwise sorted, OrdMap.rangeFrom, List.filter_filter]
  · refine List.filter_congr fun e _ => ?_
    cases hin : inRange (first entityId attr) (some (first entityId (nextAttribute attr))) e.1 with
    | true => rw [Bool.true_and, (Bool.and_eq_true_iff.mp hin).1]
    | false => rw [Bool.false_and]
  · rintro a b ⟨lt, low⟩ hb
    have high := (Bool.and_eq_true_iff.mp hb).2
    simp only [Option.any_some, Bool.not_eq_true', decide_eq_false_iff_not, not_le] at high
    simp [inRange, low, lt.trans high]

theorem AevtKey.inRange_attr (attr : Attribute) (k : AevtKey) :
    inRange (first attr) (some (first (nextAttribute attr))) k = decide (k.attr = attr) := by
  simp only [inRange, AevtKey.first_le, Option.any_some, ← attr_in_range attr k.attr, ← not_le,
    Bool.decide_and, decide_not]

end Bounds

/-! ## Pending indexes -/

section Pending

theorem map_pendingPlaced (facts : List Fact) : (pendingPlaced facts).map Prod.fst = facts := by
  rw [pendingPlaced, List.map_map]
  exact List.zipIdx_map_fst 0 facts

theorem foldl_insert_eavt (placed : List (Fact × FactRef)) (idx : Indexes) :
    (placed.foldl (fun idx p => idx.insert p.1 p.2) idx).eavt =
      placed.foldl (fun m p => m.insert p.1.eavtKey p.2) idx.eavt := by
  induction placed generalizing idx with
  | nil => rfl
  | cons p placed ih => exact ih _

theorem foldl_insert_aevt (placed : List (Fact × FactRef)) (idx : Indexes) :
    (placed.foldl (fun idx p => idx.insert p.1 p.2) idx).aevt =
      placed.foldl (fun m p => m.insert p.1.aevtKey p.2) idx.aevt := by
  induction placed generalizing idx with
  | nil => rfl
  | cons p placed ih => exact ih _

/-- The pending facts an index has: of those with one key the last. -/
def latestPlaced (facts : List Fact) : List (Fact × FactRef) :=
  lastBy (fun p => p.1.eavtKey) (pendingPlaced facts)

def latestFacts (facts : List Fact) : List Fact := lastBy Fact.eavtKey facts

theorem latestFacts_nil : latestFacts [] = [] := rfl

theorem map_latestPlaced (facts : List Fact) : (latestPlaced facts).map Prod.fst = latestFacts facts := by
  rw [latestPlaced, latestFacts, map_lastBy, map_pendingPlaced]

theorem latestPlaced_eq_nil {facts : List Fact} : latestPlaced facts = [] ↔ facts = [] := by
  rw [latestPlaced, lastBy_eq_nil, ← List.map_eq_nil_iff (f := Prod.fst), map_pendingPlaced]

/-- Facts that have their keys to themselves. -/
theorem latestFacts_eq {facts : List Fact} (distinct : (facts.map Fact.eavtKey).Nodup) : latestFacts facts = facts :=
  lastBy_eq_self distinct

/-- The keys of the two indexes tell the same facts apart. -/
theorem aevtKey_eq_iff (f g : Fact) : f.aevtKey = g.aevtKey ↔ f.eavtKey = g.eavtKey := by
  simp only [Fact.aevtKey, Fact.eavtKey, AevtKey.mk.injEq, EavtKey.mk.injEq]
  exact and_left_comm

/-- The references a filter keeps of the entries. -/
theorem refs_perm {K : Type} {key : Fact → K} {placed : List (Fact × FactRef)} {entries : List (K × FactRef)}
    (perm : entries.Perm (placed.map fun p => (key p.1, p.2))) (q : K → Bool) :
    ((entries.filter fun e => q e.1).map Prod.snd).Perm
      ((placed.filter fun p => q (key p.1)).map Prod.snd) := by
  refine ((perm.filter _).map _).trans ?_
  rw [List.filter_map, List.map_map]
  exact .refl _

theorem FactStorage.Ok.eavt_perm {s : FactStorage} (h : s.Ok) :
    s.pendingIndexes.eavt.entries.Perm ((latestPlaced s.facts).map fun p => (p.1.eavtKey, p.2)) := by
  rw [h.indexes, foldl_insert_eavt]
  exact OrdMap.foldl_insert_perm (fun p => p.1.eavtKey) Prod.snd (pendingPlaced s.facts)

theorem FactStorage.Ok.aevt_perm {s : FactStorage} (h : s.Ok) :
    s.pendingIndexes.aevt.entries.Perm ((latestPlaced s.facts).map fun p => (p.1.aevtKey, p.2)) := by
  rw [h.indexes, foldl_insert_aevt, latestPlaced, ← lastBy_congr fun p q => aevtKey_eq_iff p.1 q.1]
  exact OrdMap.foldl_insert_perm (fun p => p.1.aevtKey) Prod.snd (pendingPlaced s.facts)

end Pending

end Minigraf
