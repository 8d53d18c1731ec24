import Minigraf.Graph.Temporal

/-!
What `net_asserted_facts` keeps. The two group maps hold, of each triple, the newest
retraction and, of each window, the newest assertion, the first of those that are
equally new; a fact is kept when it is the one its window holds and is newer than every
retraction of its triple.
-/

namespace Minigraf

def Fact.eavKey (f : Fact) : EavKey := (f.entity, f.attr, encodeValue f.value)

def Fact.windowKey (f : Fact) : WindowKey :=
  (f.entity, f.attr, encodeValue f.value, f.validFrom, f.validTo)

theorem Fact.eavKey_of_windowKey {f g : Fact} (h : f.windowKey = g.windowKey) : f.eavKey = g.eavKey := by
  simp only [windowKey, Prod.mk.injEq] at h
  simp only [eavKey, h.1, h.2.1, h.2.2.1]

/-- No retraction of the triple is as new as the fact. -/
def Unretracted (facts : List Fact) (f : Fact) : Prop :=
  0 < f.txCount ∧ ∀ r ∈ facts, r.asserted = false → r.eavKey = f.eavKey → r.txCount < f.txCount

/-- The fact at this place is the newest of its window, the first of the newest. -/
def Best (items : List (Fact × Nat)) (p : Fact × Nat) : Prop :=
  ∀ q ∈ items, q.1.asserted = true → q.1.windowKey = p.1.windowKey →
    q.1.txCount < p.1.txCount ∨ q.1.txCount = p.1.txCount ∧ p.2 ≤ q.2

theorem Best.le {items : List (Fact × Nat)} {p q : Fact × Nat} (h : Best items p) (hq : q ∈ items)
    (asserted : q.1.asserted = true) (same : q.1.windowKey = p.1.windowKey) :
    q.1.txCount ≤ p.1.txCount := by
  obtain less | ⟨equal, _⟩ := h q hq asserted same
  · exact less.le
  · exact equal.le

/-- What the group maps hold after these facts with their places. -/
structure Tallied (items : List (Fact × Nat)) (g : NetGroups) : Prop where
  retracted : ∀ k c, (g.maxRetractTx.lookup k).getD 0 < c ↔
    0 < c ∧ ∀ p ∈ items, p.1.asserted = false → p.1.eavKey = k → p.1.txCount < c
  winner : ∀ w i n, g.byWindow.lookup w = some (i, n) ↔
    ∃ p ∈ items, p.1.asserted = true ∧ p.1.windowKey = w ∧ p.1.txCount = n ∧ p.2 = i ∧ Best items p
  known : ∀ w, g.byWindow.lookup w = none ↔
    ∀ p ∈ items, p.1.asserted = true → p.1.windowKey ≠ w

/-- An item of the source's loop, from a fact and its place. -/
def withValue (p : Fact × Nat) : (Fact × List UInt8) × Nat := ((p.1, encodeValue p.1.value), p.2)

theorem Tallied.nil : Tallied [] ⟨∅, ∅⟩ := by
  refine ⟨fun k c => ?_, fun w i n => ?_, fun w => ?_⟩
  · simp
  · simp
  · simp

theorem NetGroups.add_retraction (g : NetGroups) {p : Fact × Nat} (retracts : p.1.asserted = false) :
    g.add (withValue p) = ⟨g.maxRetractTx.insert p.1.eavKey
      (max ((g.maxRetractTx.lookup p.1.eavKey).getD 0) p.1.txCount), g.byWindow⟩ := by
  simp only [NetGroups.add, withValue, retracts, Bool.false_eq_true, if_false]
  cases known : g.maxRetractTx.lookup p.1.eavKey with
  | some old =>
      rw [Fact.eavKey] at known
      rw [known, Option.getD_some]
      rfl
  | none =>
      rw [Fact.eavKey] at known
      rw [known, Option.getD_none, max_eq_right UInt64.zero_le]
      rfl

theorem NetGroups.add_assertion (g : NetGroups) {p : Fact × Nat} (asserts : p.1.asserted = true) :
    g.add (withValue p) =
      if ∀ old ∈ g.byWindow.lookup p.1.windowKey, old.2 < p.1.txCount then
        ⟨g.maxRetractTx, g.byWindow.insert p.1.windowKey (p.2, p.1.txCount)⟩
      else g := by
  simp only [NetGroups.add, withValue, asserts, if_true]
  cases known : g.byWindow.lookup p.1.windowKey with
  | some old =>
      rw [Fact.windowKey] at known
      simp only [known, Option.mem_def, Option.some.injEq, forall_eq']
      rfl
  | none =>
      rw [Fact.windowKey] at known
      simp only [known, Option.mem_def, reduceCtorEq, false_implies, implies_true, if_true]
      rfl

theorem Tallied.retraction {items : List (Fact × Nat)} {g : NetGroups} (h : Tallied items g)
    {p : Fact × Nat} (retracts : p.1.asserted = false) :
    Tallied (items ++ [p]) (g.add (withValue p)) := by
  have others {q : Fact × Nat} (hq : q ∈ items ++ [p]) (asserted : q.1.asserted = true) : q ∈ items := by
    obtain hq | hq := List.mem_append.mp hq
    · exact hq
    · rw [List.mem_singleton.mp hq, retracts] at asserted
      cases asserted
  have best (q : Fact × Nat) : Best (items ++ [p]) q ↔ Best items q :=
    ⟨fun b r hr => b r (List.mem_append_left _ hr), fun b r hr asserted => b r (others hr asserted) asserted⟩
  rw [g.add_retraction retracts]
  refine ⟨fun k c => ?_, fun w i n => ?_, fun w => ?_⟩
  · have before := h.retracted k c
    by_cases here : k = p.1.eavKey
    · subst here
      rw [AList.lookup_insert, Option.getD_some, max_lt_iff, before]
      constructor
      · rintro ⟨⟨pos, old⟩, new⟩
        refine ⟨pos, fun q hq retraction key => ?_⟩
        obtain hq | hq := List.mem_append.mp hq
        · exact old q hq retraction key
        · rw [List.mem_singleton.mp hq]
          exact new
      · rintro ⟨pos, all⟩
        exact ⟨⟨pos, fun q hq => all q (List.mem_append_left _ hq)⟩,
          all p (List.mem_append_right _ List.mem_cons_self) retracts rfl⟩
    · rw [AList.lookup_insert_ne here, before]
      refine and_congr_right fun _ => ⟨fun old q hq retraction key => ?_,
        fun all q hq => all q (List.mem_append_left _ hq)⟩
      obtain hq | hq := List.mem_append.mp hq
      · exact old q hq retraction key
      · rw [List.mem_singleton.mp hq] at key
        exact absurd key.symm here
  · rw [h.winner]
    constructor
    · rintro ⟨q, hq, asserted, key, count, place, b⟩
      exact ⟨q, List.mem_append_left _ hq, asserted, key, count, place, (best q).mpr b⟩
    · rintro ⟨q, hq, asserted, key, count, place, b⟩
      exact ⟨q, others hq asserted, asserted, key, count, place, (best q).mp b⟩
  · rw [h.known]
    exact ⟨fun none_ q hq asserted => none_ q (others hq asserted) asserted,
      fun none_ q hq => none_ q (List.mem_append_left _ hq)⟩

theorem Tallied.assertion {items : List (Fact × Nat)} {g : NetGroups} (h : Tallied items g)
    {p : Fact × Nat} (asserts : p.1.asserted = true) (last : ∀ q ∈ items, q.2 < p.2) :
    Tallied (items ++ [p]) (g.add (withValue p)) := by
  have here : p ∈ items ++ [p] := List.mem_append_right _ List.mem_cons_self
  -- Another window keeps its winner.
  have elsewhere {q : Fact × Nat} (other : q.1.windowKey ≠ p.1.windowKey) :
      Best (items ++ [p]) q ↔ Best items q := by
    refine ⟨fun b r hr => b r (List.mem_append_left _ hr), fun b r hr asserted same => ?_⟩
    obtain hr | hr := List.mem_append.mp hr
    · exact b r hr asserted same
    · rw [List.mem_singleton.mp hr] at same
      exact absurd same.symm other
  have retracted {g' : NetGroups} (same : g'.maxRetractTx = g.maxRetractTx) (k : EavKey) (c : UInt64) :
      (g'.maxRetractTx.lookup k).getD 0 < c ↔
        0 < c ∧ ∀ q ∈ items ++ [p], q.1.asserted = false → q.1.eavKey = k → q.1.txCount < c := by
    rw [same, h.retracted k c]
    refine and_congr_right fun _ => ⟨fun old q hq retraction key => ?_,
      fun all q hq => all q (List.mem_append_left _ hq)⟩
    obtain hq | hq := List.mem_append.mp hq
    · exact old q hq retraction key
    · rw [List.mem_singleton.mp hq, asserts] at retraction
      cases retraction
  rw [g.add_assertion asserts]
  split
  · rename_i newer
    -- No assertion of the window so far is as new as this one.
    have beaten {q : Fact × Nat} (hq : q ∈ items) (asserted : q.1.asserted = true)
        (same : q.1.windowKey = p.1.windowKey) : q.1.txCount < p.1.txCount := by
      cases known : g.byWindow.lookup p.1.windowKey with
      | none => exact absurd same ((h.known _).mp known q hq asserted)
      | some old =>
          obtain ⟨r, _, _, key, count, _, b⟩ := (h.winner _ old.1 old.2).mp known
          rw [← key] at same
          calc q.1.txCount ≤ r.1.txCount := b.le hq asserted same
            _ = old.2 := count
            _ < p.1.txCount := newer old known
    have best : Best (items ++ [p]) p := by
      intro q hq asserted same
      obtain hq | hq := List.mem_append.mp hq
      · exact .inl (beaten hq asserted same)
      · rw [List.mem_singleton.mp hq]
        exact .inr ⟨rfl, le_rfl⟩
    refine ⟨retracted rfl, fun w i n => ?_, fun w => ?_⟩
    · by_cases at_ : w = p.1.windowKey
      · subst at_
        rw [AList.lookup_insert, Option.some.injEq, Prod.mk.injEq]
        constructor
        · rintro ⟨rfl, rfl⟩
          exact ⟨p, here, asserts, rfl, rfl, rfl, best⟩
        · rintro ⟨q, hq, asserted, key, rfl, rfl, b⟩
          obtain hq | hq := List.mem_append.mp hq
          · have least := b.le here asserts key.symm
            exact absurd (beaten hq asserted key) (not_lt.mpr least)
          · rw [List.mem_singleton.mp hq]
            exact ⟨rfl, rfl⟩
      · rw [AList.lookup_insert_ne at_, h.winner]
        constructor
        · rintro ⟨q, hq, asserted, key, count, place, b⟩
          exact ⟨q, List.mem_append_left _ hq, asserted, key, count, place,
            (elsewhere (key ▸ at_)).mpr b⟩
        · rintro ⟨q, hq, asserted, key, count, place, b⟩
          obtain hq | hq := List.mem_append.mp hq
          · exact ⟨q, hq, asserted, key, count, place, (elsewhere (key ▸ at_)).mp b⟩
          · rw [List.mem_singleton.mp hq] at key
            exact absurd key.symm at_
    · by_cases at_ : w = p.1.windowKey
      · subst at_
        rw [AList.lookup_insert]
        exact ⟨(fun no => nomatch no), fun none_ => absurd rfl (none_ p here asserts)⟩
      · rw [AList.lookup_insert_ne at_, h.known]
        refine ⟨fun none_ q hq asserted => ?_, fun none_ q hq => none_ q (List.mem_append_left _ hq)⟩
        obtain hq | hq := List.mem_append.mp hq
        · exact none_ q hq asserted
        · rw [List.mem_singleton.mp hq]
          exact Ne.symm at_
  · rename_i older
    push Not at older
    obtain ⟨old, known, least⟩ := older
    obtain ⟨r, hr, asserted', key', count', place', b'⟩ := (h.winner _ old.1 old.2).mp known
    rw [← count'] at least
    -- The winner of the window stays, since it came first and is as new.
    have best {q : Fact × Nat} (hq : q ∈ items) (asserted : q.1.asserted = true) :
        Best (items ++ [p]) q ↔ Best items q := by
      refine ⟨fun b s hs => b s (List.mem_append_left _ hs), fun b s hs asserted'' same => ?_⟩
      obtain hs | hs := List.mem_append.mp hs
      · exact b s hs asserted'' same
      · rw [List.mem_singleton.mp hs] at same ⊢
        have above : p.1.txCount ≤ q.1.txCount := least.trans (b.le hr asserted' (key'.trans same))
        obtain less | equal := above.lt_or_eq
        · exact .inl less
        · exact .inr ⟨equal, (last q hq).le⟩
    refine ⟨retracted rfl, fun w i n => ?_, fun w => ?_⟩
    · rw [h.winner]
      constructor
      · rintro ⟨q, hq, asserted, key, count, place, b⟩
        exact ⟨q, List.mem_append_left _ hq, asserted, key, count, place, (best hq asserted).mpr b⟩
      · rintro ⟨q, hq, asserted, key, count, place, b⟩
        obtain hq | hq := List.mem_append.mp hq
        · exact ⟨q, hq, asserted, key, count, place, (best hq asserted).mp b⟩
        · rw [List.mem_singleton.mp hq] at key b
          subst key
          obtain less | ⟨_, early⟩ := b r (List.mem_append_left _ hr) asserted' key'
          · exact absurd less (not_lt.mpr least)
          · exact absurd (last r hr) (not_lt.mpr early)
    · rw [h.known]
      refine ⟨fun none_ q hq asserted => ?_, fun none_ q hq => none_ q (List.mem_append_left _ hq)⟩
      obtain hq | hq := List.mem_append.mp hq
      · exact none_ q hq asserted
      · rw [List.mem_singleton.mp hq]
        intro at_
        exact none_ r hr asserted' (key'.trans at_)

theorem Tallied.foldl {items : List (Fact × Nat)} {g : NetGroups} (h : Tallied items g)
    (later : List (Fact × Nat)) (ordered : (items ++ later).Pairwise fun p q => p.2 < q.2) :
    Tallied (items ++ later) ((later.map withValue).foldl NetGroups.add g) := by
  induction later generalizing items g with
  | nil =>
      rw [List.append_nil]
      exact h
  | cons p later ih =>
      have last : ∀ q ∈ items, q.2 < p.2 := fun q hq =>
        (List.pairwise_append.mp ordered).2.2 q hq p List.mem_cons_self
      rw [← List.singleton_append, ← List.append_assoc] at ordered ⊢
      rw [List.singleton_append, List.map_cons, List.foldl_cons]
      refine ih ?_ ordered
      cases asserts : p.1.asserted with
      | false => exact h.retraction asserts
      | true => exact h.assertion asserts last

theorem zipIdx_zip_map (facts : List Fact) :
    (facts.zip (facts.map fun f => encodeValue f.value)).zipIdx = facts.zipIdx.map withValue := by
  rw [List.zip_map_right, List.zipIdx_map]
  apply List.ext_getElem
  · simp
  · intro i h₁ h₂
    simp [withValue]

/-- The group maps of `net_asserted_facts`. -/
theorem Tallied.all (facts : List Fact) :
    Tallied facts.zipIdx ((facts.zip (facts.map fun f => encodeValue f.value)).zipIdx.foldl
      NetGroups.add ⟨∅, ∅⟩) := by
  rw [zipIdx_zip_map]
  refine Tallied.nil.foldl facts.zipIdx ?_
  rw [List.nil_append, List.pairwise_iff_getElem]
  intro i j hi hj less
  simpa using less

/-- The entry of a window whose winner no retraction reaches. -/
def NetGroups.Keeps (g : NetGroups) (entry : (_ : WindowKey) × Nat × UInt64) : Prop :=
  (g.maxRetractTx.lookup (entry.1.1, entry.1.2.1, entry.1.2.2.1)).getD 0 < entry.2.2

theorem NetGroups.foldl_mark (g : NetGroups) (entries : List ((_ : WindowKey) × Nat × UInt64))
    (keep : List Bool) (i : Nat) :
    (entries.foldl g.mark keep)[i]? = some true ↔
      keep[i]? = some true ∨ i < keep.length ∧ ∃ entry ∈ entries, entry.2.1 = i ∧ g.Keeps entry := by
  induction entries generalizing keep with
  | nil => simp
  | cons entry entries ih =>
      rw [List.foldl_cons, ih]
      by_cases keeps : g.Keeps entry
      · have marked : g.mark keep entry = keep.set entry.2.1 true := if_pos keeps
        rw [marked, List.length_set, List.getElem?_set]
        by_cases here : entry.2.1 = i
        · simp only [here, if_true, List.mem_cons, exists_eq_or_imp, keeps]
          by_cases inside : i < keep.length <;> simp [inside]
        · simp [here]
      · have unmarked : g.mark keep entry = keep := if_neg keeps
        rw [unmarked]
        simp [keeps]

theorem NetGroups.length_foldl_mark (g : NetGroups)
    (entries : List ((_ : WindowKey) × Nat × UInt64)) (keep : List Bool) :
    (entries.foldl g.mark keep).length = keep.length := by
  induction entries generalizing keep with
  | nil => rfl
  | cons entry entries ih =>
      rw [List.foldl_cons, ih]
      simp only [mark]
      split
      · exact List.length_set
      · rfl

/-- The fact at this place is kept. -/
structure Survives (facts : List Fact) (p : Fact × Nat) : Prop where
  asserted : p.1.asserted = true
  best : Best facts.zipIdx p
  unretracted : Unretracted facts p.1

theorem Tallied.keeps {facts : List Fact} {g : NetGroups} (h : Tallied facts.zipIdx g)
    {p : Fact × Nat} (hp : p ∈ facts.zipIdx) :
    (∃ entry ∈ g.byWindow.entries, entry.2.1 = p.2 ∧ g.Keeps entry) ↔ Survives facts p := by
  have newer (f : Fact) : (g.maxRetractTx.lookup f.eavKey).getD 0 < f.txCount ↔ Unretracted facts f := by
    rw [h.retracted]
    refine and_congr_right fun _ => ⟨fun all r hr => ?_, fun all q hq => ?_⟩
    · obtain ⟨i, hi, rfl⟩ := List.getElem_of_mem hr
      exact all (facts[i], i) (List.mk_mem_zipIdx_iff_getElem?.mpr (List.getElem?_eq_getElem hi))
    · exact all q.1 (List.fst_mem_of_mem_zipIdx hq)
  constructor
  · rintro ⟨⟨w, i, n⟩, hentry, place, keeps⟩
    obtain ⟨q, hq, asserted, rfl, rfl, rfl, best⟩ := (h.winner w i n).mp (AList.mem_lookup_iff.mpr hentry)
    have same : q = p := by
      have hq' := List.mk_mem_zipIdx_iff_getElem?.mp hq
      have hp' := List.mk_mem_zipIdx_iff_getElem?.mp hp
      refine Prod.ext ?_ place
      rw [show q.2 = p.2 from place, hp'] at hq'
      exact (Option.some.inj hq').symm
    subst same
    exact ⟨asserted, best, (newer q.1).mp keeps⟩
  · intro survives
    have entry := (h.winner _ _ _).mpr ⟨p, hp, survives.asserted, rfl, rfl, rfl, survives.best⟩
    exact ⟨⟨p.1.windowKey, p.2, p.1.txCount⟩, AList.mem_lookup_iff.mp entry, rfl,
      (newer p.1).mpr survives.unretracted⟩

open Classical in
theorem netAssertedFacts_eq (facts : List Fact) :
    netAssertedFacts facts = (facts.zipIdx.filter fun p => decide (Survives facts p)).map Prod.fst := by
  have tallied := Tallied.all facts
  simp only [netAssertedFacts]
  generalize (facts.zip (facts.map fun f => encodeValue f.value)).zipIdx.foldl NetGroups.add ⟨∅, ∅⟩ = g
    at tallied ⊢
  have length := g.length_foldl_mark g.byWindow.entries (List.replicate facts.length false)
  rw [List.length_replicate] at length
  have kept (p : Fact × Nat) (hp : p ∈ facts.zipIdx) :
      (g.byWindow.entries.foldl g.mark (List.replicate facts.length false))[p.2]? = some true ↔
        Survives facts p := by
    have inside : p.2 < facts.length := (List.mem_zipIdx hp).2.1.trans_eq (Nat.zero_add _)
    rw [g.foldl_mark, ← tallied.keeps hp, List.length_replicate]
    simp [inside]
  generalize g.byWindow.entries.foldl g.mark (List.replicate facts.length false) = keep at kept length
  have zipped : facts.zip keep = facts.zipIdx.map fun p => (p.1, decide (Survives facts p)) := by
    apply List.ext_getElem
    · simp [length]
    · intro i h₁ h₂
      have hi : i < facts.length := by simpa using h₂
      have place := kept (facts[i], i)
        (List.mk_mem_zipIdx_iff_getElem?.mpr (List.getElem?_eq_getElem hi))
      rw [List.getElem?_eq_getElem (by omega), Option.some.injEq] at place
      simp only [List.getElem_zip, List.getElem_map, List.getElem_zipIdx, Nat.zero_add, Prod.mk.injEq,
        true_and]
      by_cases survives : Survives facts (facts[i], i)
      · rw [place.mpr survives, decide_eq_true survives]
      · rw [decide_eq_false survives, Bool.eq_false_iff]
        exact fun no => survives (place.mp no)
  rw [zipped, List.filterMap_map]
  induction facts.zipIdx with
  | nil => rfl
  | cons p rest ih =>
      rw [List.filterMap_cons, List.filter_cons, ih]
      by_cases survives : Survives facts p
      · simp only [Function.comp_apply, decide_eq_true survives, if_true, List.map_cons]
      · simp only [Function.comp_apply, decide_eq_false survives, Bool.false_eq_true, if_false]

theorem mem_netAssertedFacts {facts : List Fact} {f : Fact} :
    f ∈ netAssertedFacts facts ↔ ∃ i, (f, i) ∈ facts.zipIdx ∧ Survives facts (f, i) := by
  simp only [netAssertedFacts_eq, List.mem_map, List.mem_filter, decide_eq_true_eq, Prod.exists]
  exact ⟨fun ⟨_, i, ⟨hi, survives⟩, same⟩ => ⟨i, same ▸ hi, same ▸ survives⟩,
    fun ⟨i, hi, survives⟩ => ⟨f, i, ⟨hi, survives⟩, rfl⟩⟩

theorem asserted_of_mem_netAssertedFacts {facts : List Fact} {f : Fact}
    (h : f ∈ netAssertedFacts facts) : f ∈ facts ∧ f.asserted = true ∧ Unretracted facts f := by
  obtain ⟨i, hi, survives⟩ := mem_netAssertedFacts.mp h
  exact ⟨List.fst_mem_of_mem_zipIdx hi, survives.asserted, survives.unretracted⟩

/-- No window is kept twice. -/
theorem netAssertedFacts_windows (facts : List Fact) :
    (netAssertedFacts facts).Pairwise fun f g => f.windowKey ≠ g.windowKey := by
  rw [netAssertedFacts_eq, List.pairwise_map]
  have ordered : facts.zipIdx.Pairwise fun p q => p.2 < q.2 := by
    rw [List.pairwise_iff_getElem]
    intro i j hi hj less
    simpa using less
  refine (ordered.filter _).imp_of_mem fun hp hq below same => ?_
  simp only [List.mem_filter, decide_eq_true_eq] at hp hq
  obtain ⟨hp, survives⟩ := hp
  obtain ⟨hq, survives'⟩ := hq
  obtain less | ⟨equal, _⟩ := survives.best _ hq survives'.asserted same.symm
  · obtain more | ⟨equal, _⟩ := survives'.best _ hp survives.asserted same
    · exact lt_asymm less more
    · exact less.ne equal.symm
  · obtain more | ⟨_, late⟩ := survives'.best _ hp survives.asserted same
    · exact more.ne equal.symm
    · exact absurd below (not_lt.mpr late)

theorem nodup_netAssertedFacts (facts : List Fact) : (netAssertedFacts facts).Nodup :=
  (netAssertedFacts_windows facts).imp fun other same => other (congrArg Fact.windowKey same)

/-- A window is seen when some assertion of it is newer than every retraction of its triple. -/
theorem exists_netAsserted_window {facts : List Fact} {w : WindowKey} :
    (∃ f ∈ netAssertedFacts facts, f.windowKey = w) ↔
      ∃ f ∈ facts, f.asserted = true ∧ f.windowKey = w ∧ Unretracted facts f := by
  constructor
  · rintro ⟨f, hf, rfl⟩
    obtain ⟨mem, asserted, unretracted⟩ := asserted_of_mem_netAssertedFacts hf
    exact ⟨f, mem, asserted, rfl, unretracted⟩
  · rintro ⟨f, hf, asserted, rfl, pos, newer⟩
    have tallied := Tallied.all facts
    generalize (facts.zip (facts.map fun f => encodeValue f.value)).zipIdx.foldl NetGroups.add ⟨∅, ∅⟩ = g
      at tallied
    obtain ⟨i, hi, rfl⟩ := List.getElem_of_mem hf
    have place : (facts[i], i) ∈ facts.zipIdx :=
      List.mk_mem_zipIdx_iff_getElem?.mpr (List.getElem?_eq_getElem hi)
    cases known : g.byWindow.lookup facts[i].windowKey with
    | none => exact absurd rfl ((tallied.known _).mp known _ place asserted)
    | some winner =>
        obtain ⟨p, hp, asserted', key, _, _, best⟩ := (tallied.winner _ winner.1 winner.2).mp known
        have least := best.le place asserted key.symm
        refine ⟨p.1, mem_netAssertedFacts.mpr ⟨p.2, hp, asserted', best, pos.trans_le least, ?_⟩, key⟩
        intro r hr retraction same
        exact (newer r hr retraction (same.trans (Fact.eavKey_of_windowKey key))).trans_le least

end Minigraf
