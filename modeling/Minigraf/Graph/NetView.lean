import Minigraf.Graph.Visible

/-!
The net-asserted view as callers rely on it: which place of the input each window is shown from,
and that the view does not depend on the order of the records, on repeated records or on the
records of other triples.
-/

namespace Minigraf

/-- The triple of a window. -/
def WindowKey.triple (w : WindowKey) : EavKey := (w.1, w.2.1, w.2.2.1)

def greatestTx (facts : List Fact) : Option UInt64 := (facts.map Fact.txCount).max?

def assertionsOf (facts : List Fact) (w : WindowKey) : List Fact :=
  facts.filter fun f => f.asserted && decide (f.windowKey = w)

def retractionsOf (facts : List Fact) (k : EavKey) : List Fact :=
  facts.filter fun f => !f.asserted && decide (f.eavKey = k)

/-- The place a window is shown from: the earliest of its newest assertions, if these are newer
than every retraction of the triple. -/
def shownAt (facts : List Fact) (w : WindowKey) : Option Nat :=
  (greatestTx (assertionsOf facts w)).bind fun n =>
    if (greatestTx (retractionsOf facts w.triple)).all (· < n) then
      facts.findIdx? fun f => f.asserted && decide (f.windowKey = w) && decide (f.txCount = n)
    else none

theorem greatestTx_eq_some {facts : List Fact} {n : UInt64} :
    greatestTx facts = some n ↔ (∃ f ∈ facts, f.txCount = n) ∧ ∀ f ∈ facts, f.txCount ≤ n := by
  rw [greatestTx, List.max?_eq_some_iff, List.mem_map]
  refine and_congr_right fun _ => ?_
  rw [List.forall_mem_map]

theorem greatestTx_all_lt {facts : List Fact} {n : UInt64} :
    (greatestTx facts).all (· < n) = true ↔ ∀ f ∈ facts, f.txCount < n := by
  cases here : greatestTx facts with
  | none =>
      rw [greatestTx, List.max?_eq_none_iff, List.map_eq_nil_iff] at here
      simp [here]
  | some m =>
      obtain ⟨⟨f, hf, rfl⟩, most⟩ := greatestTx_eq_some.mp here
      rw [Option.all_some, decide_eq_true_eq]
      exact ⟨fun less g hg => (most g hg).trans_lt less, fun all => all f hf⟩

/-- A window is shown with this count. -/
structure Shown (facts : List Fact) (w : WindowKey) (n : UInt64) : Prop where
  asserted : ∃ f ∈ facts, f.asserted = true ∧ f.windowKey = w ∧ f.txCount = n
  greatest : ∀ f ∈ facts, f.asserted = true → f.windowKey = w → f.txCount ≤ n
  newer : ∀ r ∈ facts, r.asserted = false → r.eavKey = w.triple → r.txCount < n

theorem shown_iff {facts : List Fact} {w : WindowKey} {n : UInt64} :
    Shown facts w n ↔ greatestTx (assertionsOf facts w) = some n ∧
      (greatestTx (retractionsOf facts w.triple)).all (· < n) = true := by
  rw [greatestTx_eq_some, greatestTx_all_lt]
  simp only [assertionsOf, retractionsOf, List.mem_filter, Bool.and_eq_true, decide_eq_true_eq,
    Bool.not_eq_true']
  constructor
  · intro h
    obtain ⟨f, hf, asserted, key, count⟩ := h.asserted
    exact ⟨⟨⟨f, ⟨hf, asserted, key⟩, count⟩, fun g hg => h.greatest g hg.1 hg.2.1 hg.2.2⟩,
      fun r hr => h.newer r hr.1 hr.2.1 hr.2.2⟩
  · rintro ⟨⟨⟨f, ⟨hf, asserted, key⟩, count⟩, greatest⟩, newer⟩
    exact ⟨⟨f, hf, asserted, key, count⟩, fun g hg asserted key => greatest g ⟨hg, asserted, key⟩,
      fun r hr retracted key => newer r ⟨hr, retracted, key⟩⟩

theorem shownAt_eq_some {facts : List Fact} {w : WindowKey} {i : Nat} :
    shownAt facts w = some i ↔ ∃ n, Shown facts w n ∧ facts.findIdx? (fun f =>
      f.asserted && decide (f.windowKey = w) && decide (f.txCount = n)) = some i := by
  rw [shownAt, Option.bind_eq_some_iff]
  refine exists_congr fun n => ?_
  rw [shown_iff, and_assoc]
  refine and_congr_right fun _ => ?_
  split
  · rename_i newer
    rw [newer]
    exact ⟨fun h => ⟨rfl, h⟩, And.right⟩
  · rename_i older
    exact ⟨(fun no => nomatch no), fun h => absurd h.1 older⟩

theorem Shown.unique {facts : List Fact} {w : WindowKey} {n m : UInt64} (h : Shown facts w n)
    (h' : Shown facts w m) : n = m := by
  obtain ⟨f, hf, asserted, key, rfl⟩ := h.asserted
  obtain ⟨g, hg, asserted', key', rfl⟩ := h'.asserted
  exact le_antisymm (h'.greatest f hf asserted key) (h.greatest g hg asserted' key')

theorem Survives.shown {facts : List Fact} {p : Fact × Nat} (h : Survives facts p) (hp : p ∈ facts.zipIdx) :
    Shown facts p.1.windowKey p.1.txCount := by
  refine ⟨⟨p.1, List.fst_mem_of_mem_zipIdx hp, h.asserted, rfl, rfl⟩, fun f hf asserted key => ?_,
    h.unretracted.2⟩
  obtain ⟨j, hj, rfl⟩ := List.getElem_of_mem hf
  exact h.best.le (List.mk_mem_zipIdx_iff_getElem?.mpr (List.getElem?_eq_getElem hj)) asserted key

/-- The records that are kept are those their windows are shown from. -/
theorem survives_iff_shownAt {facts : List Fact} (counted : ∀ f ∈ facts, 1 ≤ f.txCount) {p : Fact × Nat}
    (hp : p ∈ facts.zipIdx) : Survives facts p ↔ shownAt facts p.1.windowKey = some p.2 := by
  have here : facts[p.2]? = some p.1 := List.mem_zipIdx_iff_getElem?.mp hp
  have mem : p.1 ∈ facts := List.fst_mem_of_mem_zipIdx hp
  rw [shownAt_eq_some]
  constructor
  · intro survives
    refine ⟨p.1.txCount, survives.shown hp, ?_⟩
    rw [List.findIdx?_eq_some_iff_getElem]
    obtain ⟨inside, at_⟩ := List.getElem?_eq_some_iff.mp here
    refine ⟨inside, by simp [at_, survives.asserted], fun j before => ?_⟩
    simp only [Bool.and_eq_true, decide_eq_true_eq, not_and]
    rintro ⟨asserted, key⟩ count
    have hj : j < facts.length := by omega
    obtain less | ⟨-, late⟩ := survives.best (facts[j], j)
      (List.mk_mem_zipIdx_iff_getElem?.mpr (List.getElem?_eq_getElem hj)) asserted key
    · exact absurd count less.ne
    · omega
  · rintro ⟨n, shown, found⟩
    obtain ⟨inside, at_, before⟩ := List.findIdx?_eq_some_iff_getElem.mp found
    rw [List.getElem?_eq_getElem inside, Option.some.injEq] at here
    simp only [here, Bool.and_eq_true, decide_eq_true_eq, and_true] at at_
    obtain ⟨asserted, rfl⟩ := at_
    refine ⟨asserted, fun q hq asserted' key => ?_, ?_, shown.newer⟩
    · obtain less | same := lt_or_eq_of_le (shown.greatest q.1 (List.fst_mem_of_mem_zipIdx hq) asserted' key)
      · exact .inl less
      · refine .inr ⟨same, Nat.le_of_not_lt fun early => before q.2 early ?_⟩
        obtain ⟨inside', at_'⟩ := List.getElem?_eq_some_iff.mp (List.mem_zipIdx_iff_getElem?.mp hq)
        simp [at_', asserted', key, same]
    · exact lt_of_lt_of_le (by decide) (counted p.1 mem)

/-! ## Order and repetition -/

/-- What a caller tells apart: the triple, the window and the count. -/
def Fact.shownKey (f : Fact) : WindowKey × UInt64 := (f.windowKey, f.txCount)

theorem mem_shownKeys {facts : List Fact} (counted : ∀ f ∈ facts, 1 ≤ f.txCount) {w : WindowKey} {n : UInt64} :
    (w, n) ∈ (netAssertedFacts facts).map Fact.shownKey ↔ Shown facts w n := by
  have kept {f : Fact} (hf : f ∈ netAssertedFacts facts) : Shown facts f.windowKey f.txCount := by
    obtain ⟨i, hi, survives⟩ := mem_netAssertedFacts.mp hf
    exact survives.shown hi
  rw [List.mem_map]
  constructor
  · rintro ⟨f, hf, same⟩
    obtain ⟨rfl, rfl⟩ := Prod.mk.inj same
    exact kept hf
  · intro shown
    obtain ⟨g, hg, asserted, rfl, rfl⟩ := shown.asserted
    have positive : 0 < g.txCount := lt_of_lt_of_le (by decide) (counted g hg)
    obtain ⟨f, hf, key⟩ := exists_netAsserted_window.mpr ⟨g, hg, asserted, rfl, positive, shown.newer⟩
    have again := kept hf
    rw [key] at again
    exact ⟨f, hf, Prod.ext key (again.unique shown)⟩

theorem nodup_shownKeys (facts : List Fact) : ((netAssertedFacts facts).map Fact.shownKey).Nodup := by
  refine List.pairwise_map.mpr ((netAssertedFacts_windows facts).imp ?_)
  intro f g other same
  exact other (congrArg Prod.fst same)

/-- Only which records there are matters, not where or how often. -/
theorem netAssertedFacts_congr {facts facts' : List Fact} (counted : ∀ f ∈ facts, 1 ≤ f.txCount)
    (same : ∀ f, f ∈ facts' ↔ f ∈ facts) :
    ((netAssertedFacts facts').map Fact.shownKey).Perm ((netAssertedFacts facts).map Fact.shownKey) := by
  have counted' : ∀ f ∈ facts', 1 ≤ f.txCount := fun f hf => counted f ((same f).mp hf)
  refine (List.perm_ext_iff_of_nodup (nodup_shownKeys _) (nodup_shownKeys _)).mpr fun ⟨w, n⟩ => ?_
  rw [mem_shownKeys counted, mem_shownKeys counted']
  constructor
  · rintro ⟨⟨f, hf, shown⟩, greatest, newer⟩
    exact ⟨⟨f, (same f).mp hf, shown⟩, fun g hg => greatest g ((same g).mpr hg),
      fun r hr => newer r ((same r).mpr hr)⟩
  · rintro ⟨⟨f, hf, shown⟩, greatest, newer⟩
    exact ⟨⟨f, (same f).mpr hf, shown⟩, fun g hg => greatest g ((same g).mp hg),
      fun r hr => newer r ((same r).mp hr)⟩

open Classical in
theorem netAssertedFacts_idem (facts : List Fact) :
    netAssertedFacts (netAssertedFacts facts) = netAssertedFacts facts := by
  rw [netAssertedFacts_eq (netAssertedFacts facts), List.filter_eq_self.mpr, List.zipIdx_map_fst]
  intro p hp
  have mem := List.fst_mem_of_mem_zipIdx hp
  obtain ⟨-, asserted, unretracted⟩ := asserted_of_mem_netAssertedFacts mem
  rw [decide_eq_true_eq]
  refine ⟨asserted, fun q hq _ key => ?_, unretracted.1, fun r hr retracted => ?_⟩
  · have windows := List.pairwise_iff_getElem.mp (netAssertedFacts_windows facts)
    obtain ⟨inside, here⟩ := List.getElem?_eq_some_iff.mp (List.mem_zipIdx_iff_getElem?.mp hp)
    obtain ⟨inside', here'⟩ := List.getElem?_eq_some_iff.mp (List.mem_zipIdx_iff_getElem?.mp hq)
    -- Two places of one window are one place.
    obtain less | same | more := lt_trichotomy p.2 q.2
    · exact absurd (by rw [here, here', key]) (windows p.2 q.2 inside inside' less)
    · refine .inr ⟨?_, same.le⟩
      rw [← here, ← here']
      simp only [same]
    · exact absurd (by rw [here, here', key]) (windows q.2 p.2 inside' inside more)
  · rw [(asserted_of_mem_netAssertedFacts hr).2.1] at retracted
    cases retracted

/-! ## One triple -/

/-- The record between these is kept. -/
structure KeptBetween (front : List Fact) (f : Fact) (back : List Fact) : Prop where
  asserted : f.asserted = true
  first : ∀ g ∈ front, g.asserted = true → g.windowKey = f.windowKey → g.txCount < f.txCount
  newest : ∀ g ∈ back, g.asserted = true → g.windowKey = f.windowKey → g.txCount ≤ f.txCount
  unretracted : Unretracted (front ++ f :: back) f

theorem survives_iff_between {front back : List Fact} {f : Fact} :
    Survives (front ++ f :: back) (f, front.length) ↔ KeptBetween front f back := by
  have place (g : Fact) (i : Nat) : (g, i) ∈ (front ++ f :: back).zipIdx ↔ (front ++ f :: back)[i]? = some g :=
    List.mk_mem_zipIdx_iff_getElem?
  constructor
  · rintro ⟨asserted, best, unretracted⟩
    refine ⟨asserted, fun g hg asserted' key => ?_, fun g hg asserted' key => ?_, unretracted⟩
    · obtain ⟨i, hi, rfl⟩ := List.getElem_of_mem hg
      have here := (place front[i] i).mpr (by rw [List.getElem?_append_left hi, List.getElem?_eq_getElem hi])
      obtain less | ⟨-, late⟩ := best _ here asserted' key
      · exact less
      · exact absurd hi (Nat.not_lt.mpr late)
    · obtain ⟨i, hi, rfl⟩ := List.getElem_of_mem hg
      have here := (place back[i] (front.length + (i + 1))).mpr (by
        rw [List.getElem?_append_right (by omega), Nat.add_sub_cancel_left, List.getElem?_cons_succ,
          List.getElem?_eq_getElem hi])
      exact best.le here asserted' key
  · rintro ⟨asserted, first, newest, unretracted⟩
    refine ⟨asserted, fun ⟨g, i⟩ hg asserted' key => ?_, unretracted⟩
    have here := (place g i).mp hg
    obtain early | rfl | late := lt_trichotomy i front.length
    · rw [List.getElem?_append_left early] at here
      exact .inl (first g (List.mem_of_getElem? here) asserted' key)
    · rw [List.getElem?_append_right le_rfl, Nat.sub_self, List.getElem?_cons_zero] at here
      exact .inr ⟨congrArg Fact.txCount (Option.some.inj here).symm, le_rfl⟩
    · obtain ⟨j, rfl⟩ := Nat.exists_eq_add_of_lt late
      rw [List.getElem?_append_right (by omega), show front.length + j + 1 - front.length = j + 1 by omega,
        List.getElem?_cons_succ] at here
      obtain less | same := lt_or_eq_of_le (newest g (List.mem_of_getElem? here) asserted' key)
      · exact .inl less
      · exact .inr ⟨same, by simp only; omega⟩

open Classical in
/-- The records kept of those behind `front`. -/
noncomputable def keptBehind (front : List Fact) : List Fact → List Fact
  | [] => []
  | f :: back =>
      if KeptBetween front f back then f :: keptBehind (front ++ [f]) back
      else keptBehind (front ++ [f]) back

open Classical in
theorem netAssertedFacts_eq_keptBehind (facts : List Fact) : netAssertedFacts facts = keptBehind [] facts := by
  have from_ (back front : List Fact) : ((back.zipIdx front.length).filter fun p =>
      decide (Survives (front ++ back) p)).map Prod.fst = keptBehind front back := by
    induction back generalizing front with
    | nil => rfl
    | cons f back ih =>
        have rest := ih (front ++ [f])
        rw [List.length_append, List.length_singleton, List.append_assoc, List.singleton_append] at rest
        rw [List.zipIdx_cons, List.filter_cons, keptBehind, ← rest]
        by_cases kept : KeptBetween front f back
        · rw [if_pos kept, if_pos (decide_eq_true (survives_iff_between.mpr kept)), List.map_cons]
        · rw [if_neg kept, if_neg]
          rw [decide_eq_true_eq]
          exact fun survives => kept (survives_iff_between.mp survives)
  rw [netAssertedFacts_eq]
  exact from_ facts []

/-- A record is kept among those of its triple as it is among all. -/
theorem keptBetween_filter {front back : List Fact} {f : Fact} :
    KeptBetween (front.filter fun g => decide (g.eavKey = f.eavKey)) f
      (back.filter fun g => decide (g.eavKey = f.eavKey)) ↔ KeptBetween front f back := by
  have triple {g : Fact} (key : g.windowKey = f.windowKey) : decide (g.eavKey = f.eavKey) = true :=
    decide_eq_true (Fact.eavKey_of_windowKey key)
  have whole : front.filter (fun g => decide (g.eavKey = f.eavKey)) ++
      f :: back.filter (fun g => decide (g.eavKey = f.eavKey)) =
        (front ++ f :: back).filter fun g => decide (g.eavKey = f.eavKey) := by
    rw [List.filter_append, List.filter_cons_of_pos (by exact decide_eq_true rfl)]
  constructor
  · rintro ⟨asserted, first, newest, positive, newer⟩
    rw [whole] at newer
    exact ⟨asserted, fun g hg asserted' key => first g (List.mem_filter.mpr ⟨hg, triple key⟩) asserted' key,
      fun g hg asserted' key => newest g (List.mem_filter.mpr ⟨hg, triple key⟩) asserted' key,
      positive, fun r hr retracted key => newer r (List.mem_filter.mpr ⟨hr, decide_eq_true key⟩) retracted key⟩
  · rintro ⟨asserted, first, newest, positive, newer⟩
    refine ⟨asserted, fun g hg => first g (List.mem_filter.mp hg).1,
      fun g hg => newest g (List.mem_filter.mp hg).1, positive, fun r hr => ?_⟩
    rw [whole] at hr
    exact newer r (List.mem_filter.mp hr).1

theorem keptBehind_filter (k : EavKey) (back front : List Fact) :
    keptBehind (front.filter fun f => decide (f.eavKey = k)) (back.filter fun f => decide (f.eavKey = k)) =
      (keptBehind front back).filter fun f => decide (f.eavKey = k) := by
  induction back generalizing front with
  | nil => rfl
  | cons f back ih =>
      have rest := ih (front ++ [f])
      rw [List.filter_append] at rest
      by_cases here : f.eavKey = k
      · subst here
        have own : decide (f.eavKey = f.eavKey) = true := decide_eq_true rfl
        rw [List.filter_cons_of_pos (by exact own), List.filter_nil] at rest
        rw [List.filter_cons_of_pos (by exact own), keptBehind, keptBehind, rest]
        by_cases kept : KeptBetween front f back
        · rw [if_pos kept, if_pos (keptBetween_filter.mpr kept), List.filter_cons_of_pos (by exact own)]
        · rw [if_neg kept, if_neg fun again => kept (keptBetween_filter.mp again)]
      · have other : ¬ decide (f.eavKey = k) = true := by simpa using here
        rw [List.filter_cons_of_neg (by exact other), List.filter_nil, List.append_nil] at rest
        rw [List.filter_cons_of_neg (by exact other), keptBehind, rest]
        split
        · rw [List.filter_cons_of_neg (by exact other)]
        · rfl

/-- The records of other triples play no part. -/
theorem netAssertedFacts_filter (facts : List Fact) (k : EavKey) :
    netAssertedFacts (facts.filter fun f => decide (f.eavKey = k)) =
      (netAssertedFacts facts).filter fun f => decide (f.eavKey = k) := by
  rw [netAssertedFacts_eq_keptBehind, netAssertedFacts_eq_keptBehind]
  exact keptBehind_filter k facts []

/-! ## The view -/

theorem isSome_shownAt {facts : List Fact} {w : WindowKey} :
    (shownAt facts w).isSome = true ↔ ∃ n, Shown facts w n := by
  rw [Option.isSome_iff_exists]
  simp only [shownAt_eq_some]
  constructor
  · rintro ⟨_, n, shown, -⟩
    exact ⟨n, shown⟩
  · rintro ⟨n, shown⟩
    obtain ⟨f, hf, asserted, key, count⟩ := shown.asserted
    have some_ : (facts.findIdx? fun f =>
        f.asserted && decide (f.windowKey = w) && decide (f.txCount = n)).isSome = true := by
      rw [List.findIdx?_isSome, List.any_eq_true]
      exact ⟨f, hf, by simp [asserted, key, count]⟩
    obtain ⟨i, found⟩ := Option.isSome_iff_exists.mp some_
    exact ⟨i, n, shown, found⟩

/-- A window that is shown is shown once. -/
theorem netAssertedFacts_once {facts : List Fact} (counted : ∀ f ∈ facts, 1 ≤ f.txCount) (w : WindowKey) :
    ((netAssertedFacts facts).filter fun f => decide (f.windowKey = w)).length =
      if (shownAt facts w).isSome then 1 else 0 := by
  have few : ((netAssertedFacts facts).filter fun f => decide (f.windowKey = w)).length ≤ 1 := by
    have apart := (netAssertedFacts_windows facts).filter fun f => decide (f.windowKey = w)
    have same : ∀ f ∈ (netAssertedFacts facts).filter fun f => decide (f.windowKey = w), f.windowKey = w :=
      fun f hf => of_decide_eq_true (List.mem_filter.mp hf).2
    generalize (netAssertedFacts facts).filter (fun f => decide (f.windowKey = w)) = kept at apart same
    match kept, apart, same with
    | [], _, _ => exact Nat.zero_le 1
    | [_], _, _ => exact le_rfl
    | f :: g :: _, apart, same =>
        refine absurd ?_ ((List.pairwise_cons.mp apart).1 g List.mem_cons_self)
        rw [same f List.mem_cons_self, same g (List.mem_cons_of_mem f List.mem_cons_self)]
  have some_ : 0 < ((netAssertedFacts facts).filter fun f => decide (f.windowKey = w)).length ↔
      (shownAt facts w).isSome = true := by
    rw [isSome_shownAt, List.length_pos_iff_exists_mem]
    constructor
    · rintro ⟨f, hf⟩
      obtain ⟨hf, key⟩ := List.mem_filter.mp hf
      rw [decide_eq_true_eq] at key
      refine ⟨f.txCount, (mem_shownKeys counted).mp (List.mem_map.mpr ⟨f, hf, ?_⟩)⟩
      rw [Fact.shownKey, key]
    · rintro ⟨n, shown⟩
      obtain ⟨f, hf, same⟩ := List.mem_map.mp ((mem_shownKeys counted).mpr shown)
      exact ⟨f, List.mem_filter.mpr ⟨hf, decide_eq_true (congrArg Prod.fst same)⟩⟩
  split
  · rename_i shown
    have := some_.mpr shown
    omega
  · rename_i hidden
    have := mt some_.mp hidden
    omega

/-- Repeated records give the same survivors of a triple. -/
theorem netAssertedFacts_repeat {facts facts' : List Fact} (counted : ∀ f ∈ facts, 1 ≤ f.txCount)
    (same : ∀ f, f ∈ facts' ↔ f ∈ facts) (k : EavKey) :
    (((netAssertedFacts facts').filter fun f => decide (f.eavKey = k)).map Fact.shownKey).Perm
      (((netAssertedFacts facts).filter fun f => decide (f.eavKey = k)).map Fact.shownKey) := by
  have whole := netAssertedFacts_congr counted same
  have key : (fun f : Fact => decide (f.eavKey = k)) =
      (fun key : WindowKey × UInt64 => decide (key.1.triple = k)) ∘ Fact.shownKey := rfl
  rw [key, ← List.filter_map, ← List.filter_map]
  exact whole.filter _

/-- Where an assertion is told by its window and count, the survivors are the same records. -/
theorem netAssertedFacts_same {facts facts' : List Fact} (counted : ∀ f ∈ facts, 1 ≤ f.txCount)
    (same : ∀ f, f ∈ facts' ↔ f ∈ facts) (apart : ∀ f ∈ facts, ∀ g ∈ facts, f.asserted = true →
      g.asserted = true → f.shownKey = g.shownKey → f = g) :
    (netAssertedFacts facts').Perm (netAssertedFacts facts) := by
  have keys := netAssertedFacts_congr counted same
  refine (List.perm_ext_iff_of_nodup (nodup_netAssertedFacts _) (nodup_netAssertedFacts _)).mpr fun f => ?_
  constructor
  · intro hf
    obtain ⟨mem, asserted, -⟩ := asserted_of_mem_netAssertedFacts hf
    obtain ⟨g, hg, key⟩ := List.mem_map.mp (keys.subset (List.mem_map_of_mem hf))
    obtain ⟨mem', asserted', -⟩ := asserted_of_mem_netAssertedFacts hg
    rwa [← apart g mem' f ((same f).mp mem) asserted' asserted key]
  · intro hf
    obtain ⟨mem, asserted, -⟩ := asserted_of_mem_netAssertedFacts hf
    obtain ⟨g, hg, key⟩ := List.mem_map.mp (keys.symm.subset (List.mem_map_of_mem hf))
    obtain ⟨mem', asserted', -⟩ := asserted_of_mem_netAssertedFacts hg
    rwa [← apart g ((same g).mp mem') f mem asserted' asserted key]

/-- What `net_asserted_facts` keeps of facts that are counted from 1. -/
theorem netAssertedFacts_exact (facts : List Fact) (counted : ∀ f ∈ facts, 1 ≤ f.txCount) :
    netAssertedFacts facts =
      (facts.zipIdx.filter fun p => decide (shownAt facts p.1.windowKey = some p.2)).map Prod.fst ∧
    (∀ w, ((netAssertedFacts facts).filter fun f => decide (f.windowKey = w)).length =
      if (shownAt facts w).isSome then 1 else 0) ∧
    (∀ facts', facts'.Perm facts →
      ((netAssertedFacts facts').map Fact.shownKey).Perm ((netAssertedFacts facts).map Fact.shownKey)) ∧
    netAssertedFacts (netAssertedFacts facts) = netAssertedFacts facts ∧
    (∀ facts', facts.Sublist facts' → (∀ f ∈ facts', f ∈ facts) →
      (∀ k, (((netAssertedFacts facts').filter fun f => decide (f.eavKey = k)).map Fact.shownKey).Perm
        (((netAssertedFacts facts).filter fun f => decide (f.eavKey = k)).map Fact.shownKey)) ∧
      ((∀ f ∈ facts, ∀ g ∈ facts, f.asserted = true → g.asserted = true → f.shownKey = g.shownKey → f = g) →
        (netAssertedFacts facts').Perm (netAssertedFacts facts))) ∧
    ∀ k, netAssertedFacts (facts.filter fun f => decide (f.eavKey = k)) =
      (netAssertedFacts facts).filter fun f => decide (f.eavKey = k) := by
  refine ⟨?_, netAssertedFacts_once counted, fun facts' perm => ?_, netAssertedFacts_idem facts,
    fun facts' longer known => ?_, netAssertedFacts_filter facts⟩
  · rw [netAssertedFacts_eq]
    refine congrArg (List.map Prod.fst) (List.filter_congr fun p hp => ?_)
    rw [decide_eq_decide]
    exact survives_iff_shownAt counted hp
  · exact netAssertedFacts_congr counted fun f => perm.mem_iff
  · have same (f : Fact) : f ∈ facts' ↔ f ∈ facts := ⟨known f, fun hf => longer.subset hf⟩
    exact ⟨netAssertedFacts_repeat counted same, netAssertedFacts_same counted same⟩

/-- A flag asserted twice in one window and retracted between. -/
theorem netAssertedFacts_exact_three : netAssertedFacts [⟨1, ":done", .boolean true, 5, 1, 5, 9, true⟩,
      ⟨1, ":done", .boolean true, 6, 2, 6, 9, false⟩, ⟨1, ":done", .boolean true, 7, 3, 5, 9, true⟩] =
    [⟨1, ":done", .boolean true, 7, 3, 5, 9, true⟩] := by
  rw [(netAssertedFacts_exact _ (by decide)).1]
  decide

end Minigraf
