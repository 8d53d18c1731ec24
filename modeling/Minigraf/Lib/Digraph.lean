import Mathlib.Data.Finset.Card
import Mathlib.Data.Finset.Dedup
import Mathlib.Logic.Relation

/-!
Finite directed graphs: a depth-first search that decides reachability, and rankings of
the vertices that no edge climbs and a strict edge descends. A ranking exists exactly if
no strict edge lies on a cycle.
-/

namespace Digraph

variable {V : Type}

/-! ## Depth-first search -/

section Search

variable [DecidableEq V]

/-- The successors of one vertex: those not seen yet are seen from now on and go on the
stack. There is no result once the target is among them. -/
def expand (target : V) : List V → List V → List V → Option (List V × List V)
  | [], seen, stack => some (seen, stack)
  | d :: ds, seen, stack =>
      if d = target then none
      else if d ∈ seen then expand target ds seen stack
      else expand target ds (d :: seen) (d :: stack)

theorem expand_eq_none {target : V} {ds seen stack : List V}
    (h : expand target ds seen stack = none) : target ∈ ds := by
  induction ds generalizing seen stack with
  | nil => cases h
  | cons d ds ih =>
      rw [expand] at h
      split at h
      · next same => exact same ▸ List.mem_cons_self
      · split at h
        · exact List.mem_cons_of_mem _ (ih h)
        · exact List.mem_cons_of_mem _ (ih h)

/-- What a round leaves: the vertices it has put on the stack, each new. -/
structure Expanded (target : V) (ds seen stack : List V) (left : List V × List V) : Prop where
  missed : target ∉ ds
  pushed : ∃ new : List V, left = (new ++ seen, new ++ stack) ∧ new.Nodup ∧
    ∀ d ∈ new, d ∈ ds ∧ d ∉ seen
  covered : ∀ d ∈ ds, d ∈ left.1

theorem expand_eq_some {target : V} {ds seen stack : List V} {left : List V × List V}
    (h : expand target ds seen stack = some left) : Expanded target ds seen stack left := by
  induction ds generalizing seen stack with
  | nil =>
      cases h
      exact ⟨List.not_mem_nil, ⟨[], rfl, List.nodup_nil, fun _ no => nomatch no⟩,
        fun _ no => nomatch no⟩
  | cons d ds ih =>
      rw [expand] at h
      split at h
      · cases h
      · next other =>
          split at h
          · next old =>
              obtain ⟨missed, ⟨new, rfl, nodup, fresh⟩, covered⟩ := ih h
              refine ⟨?_, ⟨new, rfl, nodup, fun e he => ?_⟩, ?_⟩
              · exact fun no => (List.mem_cons.mp no).elim (fun e => other e.symm) missed
              · exact ⟨List.mem_cons_of_mem _ (fresh e he).1, (fresh e he).2⟩
              · intro e he
                rcases List.mem_cons.mp he with rfl | he
                · exact List.mem_append_right _ old
                · exact covered e he
          · next unseen =>
              obtain ⟨missed, ⟨new, rfl, nodup, fresh⟩, covered⟩ := ih h
              have apart : ∀ e ∈ new, e ≠ d := fun e he same =>
                (fresh e he).2 (same ▸ List.mem_cons_self)
              refine ⟨?_, ⟨new ++ [d], by simp, ?_, fun e he => ?_⟩, ?_⟩
              · exact fun no => (List.mem_cons.mp no).elim (fun e => other e.symm) missed
              · refine List.nodup_append.mpr ⟨nodup, List.nodup_singleton d, fun a ha b hb => ?_⟩
                rw [List.mem_singleton.mp hb]
                exact apart a ha
              · rcases List.mem_append.mp he with he | he
                · exact ⟨List.mem_cons_of_mem _ (fresh e he).1,
                    fun old => (fresh e he).2 (List.mem_cons_of_mem _ old)⟩
                · rw [List.mem_singleton.mp he]
                  exact ⟨List.mem_cons_self, unseen⟩
              · intro e he
                rcases List.mem_cons.mp he with rfl | he
                · exact List.mem_append_right _ List.mem_cons_self
                · exact covered e he

/-- Every vertex a round puts on the stack is one less to be seen. -/
theorem Expanded.measure {target : V} {ds seen stack : List V} {left : List V × List V}
    (h : Expanded target ds seen stack left) {bound : List V} (inside : ds ⊆ bound) :
    (bound.toFinset \ left.1.toFinset).card + left.2.length =
      (bound.toFinset \ seen.toFinset).card + stack.length := by
  obtain ⟨-, ⟨new, rfl, nodup, fresh⟩, -⟩ := h
  have sub : new.toFinset ⊆ bound.toFinset \ seen.toFinset := by
    intro e he
    obtain ⟨inDs, unseen⟩ := fresh e (List.mem_toFinset.mp he)
    simp [inside inDs, unseen]
  have gone : bound.toFinset \ (new ++ seen).toFinset =
      (bound.toFinset \ seen.toFinset) \ new.toFinset := by
    ext e
    simp only [Finset.mem_sdiff, List.mem_toFinset, List.mem_append, not_or]
    tauto
  have size : new.toFinset.card = new.length := List.toFinset_card_of_nodup nodup
  have le := Finset.card_le_card sub
  rw [gone, Finset.card_sdiff_of_subset sub, List.length_append]
  omega

variable (succ : V → List V) (bound : List V)

/-- Whether the target is a successor of a vertex found from the stack. Every successor
is one of the vertices of the bound, so the search ends. -/
def search (inside : ∀ v, succ v ⊆ bound) (target : V) (seen stack : List V) : Bool :=
  match stack with
  | [] => false
  | p :: rest =>
    match _found : expand target (succ p) seen rest with
    | none => true
    | some (seen', stack') => search inside target seen' stack'
termination_by (bound.toFinset \ seen.toFinset).card + stack.length
decreasing_by
  have same := (expand_eq_some _found).measure (inside p)
  simp only [List.length_cons] at same ⊢
  omega

/-- An edge of the graph. -/
def Step (v d : V) : Prop := d ∈ succ v

/-- A search under way: the stack has been reached, and a vertex met is still on the stack
or all its successors are seen and none is the target. -/
structure Searching (source target : V) (seen stack : List V) : Prop where
  reached : ∀ v ∈ stack, Relation.ReflTransGen (Step succ) source v
  closed : ∀ v, v = source ∨ v ∈ seen → v ∈ stack ∨ ∀ d ∈ succ v, d ≠ target ∧ d ∈ seen

variable {succ bound}

theorem Searching.next {source target p : V} {seen rest : List V} {left : List V × List V}
    (h : Searching succ source target seen (p :: rest))
    (done : Expanded target (succ p) seen rest left) :
    Searching succ source target left.1 left.2 := by
  obtain ⟨missed, ⟨new, rfl, -, fresh⟩, covered⟩ := done
  constructor
  · intro v hv
    rcases List.mem_append.mp hv with hv | hv
    · exact (h.reached p List.mem_cons_self).tail (fresh v hv).1
    · exact h.reached v (List.mem_cons_of_mem _ hv)
  · intro v hv
    by_cases isNew : v ∈ new
    · exact .inl (List.mem_append_left _ isNew)
    · have old : v = source ∨ v ∈ seen :=
        hv.imp_right fun met => (List.mem_append.mp met).resolve_left isNew
      rcases h.closed v old with onStack | all
      · rcases List.mem_cons.mp onStack with rfl | onStack
        · exact .inr fun d hd => ⟨fun same => missed (same ▸ hd), covered d hd⟩
        · exact .inl (List.mem_append_right _ onStack)
      · exact .inr fun d hd => ⟨(all d hd).1, List.mem_append_right _ (all d hd).2⟩

omit [DecidableEq V] in
/-- With an empty stack nothing more can be reached. -/
theorem Searching.unreached {source target : V} {seen : List V}
    (h : Searching succ source target seen []) :
    ¬ Relation.TransGen (Step succ) source target := by
  have all : ∀ v, v = source ∨ v ∈ seen → ∀ d ∈ succ v, d ≠ target ∧ d ∈ seen :=
    fun v hv => (h.closed v hv).resolve_left List.not_mem_nil
  have seen_of : ∀ v, Relation.TransGen (Step succ) source v → v ≠ target ∧ v ∈ seen := by
    intro v hv
    induction hv with
    | single step => exact all source (.inl rfl) _ step
    | tail _ step ih => exact all _ (.inr ih.2) _ step
  exact fun reached => (seen_of target reached).1 rfl

theorem Searching.search_iff {inside : ∀ v, succ v ⊆ bound} {source target : V}
    {seen stack : List V} (h : Searching succ source target seen stack) :
    search succ bound inside target seen stack = true ↔
      Relation.TransGen (Step succ) source target := by
  induction seen, stack using search.induct succ bound inside target with
  | case1 seen =>
      rw [search]
      exact ⟨fun no => absurd no Bool.false_ne_true, fun reached => absurd reached h.unreached⟩
  | case2 seen p rest found =>
      rw [search]
      split
      · exact ⟨fun _ => .tail' (h.reached p List.mem_cons_self) (expand_eq_none found), fun _ => rfl⟩
      · next other => rw [found] at other; cases other
  | case3 seen p rest seen' stack' found ih =>
      rw [search]
      split
      · next other => rw [found] at other; cases other
      · next other =>
          rw [found] at other
          cases other
          exact ih (h.next (expand_eq_some found))

/-- The search from one vertex decides whether the target is reached by one or more edges. -/
theorem search_iff (inside : ∀ v, succ v ⊆ bound) (source target : V) :
    search succ bound inside target [] [source] = true ↔
      Relation.TransGen (Step succ) source target := by
  apply Searching.search_iff
  constructor
  · intro v hv
    rw [List.mem_singleton.mp hv]
  · rintro v (rfl | no)
    · exact .inl (List.mem_singleton_self v)
    · cases no

/-! ## The vertices reached -/

variable (succ bound)

/-- The vertices reached from the stack, each once, in the order in which they come up. -/
def visit (inside : ∀ v, succ v ⊆ bound) (seen stack : List V) : List V :=
  match stack with
  | [] => []
  | p :: rest =>
    if p ∈ seen then visit inside seen rest
    else p :: visit inside (p :: seen) ((succ p).reverse ++ rest)
termination_by (((bound ++ stack).toFinset \ seen.toFinset).card, stack.length)
decreasing_by
  · next _old =>
      have fewer : (bound ++ rest).toFinset \ seen.toFinset ⊆
          (bound ++ p :: rest).toFinset \ seen.toFinset := by
        intro v hv
        simp only [Finset.mem_sdiff, List.mem_toFinset, List.mem_append, List.mem_cons] at hv ⊢
        tauto
      exact Prod.Lex.right' _ (Finset.card_le_card fewer) (Nat.lt_succ_self _)
  · next new =>
      refine Prod.Lex.left _ _ (Finset.card_lt_card ?_)
      refine Finset.ssubset_iff_of_subset (fun v hv => ?_) |>.mpr ⟨p, ?_, ?_⟩
      · simp only [Finset.mem_sdiff, List.mem_toFinset, List.mem_append, List.mem_reverse,
          List.mem_cons, not_or] at hv ⊢
        obtain ⟨inBound | inSucc | inRest, -, unseen⟩ := hv
        · exact ⟨.inl inBound, unseen⟩
        · exact ⟨.inl (inside p inSucc), unseen⟩
        · exact ⟨.inr (.inr inRest), unseen⟩
      · simp [new]
      · simp

variable {succ bound}

theorem reached_of_mem_visit {inside : ∀ v, succ v ⊆ bound} {seen stack : List V} {v : V}
    (h : v ∈ visit succ bound inside seen stack) :
    ∃ s ∈ stack, Relation.ReflTransGen (Step succ) s v := by
  induction seen, stack using visit.induct succ bound inside with
  | case1 seen =>
      rw [visit] at h
      cases h
  | case2 seen p rest old ih =>
      rw [visit, if_pos old] at h
      obtain ⟨s, hs, path⟩ := ih h
      exact ⟨s, List.mem_cons_of_mem _ hs, path⟩
  | case3 seen p rest new ih =>
      rw [visit, if_neg new] at h
      rcases List.mem_cons.mp h with rfl | h
      · exact ⟨v, List.mem_cons_self, .refl⟩
      · obtain ⟨s, hs, path⟩ := ih h
        rcases List.mem_append.mp hs with hs | hs
        · exact ⟨p, List.mem_cons_self, path.head (List.mem_reverse.mp hs)⟩
        · exact ⟨s, List.mem_cons_of_mem _ hs, path⟩

/-- Whatever is on the stack, or a successor of a vertex found, is found or was seen. -/
theorem visit_closed {inside : ∀ v, succ v ⊆ bound} {seen stack : List V} :
    (∀ v ∈ stack, v ∈ seen ∨ v ∈ visit succ bound inside seen stack) ∧
    ∀ v ∈ visit succ bound inside seen stack, ∀ d ∈ succ v,
      d ∈ seen ∨ d ∈ visit succ bound inside seen stack := by
  induction seen, stack using visit.induct succ bound inside with
  | case1 seen =>
      rw [visit]
      exact ⟨(fun _ no => nomatch no), (fun _ no => nomatch no)⟩
  | case2 seen p rest old ih =>
      rw [visit, if_pos old]
      refine ⟨fun v hv => ?_, ih.2⟩
      rcases List.mem_cons.mp hv with rfl | hv
      · exact .inl old
      · exact ih.1 v hv
  | case3 seen p rest new ih =>
      rw [visit, if_neg new]
      have lift : ∀ v, v ∈ p :: seen ∨ v ∈ visit succ bound inside (p :: seen)
          ((succ p).reverse ++ rest) → v ∈ seen ∨ v ∈ p :: visit succ bound inside (p :: seen)
          ((succ p).reverse ++ rest) := by
        rintro v (hv | hv)
        · rcases List.mem_cons.mp hv with rfl | hv
          · exact .inr List.mem_cons_self
          · exact .inl hv
        · exact .inr (List.mem_cons_of_mem _ hv)
      constructor
      · intro v hv
        rcases List.mem_cons.mp hv with rfl | hv
        · exact .inr List.mem_cons_self
        · exact lift v (ih.1 v (List.mem_append_right _ hv))
      · intro v hv d hd
        rcases List.mem_cons.mp hv with rfl | hv
        · exact lift d (ih.1 d (List.mem_append_left _ (List.mem_reverse.mpr hd)))
        · exact lift d (ih.2 v hv d hd)

/-- From nothing seen, the visit finds exactly what the stack leads to. -/
theorem mem_visit_iff {inside : ∀ v, succ v ⊆ bound} {stack : List V} {v : V} :
    v ∈ visit succ bound inside [] stack ↔
      ∃ s ∈ stack, Relation.ReflTransGen (Step succ) s v := by
  refine ⟨reached_of_mem_visit, ?_⟩
  rintro ⟨s, hs, path⟩
  obtain ⟨start, closed⟩ := @visit_closed V _ succ bound inside [] stack
  induction path with
  | refl => exact (start s hs).resolve_left List.not_mem_nil
  | tail _ step ih => exact (closed _ ih _ step).resolve_left List.not_mem_nil

end Search

/-! ## Rankings -/

section Rankings

variable (edge : V → V → Bool → Prop)

def Linked (h d : V) : Prop := ∃ strict, edge h d strict

/-- A strict edge on a cycle. -/
def StrictCycle : Prop := ∃ h d, edge h d true ∧ Relation.ReflTransGen (Linked edge) d h

/-- No edge leads to a higher vertex, and a strict one leads to a lower vertex. -/
def Ranks (r : V → Nat) : Prop := ∀ h d strict, edge h d strict → r d + strict.toNat ≤ r h

variable {edge}

theorem Ranks.le {r : V → Nat} (ranks : Ranks edge r) {v w : V}
    (path : Relation.ReflTransGen (Linked edge) v w) : r w ≤ r v := by
  induction path with
  | refl => exact Nat.le_refl _
  | tail _ step ih =>
      obtain ⟨strict, step⟩ := step
      have := ranks _ _ strict step
      omega

theorem Ranks.acyclic {r : V → Nat} (ranks : Ranks edge r) : ¬ StrictCycle edge := by
  rintro ⟨h, d, strict, back⟩
  have up := ranks h d true strict
  have down := ranks.le back
  simp only [Bool.toNat_true] at up
  omega

/-- Without a strict edge on a cycle, counting the targets of the strict edges still ahead
ranks the vertices, below their number. -/
theorem exists_ranks [DecidableEq V] (vertices : Finset V)
    (inside : ∀ h d strict, edge h d strict → d ∈ vertices) (acyclic : ¬ StrictCycle edge) :
    ∃ r, Ranks edge r ∧ (∀ v, r v ≤ vertices.card) ∧ ∀ v ∈ vertices, r v < vertices.card := by
  classical
  let ahead (v : V) : Finset V :=
    vertices.filter fun d => ∃ h, Relation.ReflTransGen (Linked edge) v h ∧ edge h d true
  have not_ahead : ∀ v, v ∉ ahead v := by
    intro v hv
    obtain ⟨-, h, path, strict⟩ := Finset.mem_filter.mp hv
    exact acyclic ⟨h, v, strict, path⟩
  have mono : ∀ h d strict, edge h d strict → ahead d ⊆ ahead h := by
    intro h d strict step e he
    obtain ⟨inV, h', path, strict'⟩ := Finset.mem_filter.mp he
    exact Finset.mem_filter.mpr ⟨inV, h', path.head ⟨strict, step⟩, strict'⟩
  refine ⟨fun v => (ahead v).card, fun h d strict step => ?_,
    fun v => Finset.card_le_card (Finset.filter_subset _ _), fun v hv => ?_⟩
  · cases strict with
    | false => simpa using Finset.card_le_card (mono h d false step)
    | true =>
        have target : d ∈ ahead h := Finset.mem_filter.mpr ⟨inside h d true step, h, .refl, step⟩
        have smaller : ahead d ⊂ ahead h :=
          Finset.ssubset_iff_of_subset (mono h d true step) |>.mpr ⟨d, target, not_ahead d⟩
        exact Finset.card_lt_card smaller
  · refine Finset.card_lt_card (Finset.ssubset_iff_of_subset (Finset.filter_subset _ _) |>.mpr ?_)
    exact ⟨v, hv, not_ahead v⟩

end Rankings

end Digraph
