import Minigraf.Lib.Digraph

/-!
Breadth-first search in a finite directed graph: a list of vertices that is walked from its
front while what a vertex leads to goes to its end, unless it is there already.
-/

namespace Digraph

variable {V : Type} [DecidableEq V]

/-- The vertices that are not found yet go to the end. -/
def enlist : List V → List V → List V
  | found, [] => found
  | found, d :: ds => if d ∈ found then enlist found ds else enlist (found ++ [d]) ds

/-- What a vertex brings: vertices it leads to, each new, and with them it leads to no other. -/
structure Enlisted (ds found new : List V) : Prop where
  nodup : new.Nodup
  fresh : ∀ d ∈ new, d ∈ ds ∧ d ∉ found
  covered : ∀ d ∈ ds, d ∈ found ++ new

theorem enlist_eq (found ds : List V) : ∃ new, enlist found ds = found ++ new ∧ Enlisted ds found new := by
  induction ds generalizing found with
  | nil => exact ⟨[], (List.append_nil found).symm, List.nodup_nil, nofun, nofun⟩
  | cons d ds ih =>
      rw [enlist]
      by_cases old : d ∈ found
      · rw [if_pos old]
        obtain ⟨new, same, brought⟩ := ih found
        refine ⟨new, same, brought.nodup, fun e he => ?_, fun e he => ?_⟩
        · exact ⟨List.mem_cons_of_mem d (brought.fresh e he).1, (brought.fresh e he).2⟩
        · rcases List.mem_cons.mp he with rfl | he
          · exact List.mem_append_left new old
          · exact brought.covered e he
      · rw [if_neg old]
        obtain ⟨new, same, brought⟩ := ih (found ++ [d])
        refine ⟨d :: new, by rw [same, List.append_assoc, List.singleton_append], ?_, ?_, ?_⟩
        · rw [List.nodup_cons]
          refine ⟨fun again => (brought.fresh d again).2 ?_, brought.nodup⟩
          exact List.mem_append_right found (List.mem_singleton_self d)
        · intro e he
          rcases List.mem_cons.mp he with rfl | he
          · exact ⟨List.mem_cons_self, old⟩
          · have fresh := brought.fresh e he
            exact ⟨List.mem_cons_of_mem d fresh.1, fun there => fresh.2 (List.mem_append_left [d] there)⟩
        · intro e he
          rcases List.mem_cons.mp he with rfl | he
          · exact List.mem_append_right found List.mem_cons_self
          · have there := brought.covered e he
            rwa [List.append_assoc, List.singleton_append] at there

variable (succ : V → List V) (bound : List V)

/-- Every vertex a step brings is one less to be found. -/
theorem Enlisted.measure {ds found new : List V} (h : Enlisted ds found new) (inside : ds ⊆ bound) :
    (bound.toFinset \ (found ++ new).toFinset).card + new.length = (bound.toFinset \ found.toFinset).card := by
  have sub : new.toFinset ⊆ bound.toFinset \ found.toFinset := by
    intro e he
    obtain ⟨led, unknown⟩ := h.fresh e (List.mem_toFinset.mp he)
    simp [inside led, unknown]
  have gone : bound.toFinset \ (found ++ new).toFinset = (bound.toFinset \ found.toFinset) \ new.toFinset := by
    ext e
    simp only [Finset.mem_sdiff, List.mem_toFinset, List.mem_append, not_or]
    tauto
  have size : new.toFinset.card = new.length := List.toFinset_card_of_nodup h.nodup
  have le := Finset.card_le_card sub
  rw [gone, Finset.card_sdiff_of_subset sub]
  omega

/-- The vertices found, from the place of the list that is walked next. -/
def breadthFirst (inside : ∀ v, succ v ⊆ bound) (found : List V) (i : Nat) : List V :=
  if _more : i < found.length then breadthFirst inside (enlist found (succ found[i])) (i + 1) else found
termination_by (bound.toFinset \ found.toFinset).card + (found.length - i)
decreasing_by
  obtain ⟨new, same, brought⟩ := enlist_eq found (succ found[i])
  have fewer := brought.measure bound (inside found[i])
  rw [same, List.length_append]
  omega

variable {succ bound}

/-- The search keeps what it has, and a vertex walked past leads to nothing else. -/
theorem breadthFirst_spec {inside : ∀ v, succ v ⊆ bound} {found : List V} {i : Nat}
    (walked : ∀ v ∈ found.take i, succ v ⊆ found) :
    found <+: breadthFirst succ bound inside found i ∧
      ∀ v ∈ breadthFirst succ bound inside found i, succ v ⊆ breadthFirst succ bound inside found i := by
  induction found, i using breadthFirst.induct succ bound inside with
  | case1 found i more ih =>
      rw [breadthFirst, dif_pos more]
      obtain ⟨new, same, brought⟩ := enlist_eq found (succ found[i])
      rw [same] at ih ⊢
      have here : ∀ v ∈ (found ++ new).take (i + 1), succ v ⊆ found ++ new := by
        intro v hv
        rw [List.take_append_of_le_length more, List.take_add_one, List.getElem?_eq_getElem more] at hv
        rcases List.mem_append.mp hv with hv | hv
        · exact fun d hd => List.mem_append_left new (walked v hv hd)
        · rw [List.mem_singleton.mp hv]
          exact brought.covered
      obtain ⟨kept, closed⟩ := ih here
      exact ⟨(List.prefix_append found new).trans kept, closed⟩
  | case2 found i done =>
      rw [breadthFirst, dif_neg done]
      refine ⟨List.prefix_refl found, fun v hv => walked v ?_⟩
      rwa [List.take_of_length_le (Nat.le_of_not_lt done)]

/-- What a search finds holds what it starts from and all that its vertices lead to. -/
theorem breadthFirst_closed (inside : ∀ v, succ v ⊆ bound) (start : List V) :
    start <+: breadthFirst succ bound inside start 0 ∧
      ∀ v ∈ breadthFirst succ bound inside start 0, succ v ⊆ breadthFirst succ bound inside start 0 :=
  breadthFirst_spec fun v hv => absurd hv (by simp)

end Digraph
