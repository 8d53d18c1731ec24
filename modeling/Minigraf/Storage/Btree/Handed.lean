import Mathlib.Data.List.Sort
import Minigraf.Storage.Btree.Rebuild

/-!
What the page writers are handed while a tree is built or rebuilt, and when every page
keeps to its bounds: the leaves by their entries, the internal pages by the keys that
become separators.
-/

namespace Minigraf

open Bytes EStateM

/-! ## Internal pages -/

section Levels

variable {H C : Type} (crc : Crc H C)

/-- The internal nodes over a level, in the order of their pages. -/
def internalNodes (level : List NodeInfo) (nextPage : Nat) : List (NodeInfo × List NodeInfo) :=
  match level with
  | [] => []
  | [_] => []
  | first :: second :: rest =>
      let nodes := groupLevel (first :: second :: rest)
      nodes ++ internalNodes (nextLevel nextPage nodes) (nextPage + nodes.length)
  termination_by level.length
  decreasing_by
    rw [length_nextLevel]
    have := length_groupLevel (first :: second :: rest)
    simp only [List.length_cons] at this ⊢
    omega

theorem internalNodes_rec {level : List NodeInfo} (two : 2 ≤ level.length) (nextPage : Nat) :
    internalNodes level nextPage = groupLevel level ++
      internalNodes (nextLevel nextPage (groupLevel level)) (nextPage + (groupLevel level).length) := by
  match level, two with
  | first :: second :: rest, _ => rw [internalNodes]

theorem buildInternalLevels_rec {level : List NodeInfo} (two : 2 ≤ level.length) (nextPage : Nat) :
    buildInternalLevels crc level nextPage = (do
      writeNodes crc nextPage (groupLevel level)
      buildInternalLevels crc (nextLevel nextPage (groupLevel level))
        (nextPage + (groupLevel level).length)) := by
  match level, two with
  | first :: second :: rest, _ => rw [buildInternalLevels]

theorem writeNodes_append (nextPage : Nat) (nodes later : List (NodeInfo × List NodeInfo)) :
    writeNodes crc nextPage (nodes ++ later) = (do
      writeNodes crc nextPage nodes
      writeNodes crc (nextPage + nodes.length) later) := by
  induction nodes generalizing nextPage with
  | nil => rw [List.nil_append, writeNodes, pure_bind, List.length_nil, Nat.add_zero]
  | cons node nodes ih =>
      rw [List.cons_append, writeNodes, writeNodes, ih, bind_assoc, List.length_cons,
        show nextPage + 1 + nodes.length = nextPage + (nodes.length + 1) by omega]

theorem nextLevel_ne_nil {level : List NodeInfo} (some_ : level ≠ []) (nextPage : Nat) :
    nextLevel nextPage (groupLevel level) ≠ [] := by
  intro none_
  have whole := Greedy.groups_flatMap siblingFull
    (fun seps child => seps.add child.2.length) (fun _ => ⟨0, 0⟩) level
  have empty : groupLevel level = [] := by
    rw [← List.length_eq_zero_iff, ← length_nextLevel nextPage, none_, List.length_nil]
  rw [groupLevel] at empty
  rw [empty, List.flatMap_nil] at whole
  exact some_ whole.symm

/-- The internal levels are written as these nodes, one page after the other. -/
theorem buildInternalLevels_eq {level : List NodeInfo} (some_ : level ≠ []) (nextPage : Nat) : ∃ root,
    buildInternalLevels crc level nextPage = (do
      writeNodes crc nextPage (internalNodes level nextPage)
      pure (root, nextPage + (internalNodes level nextPage).length)) := by
  induction hn : level.length using Nat.strong_induction_on generalizing level nextPage with
  | _ n ih =>
      by_cases two : 2 ≤ level.length
      · have half := length_groupLevel level
        obtain ⟨root, above⟩ := ih (nextLevel nextPage (groupLevel level)).length
          (by rw [length_nextLevel]; omega) (nextLevel_ne_nil some_ nextPage)
          (nextPage + (groupLevel level).length) rfl
        refine ⟨root, ?_⟩
        rw [buildInternalLevels_rec crc two, internalNodes_rec two, above, writeNodes_append, bind_assoc,
          List.length_append, Nat.add_assoc]
      · have pos := List.length_pos_iff.mpr some_
        obtain ⟨node, rfl⟩ := List.length_eq_one_iff.mp (by omega : level.length = 1)
        refine ⟨node.1, ?_⟩
        rw [buildInternalLevels, internalNodes]
        rfl

/-- An internal page to be written keeps to its bounds: its separators stay behind the
children and the slots, and it reads as the children and separators it was given. -/
def NodeSafe (node : NodeInfo × List NodeInfo) : Prop :=
  NodeRoom node ∧ ∃ page,
    encodeInternalPage ((Greedy.members node).map Prod.fst) (node.2.map Prod.snd) = .ok page ∧
    InternalPage page ((Greedy.members node).map Prod.fst) (node.2.map Prod.snd)

theorem nodeSafe_iff {node : NodeInfo × List NodeInfo} (small : ∀ child ∈ Greedy.members node,
    child.1 < 256 ^ 8) : NodeSafe node ↔ NodeRoom node := by
  refine ⟨And.left, fun room => ⟨room, ?_⟩⟩
  apply encodeInternalPage_room
  · simp [Greedy.members]
  · rw [List.length_map]
    exact room
  · intro id hid
    obtain ⟨child, hchild, rfl⟩ := List.mem_map.mp hid
    exact small child hchild

theorem nextLevel_small {nextPage bound : Nat} {nodes : List (NodeInfo × List NodeInfo)}
    (inside : nextPage + nodes.length ≤ bound) : ∀ info ∈ nextLevel nextPage nodes, info.1 < bound := by
  induction nodes generalizing nextPage with
  | nil => exact fun _ no => absurd no List.not_mem_nil
  | cons node nodes ih =>
      rw [List.length_cons] at inside
      intro info hinfo
      obtain rfl | hinfo := List.mem_cons.mp hinfo
      · simp only
        omega
      · exact ih (by omega) info hinfo

/-- The keys of the nodes of the next level but the first. -/
theorem tail_nextLevel {P : List UInt8 → Prop} (nextPage : Nat) (nodes : List (NodeInfo × List NodeInfo)) :
    (∀ info ∈ (nextLevel nextPage nodes).tail, P info.2) ↔ ∀ node ∈ nodes.tail, P node.1.2 := by
  cases nodes with
  | nil => simp [nextLevel]
  | cons node nodes =>
      rw [nextLevel, List.tail_cons, List.tail_cons]
      generalize nextPage + 1 = next
      induction nodes generalizing next with
      | nil => simp [nextLevel]
      | cons node nodes ih => simp only [nextLevel, List.forall_mem_cons, ih]

/-- The internal pages keep to their bounds exactly when every key of the level but the
first fits one beside a child and a slot: each of these becomes a separator at some
level. -/
theorem internalNodes_safe {level : List NodeInfo} {nextPage : Nat}
    (small : ∀ info ∈ level, info.1 < 256 ^ 8) (near : nextPage + 2 * level.length < 256 ^ 8) :
    (∀ node ∈ internalNodes level nextPage, NodeSafe node) ↔ ∀ info ∈ level.tail, SepFits info.2 := by
  induction hn : level.length using Nat.strong_induction_on generalizing level nextPage with
  | _ n ih =>
      by_cases two : 2 ≤ level.length
      · have half := length_groupLevel level
        have whole : (groupLevel level).flatMap Greedy.members = level := Greedy.groups_flatMap _ _ _ level
        have each : ∀ node ∈ groupLevel level, ∀ child ∈ Greedy.members node, child.1 < 256 ^ 8 :=
          fun node hnode child hchild => small child (Greedy.mem_of_mem_groups _ _ _ hnode hchild)
        have rooms : (∀ node ∈ groupLevel level, NodeSafe node) ↔
            ∀ node ∈ groupLevel level, ∀ sep ∈ node.2, SepFits sep.2 := by
          constructor
          · intro safe node hnode sep hsep
            have room := (safe node hnode).1
            have long := List.length_pos_iff.mpr (List.ne_nil_of_mem hsep)
            have part := Block.length_le_recordBytes (List.mem_map_of_mem (f := Prod.snd) hsep)
            simp only [NodeRoom] at room
            simp only [SepFits]
            omega
          · intro narrow node hnode
            exact (nodeSafe_iff (each node hnode)).mpr (groupLevel_room node hnode (narrow node hnode))
        have above := @ih (nextLevel nextPage (groupLevel level)).length
          (by rw [length_nextLevel]; omega) (nextLevel nextPage (groupLevel level))
          (nextPage + (groupLevel level).length) (nextLevel_small (by omega))
          (by rw [length_nextLevel]; omega) rfl
        rw [internalNodes_rec two, List.forall_mem_append, rooms, above, tail_nextLevel]
        generalize groupLevel level = nodes at whole
        rw [← whole]
        cases nodes with
        | nil => simp
        | cons node nodes =>
            simp only [List.flatMap_cons, Greedy.members, List.cons_append, List.tail_cons,
              List.forall_mem_append, List.forall_mem_cons, List.mem_flatMap]
            constructor
            · rintro ⟨⟨here, there⟩, heads⟩
              refine ⟨here, ?_⟩
              rintro info ⟨node', hnode', hinfo⟩
              obtain rfl | hinfo := List.mem_cons.mp hinfo
              · exact heads node' hnode'
              · exact there node' hnode' info hinfo
            · rintro ⟨here, all⟩
              exact ⟨⟨here, fun node' hnode' sep hsep => all sep ⟨node', hnode', List.mem_cons_of_mem _ hsep⟩⟩,
                fun node' hnode' => all node'.1 ⟨node', hnode', List.mem_cons_self⟩⟩
      · cases level with
        | nil => simp [internalNodes]
        | cons node rest =>
            cases rest with
            | nil => simp [internalNodes]
            | cons second rest => simp at two

end Levels

/-! ## Leaves -/

/-- A leaf that is written: its entries, and the old page when it is copied. -/
structure Handed (K : Type) where
  leaf : (K × FactRef) × List (K × FactRef)
  copied : Option Page

def Handed.entries {K : Type} (h : Handed K) : List (K × FactRef) := Greedy.members h.leaf

section Leaves

variable {K : Type} (codec : IndexCodec K) {H C : Type} (crc : Crc H C)

/-- Push these leaves, encoding those that are not copied. -/
def pushHanded (emitter : LeafEmitter) : List (Handed K) → Io C LeafEmitter
  | [] => pure emitter
  | h :: hs => do
      let page ← ofResult (h.copied.elim (encodeLeafPage (leafRecords codec h.leaf) 0) .ok)
      let emitter ← emitter.push crc page (codec.key.encode h.leaf.1.1)
      pushHanded emitter hs

theorem pushHanded_append (emitter : LeafEmitter) (hs later : List (Handed K)) :
    pushHanded codec crc emitter (hs ++ later) = (do
      let emitter ← pushHanded codec crc emitter hs
      pushHanded codec crc emitter later) := by
  induction hs generalizing emitter with
  | nil => rw [List.nil_append, pushHanded, pure_bind]
  | cons h hs ih => simp only [List.cons_append, pushHanded, ih, bind_assoc]

/-- What a bulk build packs. -/
def bulkHanded (entries : List (K × FactRef)) : List (Handed K) :=
  (packLeaves codec leafOverflows entries).map fun leaf => ⟨leaf, none⟩

/-- What `emit_packed` packs. -/
def packedHanded (entries : List (K × FactRef)) : List (Handed K) :=
  (packLeaves codec (emitFull (emitTarget codec entries)) entries).map fun leaf => ⟨leaf, none⟩

theorem emitPacked_eq (emitter : LeafEmitter) (entries : List (K × FactRef)) :
    emitPacked crc codec emitter entries = pushHanded codec crc emitter (packedHanded codec entries) := by
  rw [emitPacked, packedHanded]
  generalize packLeaves codec (emitFull (emitTarget codec entries)) entries = leaves
  induction leaves generalizing emitter with
  | nil => rfl
  | cons leaf leaves ih => simp only [pushLeaves, List.map_cons, pushHanded, Option.elim_none, ih]

variable [LinearOrder K]

/-- What one old leaf becomes. -/
def leafHanded (old : Page × (K × FactRef) × List (K × FactRef)) (batch : List (K × FactRef)) :
    List (Handed K) :=
  if batch.isEmpty then [⟨old.2, some old.1⟩]
  else packedHanded codec (mergeSortedVecs (Greedy.members old.2) batch)

/-- What the old leaves become, each with the pending entries routed to it. -/
def leavesHanded : List (Page × (K × FactRef) × List (K × FactRef)) → List (K × FactRef) →
    List (Handed K)
  | [], _ => []
  | old :: later, pending =>
      let route := routeBatch (later.head?.map fun next => next.2.1.1) pending
      leafHanded codec old route.1 ++ leavesHanded later route.2

/-- The loop over the old leaves pushes these. -/
theorem rebuildLeaves_eq (emitter : LeafEmitter)
    {olds : List (Page × (K × FactRef) × List (K × FactRef))}
    (reads : ∀ old ∈ olds, readLeafEntries codec old.1 = .ok (Greedy.members old.2))
    (pending : List (K × FactRef)) :
    rebuildLeaves crc codec emitter (olds.map fun old => (old.1, old.2.1.1)) pending =
      pushHanded codec crc emitter (leavesHanded codec olds pending) := by
  induction olds generalizing emitter pending with
  | nil => rfl
  | cons old olds ih =>
      have upper : ((olds.map fun old => (old.1, old.2.1.1)).head?.map Prod.snd) =
          olds.head?.map fun next => next.2.1.1 := by
        cases olds <;> rfl
      rw [List.map_cons, rebuildLeaves, upper, leavesHanded, pushHanded_append]
      have later := fun emitter => ih emitter fun o ho => reads o (List.mem_cons_of_mem _ ho)
      simp only [later]
      generalize routeBatch (olds.head?.map fun next => next.2.1.1) pending = route
      congr 1
      unfold rebuildLeaf leafHanded
      split
      · simp only [pushHanded, Option.elim_some, ofResult, pure_bind, bind_pure]
      · simp only [reads old List.mem_cons_self, ofResult, pure_bind, emitPacked_eq]

omit [LinearOrder K] in
/-- The emitter lists the leaves it was handed for the level above. -/
theorem wp_pushHanded (emitter : LeafEmitter) (hs : List (Handed K)) (s : Dev C) :
    Wp (pushHanded codec crc emitter hs) s
      (fun emitter' _ => emitter'.nextPage = emitter.nextPage + hs.length ∧
        emitter'.infos = emitter.infos ++ infosFrom codec emitter.nextPage (hs.map Handed.entries))
      (fun _ _ => True) := by
  have all {α : Type} (x : Io C α) (s : Dev C) : Wp x s (fun _ _ => True) fun _ _ => True := by
    unfold Wp
    cases x s <;> trivial
  induction hs generalizing emitter s with
  | nil => simp [pushHanded, infosFrom]
  | cons h hs ih =>
      rw [pushHanded, wp_bind]
      refine (all _ s).post fun page t _ => ?_
      rw [wp_bind, LeafEmitter.push, wp_bind]
      refine (all _ t).post fun _ u _ => ?_
      rw [wp_pure]
      refine (ih _ u).post fun emitter' _ known => ?_
      obtain ⟨next, infos⟩ := known
      simp only at next infos
      rw [next, infos, List.length_cons, List.map_cons, infosFrom, List.append_assoc]
      exact ⟨by omega, rfl⟩

end Leaves
end Minigraf
