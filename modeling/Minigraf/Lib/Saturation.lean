import Mathlib.Data.List.Infix
import Mathlib.Data.List.Nodup

/-!
Sets that grow to a fixed point. A list of elements starts from a base and takes one more
element at a time, each made from elements it already has and each with a key that is new;
it is closed when all that can be made of it has a key it has. A closed list of this kind
is the least one, whatever the order it grew in.
-/

namespace Saturation

variable {α κ : Type} {key : α → κ} {Makes Makes' : List α → α → Prop} {base facts more : List α} {f : α}

/-- Everything made of the list has one of its keys. -/
def Closed (key : α → κ) (Makes : List α → α → Prop) (facts : List α) : Prop :=
  ∀ f, Makes facts f → key f ∈ facts.map key

/-- The list grew from its base, element by element. -/
inductive Grown (key : α → κ) (Makes : List α → α → Prop) (base : List α) : List α → Prop where
  | base : Grown key Makes base base
  | make {facts earlier : List α} {f : α} (grown : Grown key Makes base facts) (start : base <+: earlier)
      (front : earlier <+: facts) (made : Makes earlier f) (new : key f ∉ facts.map key) :
      Grown key Makes base (facts ++ [f])

namespace Grown

theorem prefix_ (grown : Grown key Makes base facts) : base <+: facts := by
  induction grown with
  | base => exact List.prefix_refl base
  | make _ _ _ _ _ ih => exact ih.trans (List.prefix_append _ _)

theorem trans (first : Grown key Makes base facts) (second : Grown key Makes facts more) :
    Grown key Makes base more := by
  induction second with
  | base => exact first
  | make _ start front made new ih => exact ih.make (first.prefix_.trans start) front made new

theorem mono (grown : Grown key Makes base facts)
    (weaker : ∀ earlier f, base <+: earlier → Makes earlier f → Makes' earlier f) :
    Grown key Makes' base facts := by
  induction grown with
  | base => exact .base
  | make _ start front made new ih => exact ih.make start front (weaker _ _ start made) new

/-- Elements made of one list, with keys that are new and differ, can be added in a row. -/
theorem round (start : base <+: facts) (grown : Grown key Makes base facts) {delta : List α}
    (made : ∀ f ∈ delta, Makes facts f) (new : ∀ f ∈ delta, key f ∉ facts.map key)
    (apart : (delta.map key).Nodup) : Grown key Makes base (facts ++ delta) := by
  induction delta using List.reverseRecOn with
  | nil => simpa using grown
  | append_singleton delta f ih =>
      rw [List.map_append, List.nodup_append] at apart
      have before := ih (fun g hg => made g (List.mem_append_left _ hg))
        (fun g hg => new g (List.mem_append_left _ hg)) apart.1
      rw [← List.append_assoc]
      apply before.make start (List.prefix_append _ _)
        (made f (List.mem_append_right _ (List.mem_singleton_self f)))
      rw [List.map_append, List.mem_append, not_or]
      refine ⟨new f (List.mem_append_right _ (List.mem_singleton_self f)), fun again => ?_⟩
      exact apart.2.2 _ again _ (List.mem_singleton_self _) rfl

/-- The keys that were added are new and differ. -/
theorem added_nodup (grown : Grown key Makes base facts) {added : List α} (split : facts = base ++ added) :
    (added.map key).Nodup ∧ ∀ f ∈ added, key f ∉ base.map key := by
  induction grown generalizing added with
  | base =>
      have none_ : added = [] := List.self_eq_append_right.mp split
      subst none_
      exact ⟨List.nodup_nil, nofun⟩
  | @make facts earlier f grown _ _ _ new ih =>
      obtain ⟨before, hbefore⟩ := grown.prefix_
      have here : added = before ++ [f] := by
        rw [← hbefore, List.append_assoc] at split
        exact (List.append_cancel_left split).symm
      obtain ⟨nodup, fresh⟩ := ih hbefore.symm
      rw [← hbefore, List.map_append, List.mem_append, not_or] at new
      subst here
      constructor
      · rw [List.map_append, List.nodup_append]
        refine ⟨nodup, List.nodup_singleton _, fun k old k' mem same => new.2 ?_⟩
        rw [List.map_singleton, List.mem_singleton] at mem
        rw [← mem, ← same]
        exact old
      · intro g hg
        rcases List.mem_append.mp hg with hg | hg
        · exact fresh g hg
        · rw [List.mem_singleton.mp hg]
          exact new.1

/-- What was added was made, each from elements before it. -/
theorem added_made (grown : Grown key Makes base facts) {added : List α} (split : facts = base ++ added) :
    ∀ f ∈ added, ∃ earlier, base <+: earlier ∧ earlier <+: facts ∧ Makes earlier f := by
  induction grown generalizing added with
  | base =>
      have none_ : added = [] := List.self_eq_append_right.mp split
      subst none_
      exact fun f hf => absurd hf List.not_mem_nil
  | @make facts earlier f grown start front made _ ih =>
      obtain ⟨before, hbefore⟩ := grown.prefix_
      have here : added = before ++ [f] := by
        rw [← hbefore, List.append_assoc] at split
        exact (List.append_cancel_left split).symm
      subst here
      intro g hg
      rcases List.mem_append.mp hg with hg | hg
      · obtain ⟨earlier', start', front', made'⟩ := ih hbefore.symm g hg
        exact ⟨earlier', start', front'.trans (List.prefix_append _ _), made'⟩
      · rw [List.mem_singleton.mp hg]
        exact ⟨earlier, start, front.trans (List.prefix_append _ _), made⟩

/-- A list that has the base, and a key for all that is made of what it has, has every key
of a list grown from the base. -/
theorem keys_subset (grown : Grown key Makes base facts) {bound : List κ} (start : base.map key ⊆ bound)
    (closed : ∀ earlier f, earlier <+: facts → earlier.map key ⊆ bound → Makes earlier f → key f ∈ bound) :
    facts.map key ⊆ bound := by
  induction grown with
  | base => exact start
  | @make facts earlier f _ _ front made _ ih =>
      have before := ih fun earlier' f' front' =>
        closed earlier' f' (front'.trans (List.prefix_append _ _))
      rw [List.map_append, List.append_subset]
      refine ⟨before, List.cons_subset.mpr ⟨?_, List.nil_subset _⟩⟩
      apply closed earlier f (front.trans (List.prefix_append _ _)) _ made
      exact List.Subset.trans (List.map_subset key front.subset) before

end Grown
end Saturation
