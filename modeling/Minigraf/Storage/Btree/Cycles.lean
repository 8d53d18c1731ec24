import Minigraf.Lib.Walk
import Minigraf.Storage.Btree.Scan
import Minigraf.Graph.Lookups
import Minigraf.Storage.Postcard

/-!
Traversals of arbitrary pages. The descents and the scan follow page ids without a bound: they
end exactly when the ids they follow never lead back to a page they have left. Only the walk of
`collect_leaf_pages` along the leaves is bounded.
-/

namespace Minigraf

open Bytes EStateM Walk

/-! ## Images -/

section Images

variable {H C : Type} (crc : Crc H C)

/-- The page a read of the file returns. -/
def Dev.view (s : Dev C) (id : Nat) : Option Page :=
  if s.header.pageCount ≤ id ∨ 2 ^ 64 ≤ id * PAGE_SIZE ∨ s.disk.len ≤ id then none
  else some (if id = 0 then s.disk.header.toPage crc else s.disk.page id)

/-- The cache holds pages of the file. -/
def Dev.Coherent (s : Dev C) : Prop := ∀ e ∈ s.cache.entries, s.view crc e.1 = some e.2

/-- Reading has moved no more than the cache. -/
structure SameView (s t : Dev C) : Prop where
  coherent : t.Coherent crc
  view : t.view crc = s.view crc
  pageCount : t.header.pageCount = s.header.pageCount

variable {crc}

theorem SameView.refl {s : Dev C} (h : s.Coherent crc) : SameView crc s s := ⟨h, rfl, rfl⟩

theorem SameView.trans {s t u : Dev C} (h : SameView crc s t) (h' : SameView crc t u) : SameView crc s u :=
  ⟨h'.coherent, h'.view.trans h.view, h'.pageCount.trans h.pageCount⟩

theorem lt_of_view {s : Dev C} {id : Nat} {p : Page} (h : s.view crc id = some p) : id < s.header.pageCount := by
  unfold Dev.view at h
  split at h
  · cases h
  · rename_i inside
    omega

theorem wp_readPage_view {s : Dev C} {id : Nat} {Q : Page → Dev C → Prop}
    (hok : ∀ p, s.view crc id = some p → Q p s) :
    Wp (readPage crc id) s Q (fun e t => t = s ∧ s.view crc id = none ∧ e ≠ .endless) := by
  unfold readPage
  simp only [wp_bind, wp_get]
  have gone {e : ErrorCode} (other : e ≠ .endless)
      (outside : s.header.pageCount ≤ id ∨ 2 ^ 64 ≤ id * PAGE_SIZE ∨ s.disk.len ≤ id) :
      s = s ∧ s.view crc id = none ∧ e ≠ .endless := ⟨rfl, if_pos outside, other⟩
  refine wp_ite (fun beyond => gone (by decide) (.inl beyond)) fun counted => ?_
  refine wp_ite (fun far => gone (by decide) (.inr (.inl far))) fun near => ?_
  refine wp_ite (fun outside => gone (by decide) (.inr (.inr outside))) fun inside => ?_
  have view : s.view crc id = some (if id = 0 then s.disk.header.toPage crc else s.disk.page id) :=
    if_neg (by omega)
  refine wp_ite (fun zero => ?_) fun data => ?_
  · rw [if_pos zero] at view
    exact hok _ view
  · rw [if_neg data] at view
    exact hok _ view

theorem wp_getOrLoad_view {s : Dev C} (h : s.Coherent crc) (id : Nat) :
    Wp (getOrLoad crc id) s (fun p t => s.view crc id = some p ∧ SameView crc s t)
      (fun e t => SameView crc s t ∧ s.view crc id = none ∧ e ≠ .endless) := by
  unfold getOrLoad
  simp only [wp_bind, wp_get]
  have missed {e : ErrorCode} {t : Dev C} (why : t = s ∧ s.view crc id = none ∧ e ≠ .endless) :
      SameView crc s t ∧ s.view crc id = none ∧ e ≠ .endless := by
    obtain ⟨rfl, why⟩ := why
    exact ⟨.refl h, why⟩
  refine wp_ite (fun _ => ?_) fun _ => ?_
  · exact (wp_readPage_view fun p hp => ⟨hp, .refl h⟩).mono (fun _ _ done => done) fun _ _ => missed
  · split
    · rename_i p hp
      exact ⟨h _ (PageCache.mem_of_get hp), .refl h⟩
    · rw [wp_bind]
      refine (wp_readPage_view fun p hp => ?_).mono (fun _ _ done => done) fun _ _ => missed
      rw [wp_bind, wp_modify, wp_pure]
      refine ⟨hp, fun e he => ?_, rfl, rfl⟩
      obtain rfl | old := PageCache.mem_insertNew he
      · exact hp
      · exact h e old

end Images

/-! ## Results that are no endless loop -/

/-- The result is not an endless loop. -/
def TameResult {α : Type} (r : Except ErrorCode α) : Prop := r ≠ .error .endless

theorem tame_ok {α : Type} (a : α) : TameResult (.ok a) := fun no => nomatch no

theorem TameResult.bind {α β : Type} {r : Except ErrorCode α} {f : α → Except ErrorCode β} (h : TameResult r)
    (later : ∀ a, r = .ok a → TameResult (f a)) : TameResult (r >>= f) := by
  cases r with
  | ok a => exact later a rfl
  | error e => exact fun same => h (congrArg _ (Except.error.inj same))

theorem tame_orError {α : Type} {e : ErrorCode} (other : e ≠ .endless) (a : Option α) : TameResult (orError e a) := by
  cases a with
  | none => exact fun same => other (Except.error.inj same)
  | some a => exact tame_ok a

theorem tame_mapM {α β : Type} {f : α → Except ErrorCode β} (l : List α) (each : ∀ a ∈ l, TameResult (f a)) :
    TameResult (l.mapM f) := by
  induction l with
  | nil => exact tame_ok []
  | cons a l ih =>
      rw [List.mapM_cons]
      refine (each a List.mem_cons_self).bind fun b _ => ?_
      exact (ih fun c hc => each c (List.mem_cons_of_mem a hc)).bind fun bs _ => tame_ok _

theorem tame_readU16At (page : Page) (off : Nat) : TameResult (readU16At page off) := tame_orError (by decide) _

theorem tame_readU64At (page : Page) (off : Nat) : TameResult (readU64At page off) := tame_orError (by decide) _

theorem tame_readSlotBytes (page : Page) (slotOff : Nat) : TameResult (readSlotBytes page slotOff) :=
  (tame_readU16At page slotOff).bind fun _ _ =>
    (tame_readU16At page (slotOff + 2)).bind fun _ _ => tame_orError (by decide) _

theorem tame_decodeOr {α : Type} (codec : Codec α) (bytes : List UInt8) : TameResult (decodeOr codec bytes) :=
  tame_orError (by decide) _

theorem tame_validateLeafSlots (page : Page) : TameResult (validateLeafSlots page) := by
  refine (tame_readU16At page 2).bind fun count _ => ?_
  simp only
  split
  · exact fun no => nomatch no
  · induction List.range count with
    | nil => exact tame_ok _
    | cons i l ih =>
        refine TameResult.bind ?_ fun _ _ => ih
        refine (tame_readU16At page _).bind fun _ _ => (tame_readU16At page _).bind fun _ _ => ?_
        split
        · exact fun no => nomatch no
        · exact tame_ok _

/-! ## Loops over pages -/

section Loops

variable {H C : Type} (crc : Crc H C) {α : Type}

/-- What a loop does with a page: it fails, it ends, or it goes on to another page and puts its
result together with what comes from there. -/
abbrev PageRound (α : Type) := Except ErrorCode (α ⊕ Nat × (α → α))

/-- The page a round goes on to. -/
def PageRound.next : PageRound α → Option Nat
  | .ok (.inr (id, _)) => some id
  | _ => none

def PageRound.run (later : Nat → Io C α) : PageRound α → Io C α
  | .error e => throw e
  | .ok (.inl a) => pure a
  | .ok (.inr (id, add)) => add <$> later id

theorem PageRound.run_bind {β : Type} (later : Nat → Io C α) (r : Except ErrorCode β)
    (f : β → Except ErrorCode (α ⊕ Nat × (α → α))) :
    PageRound.run later (r >>= f : Except ErrorCode (α ⊕ Nat × (α → α))) =
      ofResult r >>= fun b => PageRound.run later (f b) := by
  cases r with
  | ok b => rfl
  | error e => rfl

theorem PageRound.run_same (later : Nat → Io C α) (id : Nat) :
    PageRound.run later (.ok (.inr (id, fun a => a))) = later id := id_map (later id)

/-- The page a loop reads after the one at `id`. -/
def nextPage (round : Nat → Page → PageRound α) (s : Dev C) (id : Nat) : Option Nat :=
  (s.view crc id).bind fun page => (round id page).next

/-- A loop that reads a page in each of its rounds. -/
structure Rounded (loop : Nat → Nat → Io C α) (round : Nat → Page → PageRound α) : Prop where
  spent : ∀ id, loop 0 id = throw .endless
  step : ∀ n id, loop (n + 1) id = (do let page ← getOrLoad crc id; (round id page).run (loop n))
  tame : ∀ id page, TameResult (round id page)

/-- A run that has not used up its bound. -/
def Finishes (x : Io C α) (s : Dev C) : Prop := ∀ e t, x s = .error e t → e ≠ .endless

variable {crc}

theorem nextPage_same {s t : Dev C} (same : SameView crc s t) (round : Nat → Page → PageRound α) :
    nextPage crc round t = nextPage crc round s := by
  unfold nextPage
  rw [same.view]

/-- A loop uses up its bound exactly when its walk over the pages does not stop before. -/
theorem Rounded.wp {loop : Nat → Nat → Io C α} {round : Nat → Page → PageRound α} (h : Rounded crc loop round)
    {s : Dev C} (coherent : s.Coherent crc) (n id : Nat) :
    Wp (loop n id) s (fun _ t => SameView crc s t ∧ Within (nextPage crc round s) n id)
      (fun e t => SameView crc s t ∧ (e = .endless ↔ ¬ Within (nextPage crc round s) n id)) := by
  induction n generalizing s id with
  | zero =>
      rw [h.spent, wp_throw]
      exact ⟨.refl coherent, fun _ no => no, fun _ => rfl⟩
  | succ n ih =>
      have stops (none_ : nextPage crc round s id = none) : Within (nextPage crc round s) (n + 1) id := by
        intro b step
        rw [none_] at step
        cases step
      have cut {e : ErrorCode} {t : Dev C} (same : SameView crc s t) (other : e ≠ .endless)
          (none_ : nextPage crc round s id = none) :
          SameView crc s t ∧ (e = .endless ↔ ¬ Within (nextPage crc round s) (n + 1) id) :=
        ⟨same, fun no => absurd no other, fun no => absurd (stops none_) no⟩
      rw [h.step, wp_bind]
      refine (wp_getOrLoad_view coherent id).mono ?_ ?_
      · rintro page t ⟨view, same⟩
        have next : nextPage crc round s id = (round id page).next := by
          rw [nextPage, view, Option.bind_some]
        have tame := h.tame id page
        cases here : round id page with
        | error e =>
            rw [here] at tame next
            rw [PageRound.run, wp_throw]
            exact cut same (fun endless => tame (congrArg _ endless)) next
        | ok result =>
            rw [here] at next
            cases result with
            | inl a =>
                rw [PageRound.run, wp_pure]
                exact ⟨same, stops next⟩
            | inr later =>
                have within : Within (nextPage crc round s) (n + 1) id ↔
                    Within (nextPage crc round s) n later.1 := by
                  constructor
                  · intro w
                    exact w later.1 next
                  · intro w b step
                    rw [next] at step
                    cases step
                    exact w
                have run := ih same.coherent later.1
                rw [nextPage_same same] at run
                rw [PageRound.run, wp_map, within]
                exact run.mono (fun _ _ done => ⟨same.trans done.1, done.2⟩)
                  fun _ _ done => ⟨same.trans done.1, done.2⟩
      · rintro e t ⟨same, view, other⟩
        refine cut same other ?_
        rw [nextPage, view, Option.bind_none]

/-- What a loop returns, from what its last round returns. -/
theorem Rounded.wp_result {loop : Nat → Nat → Io C α} {round : Nat → Page → PageRound α}
    (h : Rounded crc loop round) {s : Dev C} (coherent : s.Coherent crc) {P : Nat → α → Prop} {E : Nat → Prop}
    (stop : ∀ id page a, s.view crc id = some page → round id page = .ok (.inl a) → P id a)
    (go : ∀ id page later add a, s.view crc id = some page → round id page = .ok (.inr (later, add)) →
      P later a → P id (add a))
    (lost : ∀ id, s.view crc id = none → E id)
    (fail : ∀ id page e, s.view crc id = some page → round id page = .error e → E id)
    (later : ∀ id next, nextPage crc round s id = some next → E next → E id) (n id : Nat) :
    Wp (loop n id) s (fun a t => SameView crc s t ∧ P id a) (fun e t => SameView crc s t ∧ (e ≠ .endless → E id)) := by
  have every {t : Dev C} (same : SameView crc s t) (n id : Nat) :
      Wp (loop n id) t (fun a u => SameView crc s u ∧ P id a)
        (fun e u => SameView crc s u ∧ (e ≠ .endless → E id)) := by
    induction n generalizing t id with
    | zero =>
        rw [h.spent, wp_throw]
        exact ⟨same, fun no => absurd rfl no⟩
    | succ n ih =>
        rw [h.step, wp_bind]
        refine (wp_getOrLoad_view same.coherent id).mono ?_ ?_
        · rintro page u ⟨view, reads⟩
          rw [same.view] at view
          have next : nextPage crc round s id = (round id page).next := by
            rw [nextPage, view, Option.bind_some]
          cases here : round id page with
          | error e => exact ⟨same.trans reads, fun _ => fail id page e view here⟩
          | ok result =>
              rw [here] at next
              cases result with
              | inl a => exact ⟨same.trans reads, stop id page a view here⟩
              | inr child =>
                  rw [PageRound.run, wp_map]
                  refine (ih (same.trans reads) child.1).mono ?_ ?_
                  · rintro a v ⟨reads', ha⟩
                    exact ⟨reads', go id page child.1 child.2 a view here ha⟩
                  · rintro e v ⟨reads', he⟩
                    exact ⟨reads', fun other => later id child.1 next (he other)⟩
        · rintro e u ⟨reads, view, -⟩
          rw [same.view] at view
          exact ⟨same.trans reads, fun _ => lost id view⟩
  exact every (.refl coherent) n id

theorem finishes_iff {x : Io C α} {s : Dev C} {within : Prop} (h : Wp x s (fun _ _ => within)
    (fun e _ => e = .endless ↔ ¬ within)) : Finishes x s ↔ within := by
  unfold Wp at h
  cases run : x s with
  | ok a t =>
      rw [run] at h
      exact ⟨fun _ => h, fun _ e t no => by rw [run] at no; cases no⟩
  | error e t =>
      rw [run] at h
      constructor
      · intro done
        by_contra outside
        exact done e t run (h.mpr outside)
      · intro inside e' t' same
        rw [run] at same
        cases same
        exact fun endless => h.mp endless inside

theorem Rounded.finishes {loop : Nat → Nat → Io C α} {round : Nat → Page → PageRound α} (h : Rounded crc loop round)
    {s : Dev C} (coherent : s.Coherent crc) (n id : Nat) :
    Finishes (loop n id) s ↔ Within (nextPage crc round s) n id :=
  finishes_iff ((h.wp coherent n id).mono (fun _ _ => And.right) fun _ _ => And.right)

theorem nextPage_inside {round : Nat → Page → PageRound α} {s : Dev C} {id later : Nat}
    (h : nextPage crc round s id = some later) : id ∈ Finset.range s.header.pageCount := by
  obtain ⟨page, view, -⟩ := Option.bind_eq_some_iff.mp h
  exact Finset.mem_range.mpr (lt_of_view view)

/-- With room for every page of the file, a walk without a cycle stops. -/
theorem within_bound {round : Nat → Page → PageRound α} {s : Dev C} {id bound : Nat}
    (room : s.header.pageCount < bound) :
    Within (nextPage crc round s) bound id ↔ ¬ Circular (nextPage crc round s) id := by
  obtain ⟨n, rfl⟩ := Nat.exists_eq_add_of_lt room
  refine ⟨Within.not_circular, fun free => ?_⟩
  refine @within_of_not_circular _ _ _ _ (Finset.range s.header.pageCount) ?_ _ ?_ free
  · rw [Finset.card_range]
    omega
  · intro b c _ step
    exact nextPage_inside step

/-- A loop ends, with some bound, exactly when its walk meets no cycle. -/
theorem Rounded.ends {loop : Nat → Nat → Io C α} {round : Nat → Page → PageRound α} (h : Rounded crc loop round)
    {s : Dev C} (coherent : s.Coherent crc) (id : Nat) :
    (∃ n, Finishes (loop n id) s) ↔ ¬ Circular (nextPage crc round s) id := by
  constructor
  · rintro ⟨n, done⟩
    exact ((h.finishes coherent n id).mp done).not_circular
  · intro free
    exact ⟨_, (h.finishes coherent _ id).mpr ((within_bound (Nat.lt_succ_self _)).mpr free)⟩

end Loops

/-! ## The traversals -/

section Traversals

variable {H C : Type} (crc : Crc H C)

/-- A page on the way of `find_leftmost_leaf`. -/
def leftmostRound (id : Nat) (page : Page) : Except ErrorCode (Nat ⊕ Nat × (Nat → Nat)) :=
  if page.type = PAGE_TYPE_LEAF then pure (.inl id)
  else if page.type = PAGE_TYPE_INTERNAL then do
    let keyCount ← readU16At page 2
    let child ← readU64At page (if keyCount = 0 then 4 else INTERNAL_HEADER_SIZE)
    pure (.inr (child, fun leaf => leaf))
  else throw .int049

theorem rounded_leftmostLeaf : Rounded crc (leftmostLeaf crc) leftmostRound := by
  refine ⟨fun _ => rfl, fun n id => ?_, fun id page => ?_⟩
  · rw [leftmostLeaf]
    refine bind_congr fun page => ?_
    unfold leftmostRound
    split
    · rfl
    split
    · rw [PageRound.run_bind]
      refine bind_congr fun keyCount => ?_
      rw [PageRound.run_bind]
      exact bind_congr fun child => (PageRound.run_same _ child).symm
    · rfl
  · unfold leftmostRound
    split
    · exact tame_ok _
    split
    · exact (tame_readU16At page 2).bind fun _ _ => (tame_readU64At page _).bind fun _ _ => tame_ok _
    · intro no
      cases no

variable {K : Type} (codec : IndexCodec K) [LinearOrder K]

/-- A page on the way of `find_leaf_for_key`. -/
def leafForRound (key : K) (id : Nat) (page : Page) : Except ErrorCode (Nat ⊕ Nat × (Nat → Nat)) :=
  if page.type = PAGE_TYPE_LEAF then pure (.inl id)
  else if page.type = PAGE_TYPE_INTERNAL then do
    let keyCount ← readU16At page 2
    let rightmost ← readU64At page 4
    let child ← childFor codec page key (INTERNAL_HEADER_SIZE + keyCount * 8) (List.range keyCount)
    pure (.inr (child.getD rightmost, fun leaf => leaf))
  else throw .int049

theorem tame_childFor (page : Page) (key : K) (slotDirStart : Nat) (slots : List Nat) :
    TameResult (childFor codec page key slotDirStart slots) := by
  induction slots with
  | nil => exact tame_ok none
  | cons i later ih =>
      refine (tame_readSlotBytes page _).bind fun bytes _ => (tame_decodeOr codec.key bytes).bind fun sep _ => ?_
      split
      · exact (tame_readU64At page _).bind fun _ _ => tame_ok _
      · exact ih

theorem rounded_leafForKey (key : K) : Rounded crc (leafForKey crc codec key) (leafForRound codec key) := by
  refine ⟨fun _ => rfl, fun n id => ?_, fun id page => ?_⟩
  · rw [leafForKey]
    refine bind_congr fun page => ?_
    unfold leafForRound
    split
    · rfl
    split
    · rw [PageRound.run_bind]
      refine bind_congr fun keyCount => ?_
      rw [PageRound.run_bind]
      refine bind_congr fun rightmost => ?_
      rw [PageRound.run_bind]
      exact bind_congr fun child => (PageRound.run_same _ (child.getD rightmost)).symm
    · rfl
  · unfold leafForRound
    split
    · exact tame_ok _
    split
    · exact (tame_readU16At page 2).bind fun _ _ => (tame_readU64At page 4).bind fun _ _ =>
        (tame_childFor codec page key _ _).bind fun _ _ => tame_ok _
    · intro no
      cases no

/-- A leaf on the way of `range_scan`. -/
def scanRound (start : K) (stop : Option K) (_ : Nat) (page : Page) :
    Except ErrorCode (List FactRef ⊕ Nat × (List FactRef → List FactRef)) :=
  if page.type ≠ PAGE_TYPE_LEAF then throw .stg013
  else do
    let nextLeaf ← readU64At page 4
    let entries ← readLeafEntries codec page
    let scanned := scanEntries start stop entries
    if scanned.2 then pure (.inl scanned.1)
    else if nextLeaf = 0 then pure (.inl scanned.1)
    else pure (.inr (nextLeaf, fun rest => scanned.1 ++ rest))

omit [LinearOrder K] in
theorem tame_readLeafEntries (page : Page) : TameResult (readLeafEntries codec page) :=
  (tame_readU16At page 2).bind fun _ _ => tame_mapM _ fun _ _ =>
    (tame_readSlotBytes page _).bind fun bytes _ => tame_decodeOr codec.entry bytes

theorem rounded_scanLeaves (start : K) (stop : Option K) :
    Rounded crc (scanLeaves crc codec start stop) (scanRound codec start stop) := by
  refine ⟨fun _ => rfl, fun n id => ?_, fun id page => ?_⟩
  · rw [scanLeaves]
    refine bind_congr fun page => ?_
    unfold scanRound
    split
    · rfl
    rw [PageRound.run_bind]
    refine bind_congr fun nextLeaf => ?_
    rw [PageRound.run_bind]
    refine bind_congr fun entries => ?_
    simp only
    split
    · rfl
    split
    · rfl
    · rfl
  · unfold scanRound
    split
    · intro no
      cases no
    refine (tame_readU64At page 4).bind fun _ _ => (tame_readLeafEntries codec page).bind fun _ _ => ?_
    simp only
    split
    · exact tame_ok _
    split
    · exact tame_ok _
    · exact tame_ok _

/-- There is a leaf page at this id. -/
def LeafAt (s : Dev C) (id : Nat) : Prop := ∃ page, s.view crc id = some page ∧ page.type = PAGE_TYPE_LEAF

variable {crc codec} in
theorem LeafAt.next {s : Dev C} {key : K} {id : Nat} (h : LeafAt crc s id) :
    nextPage crc (leafForRound codec key) s id = none := by
  obtain ⟨page, view, leaf⟩ := h
  rw [nextPage, view, Option.bind_some, leafForRound, if_pos leaf]
  rfl

variable {codec} in
theorem leafForRound_stop {key : K} {id leaf : Nat} {page : Page}
    (h : leafForRound codec key id page = .ok (.inl leaf)) : page.type = PAGE_TYPE_LEAF ∧ leaf = id := by
  unfold leafForRound at h
  split at h
  · rename_i type
    exact ⟨type, (Sum.inl.inj (Except.ok.inj h)).symm⟩
  split at h
  · simp only [bind, Except.bind] at h
    split at h
    · cases h
    split at h
    · cases h
    split at h
    · cases h
    · cases h
  · cases h

variable {codec} in
theorem leafForRound_go {key : K} {id later : Nat} {add : Nat → Nat} {page : Page}
    (h : leafForRound codec key id page = .ok (.inr (later, add))) (leaf : Nat) : add leaf = leaf := by
  unfold leafForRound at h
  split at h
  · cases h
  split at h
  · simp only [bind, Except.bind] at h
    split at h
    · cases h
    split at h
    · cases h
    split at h
    · cases h
    · cases h
      rfl
  · cases h

/-- Where a descent for a key comes to. -/
theorem wp_leafForKey_result {s : Dev C} (coherent : s.Coherent crc) (key : K) (n id : Nat) :
    Wp (leafForKey crc codec key n id) s
      (fun leaf t => SameView crc s t ∧ Reaches (nextPage crc (leafForRound codec key) s) id leaf ∧
        LeafAt crc s leaf)
      (fun e t => SameView crc s t ∧ (e ≠ .endless → ∃ last,
        Reaches (nextPage crc (leafForRound codec key) s) id last ∧
        nextPage crc (leafForRound codec key) s last = none ∧ ¬ LeafAt crc s last)) := by
  have next {id : Nat} {page : Page} (view : s.view crc id = some page) :
      nextPage crc (leafForRound codec key) s id = PageRound.next (leafForRound codec key id page) := by
    rw [nextPage, view, Option.bind_some]
  refine @Rounded.wp_result _ _ crc _ _ _ (rounded_leafForKey crc codec key) s coherent
    (fun id leaf => Reaches (nextPage crc (leafForRound codec key) s) id leaf ∧ LeafAt crc s leaf)
    (fun id => ∃ last, Reaches (nextPage crc (leafForRound codec key) s) id last ∧
      nextPage crc (leafForRound codec key) s last = none ∧ ¬ LeafAt crc s last) ?_ ?_ ?_ ?_ ?_ n id
  · intro id page leaf view here
    obtain ⟨type, rfl⟩ := leafForRound_stop here
    exact ⟨.refl, page, view, type⟩
  · rintro id page later add leaf view here ⟨reaches, stop⟩
    rw [leafForRound_go here leaf]
    refine ⟨.head ?_ reaches, stop⟩
    rw [Step, next view, here]
    rfl
  · intro id lost
    refine ⟨id, .refl, ?_, ?_⟩
    · rw [nextPage, lost, Option.bind_none]
    · rintro ⟨page, view, -⟩
      rw [lost] at view
      cases view
  · intro id page e view here
    refine ⟨id, .refl, ?_, ?_⟩
    · rw [next view, here]
      rfl
    · rintro ⟨page', view', leaf⟩
      rw [view, Option.some.injEq] at view'
      subst view'
      rw [leafForRound, if_pos leaf] at here
      cases here
  · rintro id later step ⟨last, reaches, stop, none_⟩
    exact ⟨last, .head step reaches, stop, none_⟩

/-- `range_scan` with one bound for both loops. -/
def rangeScanWithin (root : Nat) (start : K) (stop : Option K) (bound : Nat) : Io C (List FactRef) := do
  let leaf ← leafForKey crc codec start bound root
  scanLeaves crc codec start stop bound leaf

/-- Pages that are no leaf are not scanned. -/
theorem not_circular_scan {s : Dev C} {start : K} {stop : Option K} {id : Nat} (other : ¬ LeafAt crc s id) :
    ¬ Circular (nextPage crc (scanRound codec start stop) s) id := by
  have none_ : nextPage crc (scanRound codec start stop) s id = none := by
    rw [nextPage]
    cases view : s.view crc id with
    | none => rfl
    | some page =>
        rw [Option.bind_some, scanRound, if_pos fun leaf => other ⟨page, view, leaf⟩]
        rfl
  refine (?_ : Within _ 1 id).not_circular
  intro b step
  rw [none_] at step
  cases step

/-- The scan ends when both its loops do, whatever bound the second is given. -/
theorem finishes_scan {s : Dev C} (coherent : s.Coherent crc) (root : Nat) (start : K) (stop : Option K)
    (bound : Nat) {pick : Io C Nat} {ends : Nat → Prop}
    (picks : ∀ t, SameView crc s t → ∃ n, pick t = .ok n t ∧
      ∀ id, Within (nextPage crc (scanRound codec start stop) s) n id ↔ ends id) :
    Finishes (do
        let leaf ← leafForKey crc codec start bound root
        let n ← pick
        scanLeaves crc codec start stop n leaf) s ↔
      Within (nextPage crc (leafForRound codec start) s) bound root ∧
      ∀ id, Reaches (nextPage crc (leafForRound codec start) s) root id → LeafAt crc s id → ends id := by
  refine finishes_iff ?_
  rw [wp_bind]
  refine (((rounded_leafForKey crc codec start).wp coherent bound root).and
    (wp_leafForKey_result crc codec coherent start bound root)).mono ?_ ?_
  · rintro leaf t ⟨⟨same, within⟩, -, reaches, isLeaf⟩
    have only : (Within (nextPage crc (leafForRound codec start) s) bound root ∧
        ∀ id, Reaches (nextPage crc (leafForRound codec start) s) root id → LeafAt crc s id → ends id) ↔
        ends leaf := by
      refine ⟨fun all => all.2 leaf reaches isLeaf, fun here => ⟨within, fun id there leaf' => ?_⟩⟩
      rwa [there.end_unique leaf'.next reaches isLeaf.next]
    obtain ⟨n, picked, enough⟩ := picks t same
    have scan := (rounded_scanLeaves crc codec start stop).wp same.coherent n leaf
    rw [nextPage_same same, enough leaf] at scan
    rw [only, wp_bind, Wp, picked]
    exact scan.mono (fun _ _ => And.right) fun _ _ => And.right
  · rintro e t ⟨⟨same, endless⟩, -, cut⟩
    constructor
    · intro spent all
      exact endless.mp spent all.1
    · intro outside
      by_contra other
      obtain ⟨last, reaches, stops, none_⟩ := cut other
      refine outside ⟨by_contra fun no => other (endless.mpr no), fun id there leaf => absurd leaf ?_⟩
      rwa [there.end_unique leaf.next reaches stops]

/-- No cycle on the way down to a leaf, nor along the leaves from there. -/
def ScanFree (root : Nat) (start : K) (stop : Option K) (s : Dev C) : Prop :=
  ¬ Circular (nextPage crc (leafForRound codec start) s) root ∧
  ∀ id, Reaches (nextPage crc (leafForRound codec start) s) root id →
    ¬ Circular (nextPage crc (scanRound codec start stop) s) id

variable {crc codec} in
theorem scanFree_iff {s : Dev C} {root : Nat} {start : K} {stop : Option K} :
    ScanFree crc codec root start stop s ↔ ¬ Circular (nextPage crc (leafForRound codec start) s) root ∧
      ∀ id, Reaches (nextPage crc (leafForRound codec start) s) root id → LeafAt crc s id →
        ¬ Circular (nextPage crc (scanRound codec start stop) s) id := by
  refine and_congr_right fun _ => ⟨fun all id there _ => all id there, fun all id there => ?_⟩
  by_cases leaf : LeafAt crc s id
  · exact all id there leaf
  · exact not_circular_scan crc codec leaf

theorem ends_rangeScanWithin {s : Dev C} (coherent : s.Coherent crc) (root : Nat) (start : K)
    (stop : Option K) :
    (∃ n, Finishes (rangeScanWithin crc codec root start stop n) s) ↔ ScanFree crc codec root start stop s := by
  have within (n : Nat) := @finishes_scan _ _ crc _ codec _ s coherent root start stop n (pure n) _
    fun t _ => ⟨n, rfl, fun id => Iff.rfl⟩
  rw [scanFree_iff]
  constructor
  · rintro ⟨n, done⟩
    obtain ⟨down, along⟩ := (within n).mp done
    exact ⟨down.not_circular, fun id there leaf => (along id there leaf).not_circular⟩
  · rintro ⟨down, along⟩
    refine ⟨_, (within (s.header.pageCount + 1)).mpr ⟨(within_bound (Nat.lt_succ_self _)).mpr down, ?_⟩⟩
    exact fun id there leaf => (within_bound (Nat.lt_succ_self _)).mpr (along id there leaf)

/-- The bound of the model is one the loops use up only when they never end. -/
theorem finishes_rangeScan {s : Dev C} (coherent : s.Coherent crc) (root : Nat) (start : K)
    (stop : Option K) :
    Finishes (rangeScan crc codec root start stop) s ↔ ScanFree crc codec root start stop s := by
  have scan := @finishes_scan _ _ crc _ codec _ s coherent root start stop
    (s.header.pageCount + s.cache.entries.length + 1) walkBound _ fun t same =>
      ⟨_, rfl, fun id => within_bound (by rw [← same.pageCount]; omega)⟩
  rw [within_bound (by omega)] at scan
  rw [scanFree_iff]
  exact scan

theorem finishes_findLeftmostLeaf {s : Dev C} (coherent : s.Coherent crc) (root : Nat) :
    Finishes (findLeftmostLeaf crc root) s ↔ ¬ Circular (nextPage crc leftmostRound s) root := by
  have walk := (rounded_leftmostLeaf crc).finishes coherent (s.header.pageCount + s.cache.entries.length + 1) root
  rw [within_bound (by omega)] at walk
  exact walk

/-- The walk along the leaves has a bound of its own. -/
theorem wp_collectLeaves_ends {s : Dev C} (coherent : s.Coherent crc) (room id : Nat) :
    Wp (collectLeaves crc room id) s (fun _ _ => True) (fun e _ => e ≠ .endless) := by
  induction room generalizing s id with
  | zero =>
      rw [collectLeaves, wp_bind]
      refine (wp_getOrLoad_view coherent id).mono (fun _ _ _ => ?_) fun _ _ lost => lost.2.2
      rw [wp_throw]
      decide
  | succ room ih =>
      rw [collectLeaves, wp_bind]
      refine (wp_getOrLoad_view coherent id).mono ?_ fun _ _ lost => lost.2.2
      rintro page t ⟨-, same⟩
      refine wp_ite (fun _ => by rw [wp_throw]; decide) fun _ => ?_
      rw [wp_bind]
      refine wp_ofResult (fun _ _ => ?_) fun e he => fun no => tame_validateLeafSlots page (he.trans (by rw [no]))
      rw [wp_bind]
      refine wp_ofResult (fun nextLeaf _ => ?_) fun e he => fun no => tame_readU64At page 4 (he.trans (by rw [no]))
      refine wp_ite (fun _ => trivial) fun _ => ?_
      rw [wp_bind]
      exact (ih same.coherent nextLeaf).mono (fun _ _ _ => trivial) fun _ _ other => other

theorem finishes_collectLeafPages {s : Dev C} (coherent : s.Coherent crc) (root : Nat) :
    Finishes (collectLeafPages crc root) s ↔ ¬ Circular (nextPage crc leftmostRound s) root := by
  rw [← finishes_findLeftmostLeaf crc coherent]
  have walk := (rounded_leftmostLeaf crc).wp coherent (s.header.pageCount + s.cache.entries.length + 1) root
  have down := (rounded_leftmostLeaf crc).finishes coherent (s.header.pageCount + s.cache.entries.length + 1) root
  refine (finishes_iff ?_).trans down.symm
  simp only [collectLeafPages, findLeftmostLeaf, walkBound, wp_bind, wp_get, wp_pure]
  refine walk.mono ?_ fun _ _ => And.right
  rintro leaf t ⟨same, within⟩
  refine (wp_collectLeaves_ends crc same.coherent _ leaf).mono (fun _ _ _ => within) fun e _ other => ?_
  exact ⟨fun no => absurd no other, fun no => absurd within no⟩

/-- Each traversal ends exactly when the page ids it follows lead back to no page. -/
theorem traversals_end {s : Dev C} (coherent : s.Coherent crc) (root : Nat) (key : K) (stop : Option K) :
    ((∃ n, Finishes (leftmostLeaf crc n root) s) ↔ ¬ Circular (nextPage crc leftmostRound s) root) ∧
    (Finishes (findLeftmostLeaf crc root) s ↔ ¬ Circular (nextPage crc leftmostRound s) root) ∧
    (Finishes (collectLeafPages crc root) s ↔ ¬ Circular (nextPage crc leftmostRound s) root) ∧
    ((∃ n, Finishes (leafForKey crc codec key n root) s) ↔
      ¬ Circular (nextPage crc (leafForRound codec key) s) root) ∧
    ((∃ n, Finishes (rangeScanWithin crc codec root key stop n) s) ↔ ScanFree crc codec root key stop s) ∧
    (Finishes (rangeScan crc codec root key stop) s ↔ ScanFree crc codec root key stop s) :=
  ⟨(rounded_leftmostLeaf crc).ends coherent root, finishes_findLeftmostLeaf crc coherent root,
    finishes_collectLeafPages crc coherent root, (rounded_leafForKey crc codec key).ends coherent root,
    ends_rangeScanWithin crc codec coherent root key stop, finishes_rangeScan crc codec coherent root key stop⟩

end Traversals

/-! ## Two images -/

section Examples

/-- A file with these data pages. -/
def imageOf (count : Nat) (page : Nat → Page) : Dev (List UInt8) :=
  { Dev.create Crc.lossless 64 none with
    disk := ⟨{ FileHeader.new Crc.lossless with pageCount := count }, count, page⟩
    header := { FileHeader.new Crc.lossless with pageCount := count } }

theorem coherent_imageOf (count : Nat) (page : Nat → Page) : (imageOf count page).Coherent Crc.lossless := by
  intro e he
  cases he

theorem view_imageOf {count id : Nat} (page : Nat → Page) (data : id ≠ 0) (inside : id < count)
    (near : id * PAGE_SIZE < 2 ^ 64) : (imageOf count page).view Crc.lossless id = some (page id) := by
  rw [Dev.view, if_neg, if_neg data]
  · rfl
  · show ¬ (count ≤ id ∨ _ ∨ count ≤ id)
    omega

theorem readU_nodeHeader (pageType : UInt8) {link : Nat} (small : link < 256 ^ 8) :
    readU16At (nodeHeader pageType 0 link) 2 = .ok 0 ∧ readU64At (nodeHeader pageType 0 link) 4 = .ok link := by
  obtain ⟨-, count, next⟩ := nodeHeader_fields pageType (by decide : 0 < 256 ^ 2) small
  rw [readU16At, count, readU64At, next]
  exact ⟨rfl, rfl⟩

section Nodes

variable {K : Type} [LinearOrder K] (codec : IndexCodec K) (start : K) (stop : Option K) (id : Nat)

/-- A leaf without entries leads the scan to its successor. -/
theorem scanRound_empty {link : Nat} (small : link < 256 ^ 8) :
    PageRound.next (scanRound codec start stop id (nodeHeader PAGE_TYPE_LEAF 0 link)) =
      if link = 0 then none else some link := by
  obtain ⟨count, next⟩ := readU_nodeHeader PAGE_TYPE_LEAF small
  have entries : readLeafEntries codec (nodeHeader PAGE_TYPE_LEAF 0 link) = .ok [] := by
    simp only [readLeafEntries, count, bind, Except.bind]
    rfl
  have open_ : ¬ (scanEntries start stop ([] : List (K × FactRef))).2 = true := Bool.false_ne_true
  simp only [scanRound, next, entries, bind, Except.bind]
  rw [if_neg (fun no => no rfl), if_neg open_]
  by_cases last : link = 0
  · rw [if_pos last, if_pos last]
    rfl
  · rw [if_neg last, if_neg last]
    rfl

/-- An internal page without separators leads both descents to its only child. -/
theorem rounds_internal {link : Nat} (small : link < 256 ^ 8) :
    PageRound.next (leftmostRound id (nodeHeader PAGE_TYPE_INTERNAL 0 link)) = some link ∧
      PageRound.next (leafForRound codec start id (nodeHeader PAGE_TYPE_INTERNAL 0 link)) = some link := by
  obtain ⟨count, next⟩ := readU_nodeHeader PAGE_TYPE_INTERNAL small
  have type : ¬ (nodeHeader PAGE_TYPE_INTERNAL 0 link).type = PAGE_TYPE_LEAF :=
    (by decide : ¬ PAGE_TYPE_INTERNAL = PAGE_TYPE_LEAF)
  have type' : (nodeHeader PAGE_TYPE_INTERNAL 0 link).type = PAGE_TYPE_INTERNAL := rfl
  constructor
  · rw [leftmostRound, if_neg type, if_pos type', count]
    simp only [bind, Except.bind, if_true, next]
    rfl
  · rw [leafForRound, if_neg type, if_pos type', count]
    simp only [bind, Except.bind, next]
    rfl

end Nodes

/-- Page 1 is an internal page over the leaves 2 and 3. -/
def twoLeaves (id : Nat) : Page :=
  if id = 1 then nodeHeader PAGE_TYPE_INTERNAL 0 2
  else nodeHeader PAGE_TYPE_LEAF 0 (if id = 2 then 3 else 0)

theorem nextPage_twoLeaves {α : Type} (round : Nat → Page → PageRound α) {id : Nat} (data : id ≠ 0)
    (inside : id < 4) :
    nextPage Crc.lossless round (imageOf 4 twoLeaves) id = (round id (twoLeaves id)).next := by
  rw [nextPage, view_imageOf twoLeaves data inside (by rw [PAGE_SIZE]; omega), Option.bind_some]

/-- A walk that comes from one place to another and ends there is not circular. -/
theorem not_circular_of_last {next : Nat → Option Nat} {a b : Nat} (step : next a = some b)
    (last : next b = none) : ¬ Circular next a := by
  refine (?_ : Within next 2 a).not_circular
  intro c there d beyond
  obtain rfl : b = c := Option.some.inj (step.symm.trans there)
  rw [last] at beyond
  cases beyond

/-- Two leaves under an internal page. -/
theorem traversals_end_two : Finishes (findLeftmostLeaf Crc.lossless 1) (imageOf 4 twoLeaves) ∧
    Finishes (collectLeafPages Crc.lossless 1) (imageOf 4 twoLeaves) ∧
    Finishes (rangeScan Crc.lossless Postcard.standard.eavt 1 (EavtKey.first 0 "") none)
      (imageOf 4 twoLeaves) := by
  have ends := traversals_end Crc.lossless Postcard.standard.eavt (coherent_imageOf 4 twoLeaves) 1
    (EavtKey.first 0 "") none
  obtain ⟨left, child⟩ := rounds_internal Postcard.standard.eavt (EavtKey.first 0 "") 1 (by decide : 2 < 256 ^ 8)
  have step {α : Type} (round : Nat → Page → PageRound α) := @nextPage_twoLeaves α round
  have down : nextPage Crc.lossless (leafForRound Postcard.standard.eavt (EavtKey.first 0 ""))
      (imageOf 4 twoLeaves) 1 = some 2 := (step _ (by decide) (by decide)).trans child
  have leaf : nextPage Crc.lossless (leafForRound Postcard.standard.eavt (EavtKey.first 0 ""))
      (imageOf 4 twoLeaves) 2 = none := step _ (by decide) (by decide)
  have leftmost : ¬ Circular (nextPage Crc.lossless leftmostRound (imageOf 4 twoLeaves)) 1 :=
    not_circular_of_last ((step _ (by decide) (by decide)).trans left) (step _ (by decide) (by decide))
  refine ⟨ends.2.1.mpr leftmost, ends.2.2.1.mpr leftmost,
    ends.2.2.2.2.2.mpr ⟨not_circular_of_last down leaf, fun id there => ?_⟩⟩
  obtain rfl | ⟨b, first, rest⟩ := Relation.ReflTransGen.cases_head there
  · -- Page 1 is no leaf: the scan stops there.
    refine (?_ : Within _ 1 1).not_circular
    intro b onward
    rw [step _ (by decide) (by decide)] at onward
    cases onward
  · obtain rfl : 2 = b := Option.some.inj (down.symm.trans first)
    obtain rfl | ⟨c, second, -⟩ := Relation.ReflTransGen.cases_head rest
    · refine not_circular_of_last (b := 3) ?_ ?_
      · rw [step _ (by decide) (by decide)]
        exact scanRound_empty Postcard.standard.eavt _ none 2 (by decide : 3 < 256 ^ 8)
      · rw [step _ (by decide) (by decide)]
        exact scanRound_empty Postcard.standard.eavt _ none 3 (by decide : 0 < 256 ^ 8)
    · rw [Step, leaf] at second
      cases second

/-- An internal page that is its own child, and a leaf that is its own successor: no bound is
enough for any of the traversals. -/
theorem traversals_endless : ∃ s : Dev (List UInt8), s.Coherent Crc.lossless ∧
    (∀ n, ¬ Finishes (leftmostLeaf Crc.lossless n 1) s) ∧ ¬ Finishes (collectLeafPages Crc.lossless 1) s ∧
    (∀ n, ¬ Finishes (leafForKey Crc.lossless Postcard.standard.eavt (EavtKey.first 0 "") n 1) s) ∧
    ∀ n, ¬ Finishes (rangeScanWithin Crc.lossless Postcard.standard.eavt 2 (EavtKey.first 0 "") none n) s := by
  let page (id : Nat) : Page :=
    if id = 1 then nodeHeader PAGE_TYPE_INTERNAL 0 1 else nodeHeader PAGE_TYPE_LEAF 0 2
  have coherent := coherent_imageOf 3 page
  have internal := view_imageOf page (by decide : 1 ≠ 0) (by decide : 1 < 3) (by decide)
  have leaf := view_imageOf page (by decide : 2 ≠ 0) (by decide : 2 < 3) (by decide)
  have cycle {α : Type} {round : Nat → Page → PageRound α} {id : Nat} {p : Page}
      (view : (imageOf 3 page).view Crc.lossless id = some p) (back : (round id p).next = some id) :
      Circular (nextPage Crc.lossless round (imageOf 3 page)) id := by
    refine ⟨id, .refl, .single ?_⟩
    rw [Step, nextPage, view, Option.bind_some, back]
  obtain ⟨left, child⟩ := rounds_internal Postcard.standard.eavt (EavtKey.first 0 "") 1 (by decide : 1 < 256 ^ 8)
  have along := scanRound_empty Postcard.standard.eavt (EavtKey.first 0 "") none 2 (by decide : 2 < 256 ^ 8)
  refine ⟨imageOf 3 page, coherent, fun n done => ?_, fun done => ?_, fun n done => ?_, fun n done => ?_⟩
  · exact ((rounded_leftmostLeaf Crc.lossless).ends coherent 1).mp ⟨n, done⟩ (cycle internal left)
  · exact (finishes_collectLeafPages Crc.lossless coherent 1).mp done (cycle internal left)
  · exact ((rounded_leafForKey Crc.lossless Postcard.standard.eavt _).ends coherent 1).mp ⟨n, done⟩
      (cycle internal child)
  · exact ((ends_rangeScanWithin Crc.lossless Postcard.standard.eavt coherent 2 _ none).mp ⟨n, done⟩).2 2 .refl
      (cycle leaf along)

end Examples

end Minigraf
