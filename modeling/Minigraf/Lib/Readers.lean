import Mathlib.Data.List.Basic

/-!
Readers: what takes the head of a list, and of the rest as much as it needs, and hands over
what it read and what is left. A reader is gone over a list again and again, up to an
element that closes it or to its end.
-/

namespace Minigraf

section

variable {ε α β : Type}

structure Reader (ε α β : Type) where
  read : α → List α → Except ε (β × List α)
  leaves : ∀ {a : α} {rest : List α} {b : β} {left : List α}, read a rest = .ok (b, left) → left <:+ rest

namespace Reader

/-- What is read up to the element that closes it; `atEnd` is the error of a list that ends
before, if that is one. -/
def loop (reader : Reader ε α β) (close : α → Bool) (atEnd : Option ε) : List α → Except ε (List β × List α)
  | [] =>
      match atEnd with
      | none => .ok ([], [])
      | some e => .error e
  | a :: rest =>
      if close a then .ok ([], rest)
      else
        match _run : reader.read a rest with
        | .error e => .error e
        | .ok (b, left) =>
            match loop reader close atEnd left with
            | .error e => .error e
            | .ok (bs, left) => .ok (b :: bs, left)
termination_by input => input.length
decreasing_by exact Nat.lt_succ_of_le (reader.leaves _run).length_le

/-- A loop that ended well. -/
inductive Loop (reader : Reader ε α β) (close : α → Bool) (atEnd : Option ε) : List α → List β → List α → Prop
  | nil : atEnd = none → Loop reader close atEnd [] [] []
  | close {a : α} {rest : List α} : close a = true → Loop reader close atEnd (a :: rest) [] rest
  | cons {a : α} {rest left left' : List α} {b : β} {bs : List β} : close a = false → reader.read a rest = .ok (b, left) →
      Loop reader close atEnd left bs left' → Loop reader close atEnd (a :: rest) (b :: bs) left'

variable {reader : Reader ε α β} {close : α → Bool} {atEnd : Option ε}

theorem loop_nil : reader.loop close atEnd [] =
    match atEnd with
    | none => .ok ([], [])
    | some e => .error e := by
  rw [loop.eq_def]

theorem loop_cons {a : α} {rest left : List α} {b : β} (opens : close a = false) (run : reader.read a rest = .ok (b, left)) :
    reader.loop close atEnd (a :: rest) =
      match reader.loop close atEnd left with
      | .error e => .error e
      | .ok (bs, left) => .ok (b :: bs, left) := by
  rw [loop, opens, if_neg Bool.false_ne_true]
  split
  · next e failed =>
      rw [run] at failed
      cases failed
  · next b' left' run' =>
      rw [run] at run'
      cases run'
      rfl

theorem loop_error {a : α} {rest : List α} {e : ε} (opens : close a = false) (failed : reader.read a rest = .error e) :
    reader.loop close atEnd (a :: rest) = .error e := by
  rw [loop, opens, if_neg Bool.false_ne_true]
  split
  · next e' failed' =>
      rw [failed] at failed'
      cases failed'
      rfl
  · next b left run =>
      rw [failed] at run
      cases run

theorem Loop.run {input left : List α} {bs : List β} (ran : Loop reader close atEnd input bs left) :
    reader.loop close atEnd input = .ok (bs, left) := by
  induction ran with
  | nil open_ => rw [loop_nil, open_]
  | close closes => rw [loop, closes, if_pos rfl]
  | cons opens run _ ih => rw [loop_cons opens run, ih]

theorem loop_ok {input left : List α} {bs : List β} (run : reader.loop close atEnd input = .ok (bs, left)) :
    Loop reader close atEnd input bs left := by
  induction len : input.length using Nat.strongRecOn generalizing input bs with
  | ind n ih =>
      cases input with
      | nil =>
          rw [loop_nil] at run
          cases open_ : atEnd with
          | some e =>
              rw [open_] at run
              cases run
          | none =>
              rw [open_] at run
              cases run
              exact .nil rfl
      | cons a rest =>
          cases closes : close a with
          | true =>
              rw [loop, closes, if_pos rfl] at run
              cases run
              exact .close closes
          | false =>
              cases first : reader.read a rest with
              | error e =>
                  rw [loop_error closes first] at run
                  cases run
              | ok result =>
                  obtain ⟨b, mid⟩ := result
                  rw [loop_cons closes first] at run
                  cases later : reader.loop close atEnd mid with
                  | error e =>
                      rw [later] at run
                      cases run
                  | ok result =>
                      obtain ⟨bs', left'⟩ := result
                      rw [later] at run
                      cases run
                      refine .cons closes first (ih mid.length ?_ later rfl)
                      rw [← len]
                      exact Nat.lt_succ_of_le (reader.leaves first).length_le

theorem Loop.leaves {input left : List α} {bs : List β} (ran : Loop reader close atEnd input bs left) : left <:+ input := by
  induction ran with
  | nil _ => exact List.suffix_refl _
  | close _ => exact List.suffix_cons _ _
  | cons _ run _ ih => exact (ih.trans (reader.leaves run)).trans (List.suffix_cons _ _)

theorem Loop.all {input left : List α} {bs : List β} (ran : Loop reader (fun _ => false) none input bs left) : left = [] := by
  generalize never : (fun _ : α => false) = close at ran
  induction ran with
  | nil _ => rfl
  | close closes =>
      rw [← never] at closes
      cases closes
  | cons _ _ _ ih => exact ih

/-- What a loop leaves stands behind the element that closed it. -/
theorem Loop.closed {input left : List α} {bs : List β} {e : ε} (ran : Loop reader close (some e) input bs left) :
    ∃ front a, input = front ++ a :: left ∧ close a = true := by
  induction ran with
  | nil open_ => cases open_
  | @close a rest closes => exact ⟨[], a, rfl, closes⟩
  | @cons a rest _ _ _ _ _ run _ ih =>
      obtain ⟨front, last, split, closes⟩ := ih
      obtain ⟨taken, whole⟩ := reader.leaves run
      refine ⟨a :: (taken ++ front), last, ?_, closes⟩
      rw [← whole, split, List.cons_append, List.append_assoc]

/-- A loop goes on as before when more stands behind its input, if every reading does. -/
theorem Loop.append {input left : List α} {bs : List β} (ran : Loop reader close (some e) input bs left) (more : List α)
    (goes : ∀ {a : α} {rest left : List α} {b : β}, reader.read a rest = .ok (b, left) →
      reader.read a (rest ++ more) = .ok (b, left ++ more)) :
    Loop reader close (some e) (input ++ more) bs (left ++ more) := by
  induction ran with
  | nil open_ => cases open_
  | close closes => exact .close closes
  | cons opens run _ ih => exact .cons opens (goes run) ih

end Reader
end
end Minigraf
