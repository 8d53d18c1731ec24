import Mathlib.Data.List.AList
import Mathlib.Data.List.TakeWhile
import Minigraf.Storage.Index

/-!
Transaction time and valid time: `filter_facts_as_of` and `net_asserted_facts` of
`src/graph/storage.rs`, and `filter_facts_for_query` of the executor over a fact
list that is already fetched.

A query sees the store through three steps: the as-of cut, the net-asserted view
and the valid-time filter. The cut comes first, so what a query sees at an
earlier point is a function of the transactions up to that point alone.
-/

namespace Minigraf

inductive AsOf where
  | counter (n : UInt64)
  | timestamp (t : Int64)
  | slot (name : String)

inductive ValidAt where
  | timestamp (t : Int64)
  | anyValidTime
  | slot (name : String)

/-- `u64::try_from(t).unwrap_or(0)`: a time before the epoch reads as the epoch. -/
def timestampBound (t : Int64) : UInt64 := UInt64.ofNat t.toInt.toNat

def AsOf.admits (asOf : AsOf) (f : Fact) : Bool :=
  match asOf with
  | .counter n => decide (f.txCount ≤ n)
  | .timestamp t => decide (f.txId ≤ timestampBound t)
  | .slot _ => false

def filterFactsAsOf (facts : List Fact) (asOf : AsOf) : List Fact :=
  facts.filter asOf.admits

abbrev EavKey := EntityId × String × List UInt8

abbrev WindowKey := EntityId × String × List UInt8 × Int64 × Int64

/-- The two group maps `net_asserted_facts` fills: the greatest retraction of each
triple, and the winning assertion (index and `tx_count`) of each window. -/
structure NetGroups where
  maxRetractTx : AList (fun _ : EavKey => UInt64)
  byWindow : AList (fun _ : WindowKey => Nat × UInt64)

def NetGroups.add (g : NetGroups) (item : (Fact × List UInt8) × Nat) : NetGroups :=
  let ((fact, value), idx) := item
  if fact.asserted then
    let key := (fact.entity, fact.attr, value, fact.validFrom, fact.validTo)
    match g.byWindow.lookup key with
    | some winner =>
        if fact.txCount > winner.2 then
          { g with byWindow := g.byWindow.insert key (idx, fact.txCount) }
        else g
    | none => { g with byWindow := g.byWindow.insert key (idx, fact.txCount) }
  else
    let key := (fact.entity, fact.attr, value)
    match g.maxRetractTx.lookup key with
    | some maxTx => { g with maxRetractTx := g.maxRetractTx.insert key (max maxTx fact.txCount) }
    | none => { g with maxRetractTx := g.maxRetractTx.insert key fact.txCount }

/-- Mark the winner of one window, unless a retraction of its triple is as new. -/
def NetGroups.mark (g : NetGroups) (keep : List Bool)
    (entry : (_ : WindowKey) × Nat × UInt64) : List Bool :=
  let ⟨(entity, attr, value, _, _), (idx, txCount)⟩ := entry
  let retractTx := (g.maxRetractTx.lookup (entity, attr, value)).getD 0
  if txCount > retractTx then keep.set idx true else keep

def netAssertedFacts (facts : List Fact) : List Fact :=
  let encoded := facts.map fun f => encodeValue f.value
  let groups := (facts.zip encoded).zipIdx.foldl NetGroups.add ⟨∅, ∅⟩
  let keep := groups.byWindow.entries.foldl groups.mark (List.replicate facts.length false)
  (facts.zip keep).filterMap fun p => if p.2 then some p.1 else none

/-- `filter_facts_for_query` once the source facts are at hand; `none` is the error
of an unbound slot in `:valid-at`. -/
def filterFactsForQuery (facts : List Fact) (asOf : Option AsOf) (validAt : Option ValidAt)
    (now : Int64) : Option (List Fact) :=
  let txFiltered := match asOf with
    | some asOf => filterFactsAsOf facts asOf
    | none => facts
  let asserted := netAssertedFacts txFiltered
  match validAt with
  | some (.timestamp t) => some (asserted.filter fun f => f.validFrom ≤ t ∧ t < f.validTo)
  | some .anyValidTime => some asserted
  | some (.slot _) => none
  | none => some (asserted.filter fun f => f.validFrom ≤ now ∧ now < f.validTo)

/-- One transaction: its facts, all stamped with its counter and its timestamp. -/
structure Transaction where
  txCount : UInt64
  txId : TxId
  facts : List Fact
  stamped : ∀ f ∈ facts, f.txCount = txCount ∧ f.txId = txId

/-- A history in commit order, the counters strictly increasing. -/
structure History where
  transactions : List Transaction
  increasing : transactions.Pairwise fun a b => a.txCount < b.txCount

namespace History

def facts (h : History) : List Fact := h.transactions.flatMap (·.facts)

/-- The timestamps never run backwards against the counters. -/
def ClockMonotone (h : History) : Prop :=
  h.transactions.Pairwise fun a b => a.txId ≤ b.txId

/-- The transactions before the first one that fails `p`. -/
def truncate (h : History) (p : Transaction → Bool) : History where
  transactions := h.transactions.takeWhile p
  increasing := h.increasing.sublist (List.takeWhile_sublist p)

/-- The history up to and including the transaction counted `n`. -/
def upToCount (h : History) (n : UInt64) : History := h.truncate fun tx => tx.txCount ≤ n

/-- The history up to time `t`. -/
def upToTime (h : History) (t : Int64) : History :=
  h.truncate fun tx => tx.txId ≤ timestampBound t

/-- A cut that every transaction passes or fails as a whole, and that no
transaction passes after one that failed, keeps exactly a prefix of the facts. -/
theorem filter_facts_eq_truncate (h : History) (p : Transaction → Bool) (q : Fact → Bool)
    (whole : ∀ tx ∈ h.transactions, ∀ f ∈ tx.facts, q f = p tx)
    (closed : h.transactions.Pairwise fun a b => p b = true → p a = true) :
    h.facts.filter q = (h.truncate p).facts := by
  obtain ⟨txs, _⟩ := h
  simp only [facts, truncate]
  induction txs with
  | nil => rfl
  | cons tx rest ih =>
      have restClosed := (List.pairwise_cons.mp closed).2
      have headClosed := (List.pairwise_cons.mp closed).1
      have restWhole : ∀ tx ∈ rest, ∀ f ∈ tx.facts, q f = p tx :=
        fun tx htx => whole tx (List.mem_cons_of_mem _ htx)
      have restIncreasing : rest.Pairwise fun a b => a.txCount < b.txCount :=
        (List.pairwise_cons.mp (by assumption)).2
      rw [List.flatMap_cons, List.filter_append]
      cases hp : p tx with
      | true =>
          rw [List.takeWhile_cons_of_pos hp, List.flatMap_cons,
            ih restIncreasing restWhole restClosed]
          congr 1
          rw [List.filter_eq_self]
          intro f hf
          rw [whole tx List.mem_cons_self f hf, hp]
      | false =>
          rw [List.takeWhile_cons_of_neg (by simp [hp])]
          -- Nothing after the first transaction that fails the cut can pass it.
          have dropped : ∀ later ∈ rest, p later = false := by
            intro later hl
            cases hq : p later with
            | false => rfl
            | true => exact absurd (headClosed later hl hq) (by simp [hp])
          simp only [List.flatMap_nil, List.append_eq_nil_iff, List.filter_eq_nil_iff]
          constructor
          · intro f hf
            rw [whole tx List.mem_cons_self f hf, hp]; simp
          · intro f hf
            obtain ⟨later, hl, hfl⟩ := List.mem_flatMap.mp hf
            rw [restWhole later hl f hfl, dropped later hl]; simp

theorem filterFactsAsOf_counter (h : History) (n : UInt64) :
    filterFactsAsOf h.facts (.counter n) = (h.upToCount n).facts := by
  apply filter_facts_eq_truncate
  · intro tx _ f hf
    simp only [AsOf.admits, (tx.stamped f hf).1]
  · refine h.increasing.imp ?_
    intro a b hab hb
    simp only [decide_eq_true_eq] at hb ⊢
    exact le_trans hab.le hb

theorem filterFactsAsOf_timestamp (h : History) (clock : h.ClockMonotone) (t : Int64) :
    filterFactsAsOf h.facts (.timestamp t) = (h.upToTime t).facts := by
  apply filter_facts_eq_truncate
  · intro tx _ f hf
    simp only [AsOf.admits, (tx.stamped f hf).2]
  · refine clock.imp ?_
    intro a b hab hb
    simp only [decide_eq_true_eq] at hb ⊢
    exact le_trans hab hb

/-- Time travel reads the truncated history, whatever was committed afterwards. -/
theorem filterFactsForQuery_asOf (h : History) (validAt : Option ValidAt) (now : Int64) :
    (∀ n, filterFactsForQuery h.facts (some (.counter n)) validAt now =
      filterFactsForQuery (h.upToCount n).facts none validAt now) ∧
    (h.ClockMonotone → ∀ t, filterFactsForQuery h.facts (some (.timestamp t)) validAt now =
      filterFactsForQuery (h.upToTime t).facts none validAt now) := by
  constructor
  · intro n
    simp only [filterFactsForQuery, filterFactsAsOf_counter]
  · intro clock t
    simp only [filterFactsForQuery, filterFactsAsOf_timestamp h clock]

/-- One fact asserted at time 10 and retracted at time 20. -/
def assertThenRetract : History where
  transactions :=
    [⟨1, 10, [⟨7, ":name", .integer 1, 10, 1, 10, VALID_TIME_FOREVER, true⟩], by decide⟩,
      ⟨2, 20, [⟨7, ":name", .integer 1, 20, 2, 20, VALID_TIME_FOREVER, false⟩], by decide⟩]
  increasing := by decide

theorem filterFactsForQuery_asOf_before_retraction :
    assertThenRetract.ClockMonotone ∧
      filterFactsForQuery assertThenRetract.facts (some (.timestamp 15)) none 12 =
        filterFactsForQuery (assertThenRetract.upToTime 15).facts none none 12 := by
  have clock : assertThenRetract.ClockMonotone := by
    unfold ClockMonotone assertThenRetract
    decide
  exact ⟨clock, (filterFactsForQuery_asOf assertThenRetract none 12).2 clock 15⟩

example : (filterFactsForQuery assertThenRetract.facts (some (.timestamp 15)) none 12).map
    List.length = some 1 := by decide

example : filterFactsForQuery assertThenRetract.facts none none 25 = some [] := by decide

end History
end Minigraf
