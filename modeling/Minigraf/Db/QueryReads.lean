import Minigraf.Db.WriteTransaction
import Minigraf.Query.FactFetch
import Minigraf.Query.MagicSets

/-!
What a query is given, inside a write transaction and outside. Inside it is given all facts
with the staged ones behind them. Outside a query that names few entities and attributes is
given what index lookups find, and an index key has no value: of two values of one attribute
that were staged for the same time only one is found.
-/

namespace Minigraf

open EStateM

/-! ## What a query is given -/

section Queries

variable {H C : Type} (crc : Crc H C) (postcard : Postcard) (env : Env)

/-- `uses_rules`. -/
def usesRules (clauses : List WhereClause) : Bool := clauses.any fun c => !c.ruleInvocations.isEmpty

/-- What `filter_facts_for_query` starts from, of a query without `:as-of`. -/
def queryFacts (clauses : List WhereClause) : StoreM H C (List Fact) :=
  if usesRules clauses then allFacts crc postcard else sourceFacts crc postcard env clauses

/-- The same of a query in the transaction: with nothing staged it is one of the database. -/
def WriteTransaction.queryFacts (tx : WriteTransaction) (clauses : List WhereClause) : StoreM H C (List Fact) :=
  if tx.pendingFacts = [] then Minigraf.queryFacts crc postcard env clauses
  else do
    let committed ← allFacts crc postcard
    pure (tx.mergedQueryFacts committed)

/-- A query of the clauses has to do with the fact: it uses rules, or a pattern of it names no
other entity and no other attribute. -/
def LooksAt (clauses : List WhereClause) (f : Fact) : Prop :=
  usesRules clauses = true ∨ ∃ p ∈ collectAllPatterns clauses, p.Touches env f

/-- A query that starts from what is read sees the triple at this time. -/
def SeesTriple (clauses : List WhereClause) (read : StoreM H C (List Fact)) (s : Store H C) (now : Int64)
    (k : EavKey) : Prop :=
  ∃ facts u visible, read s = .ok facts u ∧ filterFactsForQuery facts none none now = some visible ∧
    ∃ f ∈ visible, f.eavKey = k ∧ LooksAt env clauses f

/-- A query that starts from what is read sees the window at this time. -/
def SeesWindow (clauses : List WhereClause) (read : StoreM H C (List Fact)) (s : Store H C) (now : Int64)
    (w : WindowKey) : Prop :=
  ∃ facts u visible, read s = .ok facts u ∧ filterFactsForQuery facts none none now = some visible ∧
    ∃ f ∈ visible, f.windowKey = w ∧ LooksAt env clauses f

/-- What index lookups find, as far as a query looks that is answered from them: they do not ask
for all of the last UUID, and pending facts share an index key only if they are the same. -/
structure Findable (clauses : List WhereClause) (pending : List Fact) : Prop where
  inner : ∀ lookups, lookupsFor env (collectAllPatterns clauses) 4 = some lookups → .entity (Fin.last _) ∉ lookups
  apart : ∀ f ∈ pending, ∀ g ∈ pending, LooksAt env clauses f → f.eavtKey = g.eavtKey → pendingKey f = pendingKey g

/-- The query is answered from index lookups. -/
def ByIndex (clauses : List WhereClause) : Prop :=
  usesRules clauses = false ∧ lookupsFor env (collectAllPatterns clauses) 4 ≠ none

end Queries

/-! ## Facts that are looked at -/

section Looks

variable {env : Env} {clauses : List WhereClause}

theorem LooksAt.congr {f g : Fact} (same : f.eavKey = g.eavKey) :
    LooksAt env clauses f ↔ LooksAt env clauses g := by
  simp only [Fact.eavKey, Prod.mk.injEq] at same
  simp only [LooksAt, Pattern.Touches, same.1, same.2.1]

/-- Among some facts there are the same to look at as among others. -/
structure LooksAlike (env : Env) (clauses : List WhereClause) (part facts : List Fact) : Prop where
  found : ∀ f ∈ part, LooksAt env clauses f → ∃ g ∈ facts, pendingKey g = pendingKey f
  whole : ∀ f ∈ facts, LooksAt env clauses f → ∃ g ∈ part, pendingKey g = pendingKey f

theorem LooksAlike.refl (env : Env) (clauses : List WhereClause) (facts : List Fact) :
    LooksAlike env clauses facts facts :=
  ⟨fun f hf _ => ⟨f, hf, rfl⟩, fun f hf _ => ⟨f, hf, rfl⟩⟩

variable {H C : Type} {read : StoreM H C (List Fact)} {s u : Store H C} {facts part : List Fact} {now : Int64}

/-- What is read shows what all facts show, as far as the query looks. -/
theorem LooksAlike.seesWindow (alike : LooksAlike env clauses part facts) (run : read s = .ok part u)
    (w : WindowKey) :
    SeesWindow env clauses read s now w ↔
      ShowsWindow facts now w ∧ ∃ f : Fact, f.windowKey = w ∧ LooksAt env clauses f := by
  have shown : SeesWindow env clauses read s now w ↔
      ShowsWindow part now w ∧ ∃ f : Fact, f.windowKey = w ∧ LooksAt env clauses f := by
    constructor
    · rintro ⟨_, _, visible, run', kept, f, hf, key, looks⟩
      cases run.symm.trans run'
      exact ⟨⟨visible, kept, f, hf, key⟩, f, key, looks⟩
    · rintro ⟨⟨visible, kept, f, hf, key⟩, g, key', looks⟩
      have same : f.eavKey = g.eavKey := Fact.eavKey_of_windowKey (key.trans key'.symm)
      exact ⟨part, u, visible, run, kept, f, hf, key, (LooksAt.congr same).mpr looks⟩
  rw [shown]
  refine and_congr_left fun looked => ?_
  have looks : ∀ f : Fact, f.eavKey = (w.1, w.2.1, w.2.2.1) → LooksAt env clauses f := by
    obtain ⟨g, rfl, looks⟩ := looked
    exact fun f same => (LooksAt.congr same).mpr looks
  rw [showsWindow_iff, showsWindow_iff]
  refine and_congr_left fun _ => ⟨stands_congr ?_ ?_, stands_congr ?_ ?_⟩
  · exact fun f hf triple => alike.found f hf (looks f triple)
  · exact fun f hf triple => alike.whole f hf (looks f triple)
  · exact fun f hf triple => alike.whole f hf (looks f triple)
  · exact fun f hf triple => alike.found f hf (looks f triple)

theorem seesTriple_iff (k : EavKey) : SeesTriple env clauses read s now k ↔
    ∃ start stop, SeesWindow env clauses read s now (k.1, k.2.1, k.2.2, start, stop) := by
  constructor
  · rintro ⟨facts, u, visible, run, kept, f, hf, rfl, looks⟩
    exact ⟨f.validFrom, f.validTo, facts, u, visible, run, kept, f, hf, rfl, looks⟩
  · rintro ⟨start, stop, facts, u, visible, run, kept, f, hf, key, looks⟩
    exact ⟨facts, u, visible, run, kept, f, hf, eavKey_eq_iff.mpr ⟨start, stop, key⟩, looks⟩

theorem LooksAlike.seesTriple (alike : LooksAlike env clauses part facts) (run : read s = .ok part u)
    (k : EavKey) :
    SeesTriple env clauses read s now k ↔ ShowsTriple facts now k ∧ ∃ f : Fact, f.eavKey = k ∧ LooksAt env clauses f := by
  rw [seesTriple_iff, showsTriple_iff]
  simp only [alike.seesWindow run]
  constructor
  · rintro ⟨start, stop, shows, f, key, looks⟩
    exact ⟨⟨start, stop, shows⟩, f, eavKey_eq_iff.mpr ⟨start, stop, key⟩, looks⟩
  · rintro ⟨⟨start, stop, shows⟩, f, key, looks⟩
    refine ⟨start, stop, shows, { f with validFrom := start, validTo := stop }, ?_, ?_⟩
    · simp only [Fact.eavKey] at key
      simp only [Fact.windowKey, ← key]
    · exact (LooksAt.congr rfl).mp looks

end Looks

/-! ## What is found -/

section Found

variable {H C : Type} (crc : Crc H C) {postcard : Postcard} {s u : Store H C} {placed : List (Fact × FactRef)}
  {env : Env} {clauses : List WhereClause}

/-- A query is given all that it looks at. -/
theorem Store.Legible.run_queryFacts (legible : s.Legible postcard placed)
    (reader : s.storage.committedIndexReader = none → placed = []) (clear : Scannable placed)
    (findable : ByIndex env clauses → Findable env clauses s.storage.facts) :
    ∃ facts t, queryFacts crc postcard env clauses s = .ok facts t ∧
      LooksAlike env clauses facts (placed.map Prod.fst ++ s.storage.facts) := by
  cases rules : usesRules clauses with
  | true =>
      obtain ⟨facts, t, run, rfl, -⟩ := (legible.readable.wp_allFacts crc).exists_ok
      refine ⟨_, t, ?_, .refl env clauses _⟩
      rw [queryFacts, rules]
      exact run
  | false =>
      have found : ∀ lookups, lookupsFor env (collectAllPatterns clauses) 4 = some lookups →
          Findable env clauses s.storage.facts := fun lookups fetch =>
        findable ⟨rules, fetch ▸ Option.some_ne_none lookups⟩
      have looked := legible.wp_sourceFacts_selected crc env clauses fun lookups fetch =>
        ⟨clear, fun none_ => .inr (reader none_), (found lookups fetch).inner lookups fetch⟩
      obtain ⟨facts, t, run, -, selected⟩ := looked.exists_ok
      refine ⟨facts, t, ?_, ?_⟩
      · rw [queryFacts, rules]
        exact run
      obtain ⟨-, rfl⟩ | ⟨lookups, fetch, mem⟩ := selected
      · exact .refl env clauses _
      have selects : ∀ f, LooksAt env clauses f → ∃ lookup ∈ lookups, lookup.selects f = true := by
        intro f looks
        obtain no | ⟨p, hp, touches⟩ := looks
        · exact absurd (rules.symm.trans no) Bool.false_ne_true
        · exact (looksUp_of_lookupsFor fetch).selected p hp f touches
      refine ⟨fun f hf _ => ?_, fun f hf looks => ?_⟩
      · refine ⟨f, ?_, rfl⟩
        obtain hf | hf := List.mem_append.mp ((mem f).mp hf).1
        · exact List.mem_append_left _ hf
        · exact List.mem_append_right _ ((lastBy_sublist _ _).subset hf)
      · obtain hf | hf := List.mem_append.mp hf
        · exact ⟨f, (mem f).mpr ⟨List.mem_append_left _ hf, selects f looks⟩, rfl⟩
        · -- the last pending fact of the key is the one that is found
          obtain ⟨g, hg, same⟩ : ∃ g ∈ latestFacts s.storage.facts, g.eavtKey = f.eavtKey := exists_lastBy hf
          have key := (found lookups fetch).apart f hf g ((lastBy_sublist _ _).subset hg) looks same.symm
          have looks' := (LooksAt.congr (eavKey_of_pendingKey key)).mp looks
          exact ⟨g, (mem g).mpr ⟨List.mem_append_right _ hg, selects g looks'⟩, key.symm⟩

end Found
end Minigraf
