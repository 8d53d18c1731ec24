import Minigraf.Db.QueryReads

/-!
A query inside a write transaction against the same query after the commit. Both see the same
triples where the facts the query looks at have their index keys to themselves; of two values
that were staged under one key only one is seen after the commit.
-/

namespace Minigraf

open EStateM

section Commit

variable {H C : Type} (crc : Crc H C) {postcard : Postcard} {s u : Store H C} {placed : List (Fact × FactRef)}
  {env : Env} {clauses : List WhereClause}

/-- What a query sees in the transaction and what it sees of a store after the commit: the same
triples, and the same windows where these were given. -/
def WriteTransaction.ReadsAlike (crc : Crc H C) (postcard : Postcard) (env : Env) (clauses : List WhereClause)
    (tx : WriteTransaction) (txId : TxId) (now : Int64) (s u : Store H C) : Prop :=
  (∀ k, SeesTriple env clauses (tx.queryFacts crc postcard env clauses) s now k ↔
      SeesTriple env clauses (Minigraf.queryFacts crc postcard env clauses) u now k) ∧
    ∀ w, tx.Given txId w →
      (SeesWindow env clauses (tx.queryFacts crc postcard env clauses) s now w ↔
        SeesWindow env clauses (Minigraf.queryFacts crc postcard env clauses) u now w)

variable {tx : WriteTransaction} {txId : TxId} {t : FactStorage}

theorem Store.Legible.commit (legible : s.Legible postcard placed)
    (done : tx.commitInner txId s.storage = .ok () t) (dirty : Bool) :
    Store.Legible postcard { s with storage := t, dirty := dirty } placed := by
  have committed := WriteTransaction.commitInner_ok done
  obtain ⟨inside, counted, limit, facts, unread⟩ := legible.readable
  refine ⟨legible.okay, ⟨inside, counted, limit, facts, ?_⟩, committed.ok legible.pending, ?_, ?_⟩
  · exact fun none_ => unread (committed.committed.symm.trans none_)
  · exact fun roots some_ => legible.eavt roots (committed.reader.symm.trans some_)
  · exact fun roots some_ => legible.aevt roots (committed.reader.symm.trans some_)

/-- With something staged a query in the transaction is given all facts with the staged ones
behind them. -/
theorem Store.Legible.run_transaction (legible : s.Legible postcard placed) (some_ : tx.pendingFacts ≠ [])
    (env : Env) (clauses : List WhereClause) :
    ∃ v, tx.queryFacts crc postcard env clauses s =
      .ok (tx.mergedQueryFacts (placed.map Prod.fst ++ s.storage.facts)) v := by
  have merged : Wp (tx.queryFacts crc postcard env clauses) s
      (fun r _ => r = tx.mergedQueryFacts (placed.map Prod.fst ++ s.storage.facts)) (fun _ _ => False) := by
    rw [WriteTransaction.queryFacts, if_neg some_, wp_bind]
    refine (legible.readable.wp_allFacts crc).post ?_
    rintro _ v ⟨rfl, rfl⟩
    rfl
  obtain ⟨_, v, run, rfl⟩ := merged.exists_ok
  exact ⟨v, run⟩

/-- The staged facts as a commit stamps them. -/
def WriteTransaction.stamped (tx : WriteTransaction) (txId : TxId) (s : FactStorage) : List Fact :=
  tx.pendingFacts.map (stamp txId (nextTxCount s.txCounter))

/-- `commit_inner` on an open file whose log was written; `shouldCheckpoint` is what that came to. -/
def WriteTransaction.commit (crc : Crc H C) (postcard : Postcard) [DecidableEq C] (tx : WriteTransaction)
    (txId : TxId) (shouldCheckpoint : Bool) : StoreM H C Unit :=
  if tx.pendingFacts = [] then pure ()
  else do
    changing (tx.commitInner txId)
    if shouldCheckpoint then save crc postcard

/-- With nothing staged nothing changes, and a query is the same before and after. -/
theorem WriteTransaction.readsAlike_empty [DecidableEq C] {shouldCheckpoint : Bool} (empty : tx.pendingFacts = [])
    (done : tx.commit crc postcard txId shouldCheckpoint s = .ok () u) (env : Env) (clauses : List WhereClause)
    (now : Int64) : tx.ReadsAlike crc postcard env clauses txId now s u := by
  rw [commit, if_pos empty] at done
  cases done
  rw [ReadsAlike, WriteTransaction.queryFacts, if_pos empty]
  exact ⟨fun _ => Iff.rfl, fun _ _ => Iff.rfl⟩

theorem WriteTransaction.commit_ok [DecidableEq C] {shouldCheckpoint : Bool} (some_ : tx.pendingFacts ≠ [])
    (done : tx.commit crc postcard txId shouldCheckpoint s = .ok () u) :
    ∃ t, tx.commitInner txId s.storage = .ok () t ∧
      if shouldCheckpoint then save crc postcard { s with storage := t, dirty := true } = .ok () u
      else u = { s with storage := t, dirty := true } := by
  have steps : Wp (tx.commit crc postcard txId shouldCheckpoint) s
      (fun _ u => ∃ t, tx.commitInner txId s.storage = .ok () t ∧
        if shouldCheckpoint then save crc postcard { s with storage := t, dirty := true } = .ok () u
        else u = { s with storage := t, dirty := true }) (fun _ _ => True) := by
    rw [commit, if_neg some_]
    simp only [changing, markDirty, wp_bind, onFacts, wp_zoom, wp_modify]
    refine (wp_self _ _).mono (fun _ t ran => ?_) fun _ _ _ => trivial
    cases shouldCheckpoint with
    | true => exact (wp_self _ _).mono (fun _ u saved => ⟨t, ran, saved⟩) fun _ _ _ => trivial
    | false => exact ⟨t, ran, rfl⟩
  exact steps.of_ok done

section Readings

variable (legible : s.Legible postcard placed) (reader : s.storage.committedIndexReader = none → placed = [])
  (counted : ∀ f ∈ placed.map Prod.fst ++ s.storage.facts, 1 ≤ f.txCount ∧ f.txCount ≤ s.storage.txCounter)
  {begun : TxId} {commands : List (WriteCommand × TxId)} {now : Int64}
  (made : tx = (beginWrite s.storage begun).stageAll commands) (some_ : tx.pendingFacts ≠ [])
  (apart : Apart tx.pendingFacts) (staged : ∀ f ∈ tx.pendingFacts, f.txId.toInt64 ≤ now) (late : txId.toInt64 ≤ now)
  (done : tx.commitInner txId s.storage = .ok () t)

include counted in
theorem scannable : Scannable placed :=
  .inr fun p hp => (counted p.1 (List.mem_append_left _ (List.mem_map_of_mem hp))).1

include legible counted made apart staged late done in
theorem WriteTransaction.shows_alike :
    (∀ k, ShowsTriple (tx.mergedQueryFacts (placed.map Prod.fst ++ s.storage.facts)) now k ↔
        ShowsTriple (placed.map Prod.fst ++ t.facts) now k) ∧
      ∀ w, tx.Given txId w →
        (ShowsWindow (tx.mergedQueryFacts (placed.map Prod.fst ++ s.storage.facts)) now w ↔
          ShowsWindow (placed.map Prod.fst ++ t.facts) now w) := by
  subst made
  exact shows_commit ⟨placed.map Prod.fst, s.storage, legible.pending, fun f hf => (counted f hf).2⟩ begun txId
    commands apart staged late done

include legible counted made some_ apart staged late done in
/-- The two readings agree where a query finds after the commit what it looks at. -/
theorem WriteTransaction.readsAlike {placed' : List (Fact × FactRef)} (legible' : u.Legible postcard placed')
    (reader' : u.storage.committedIndexReader = none → placed' = []) (clear : Scannable placed')
    (same : placed'.map Prod.fst ++ u.storage.facts = placed.map Prod.fst ++ t.facts)
    (findable : ByIndex env clauses → Findable env clauses u.storage.facts) :
    tx.ReadsAlike crc postcard env clauses txId now s u := by
  have shows := shows_alike legible counted made apart staged late done
  obtain ⟨v, run⟩ := legible.run_transaction crc some_ env clauses
  obtain ⟨found, w, run', alike⟩ := legible'.run_queryFacts crc reader' clear findable
  rw [same] at alike
  have whole := LooksAlike.refl env clauses (tx.mergedQueryFacts (placed.map Prod.fst ++ s.storage.facts))
  refine ⟨fun k => ?_, fun w given => ?_⟩
  · rw [whole.seesTriple run, alike.seesTriple run', shows.1 k]
  · rw [whole.seesWindow run, alike.seesWindow run', shows.2 w given]

include legible reader counted made some_ apart staged late done in
/-- They agree right after the commit. -/
theorem WriteTransaction.readsAlike_pending
    (findable : ByIndex env clauses → Findable env clauses (s.storage.facts ++ tx.stamped txId s.storage)) :
    tx.ReadsAlike crc postcard env clauses txId now s { s with storage := t, dirty := true } := by
  have committed := commitInner_ok done
  have pending : ∀ f ∈ t.facts, f ∈ s.storage.facts ++ tx.stamped txId s.storage := by
    intro f hf
    rw [committed.facts] at hf
    exact (List.mem_append.mp hf).elim (List.mem_append_left _) fun hf =>
      List.mem_append_right _ (mem_freshFacts hf).1
  refine readsAlike crc legible counted made some_ apart staged late done (legible.commit done true) ?_
    (scannable counted) rfl ?_
  · exact fun none_ => reader (committed.reader.symm.trans none_)
  · intro byIndex
    obtain ⟨inner, own⟩ := findable byIndex
    exact ⟨inner, fun f hf g hg => own f (pending f hf) g (pending g hg)⟩

include legible counted made some_ apart staged late done in
/-- They agree after a checkpoint that finds room, which moves all facts to pages. -/
theorem WriteTransaction.readsAlike_saved [DecidableEq C] (calm : s.Calm crc postcard)
    (room : Store.Roomy postcard { s with storage := t, dirty := true })
    (saved : save crc postcard { s with storage := t, dirty := true } = .ok () u)
    (inner : ByIndex env clauses → Findable env clauses []) :
    tx.ReadsAlike crc postcard env clauses txId now s u := by
  have committed := commitInner_ok done
  obtain ⟨faults, -, own, clean⟩ := calm
  have clean' := clean.withStorage committed.committed committed.reader (committed.ok clean.pending) true
  have calm' : Store.Calm crc postcard { s with storage := t, dirty := true } := ⟨faults, .inl rfl, own, clean'⟩
  obtain ⟨front, placed', clean₁, clean₂, none_, same⟩ := calm'.saved (fun _ => room) saved
  cases (legible.commit done true).readable.facts.symm.trans clean₁.facts
  have counts : ∀ f ∈ placed.map Prod.fst ++ t.facts, 1 ≤ f.txCount := by
    intro f hf
    rw [committed.facts, ← List.append_assoc] at hf
    obtain hf | hf := List.mem_append.mp hf
    · exact (counted f hf).1
    · obtain ⟨g, -, rfl⟩ := List.mem_map.mp (mem_freshFacts hf).1
      have pos := UInt64.lt_iff_toNat_lt.mp (nextTxCount_pos s.storage.txCounter)
      exact UInt64.le_iff_toNat_le.mpr pos
  refine readsAlike crc legible counted made some_ apart staged late done clean₂.legible ?_ (.inr ?_) ?_ ?_
  · intro reader
    obtain fresh | pages := clean₂.state
    · exact clean₂.placed_nil fresh.pages
    · cases pages.reader.symm.trans reader
  · exact fun p hp => counts p.1 (same ▸ List.mem_map_of_mem hp)
  · rw [none_, List.append_nil, ← same]
  · rw [none_]
    exact inner

end Readings

/-! ## Values that share a key -/

/-- The query for the values of the attribute of a fact. -/
def valuesOf (f : Fact) : List WhereClause :=
  [.pattern ⟨.uuid f.entity, .real (.keyword f.attr), .var (.named "v")⟩]

theorem lookupsFor_valuesOf (env : Env) (f : Fact) :
    lookupsFor env (collectAllPatterns (valuesOf f)) 4 = some [.entityAttribute f.entity f.attr] := rfl

theorem looksAt_valuesOf (env : Env) (f : Fact) : LooksAt env (valuesOf f) f := by
  refine .inr ⟨_, List.mem_cons_self, ?_, ?_⟩
  · intro uid same
    cases same
    rfl
  · intro attr same
    cases same
    rfl

/-- Two staged assertions that share their index key, each the only fact of its triple. -/
structure Collide (known stamped : List Fact) (now : Int64) (f g : Fact) : Prop where
  left : f ∈ stamped
  right : g ∈ stamped
  asserted : f.asserted = true ∧ g.asserted = true
  covers : f.windowKey.Covers now
  shared : f.eavtKey = g.eavtKey
  differ : f.eavKey ≠ g.eavKey
  unknown : ∀ h ∈ known, h.eavKey ≠ f.eavKey ∧ h.eavKey ≠ g.eavKey
  alone : ∀ h ∈ stamped, h.eavKey = f.eavKey ∨ h.eavKey = g.eavKey → h.eavtKey = f.eavtKey

theorem Collide.symm {known stamped : List Fact} {now : Int64} {f g : Fact} (h : Collide known stamped now f g) :
    Collide known stamped now g f := by
  refine ⟨h.right, h.left, h.asserted.symm, ?_, h.shared.symm, h.differ.symm,
    fun k hk => (h.unknown k hk).symm, fun k hk own => (h.alone k hk own.symm).trans h.shared⟩
  have same := h.shared
  simp only [Fact.eavtKey, EavtKey.mk.injEq] at same
  have covers := h.covers
  simp only [WindowKey.Covers, Fact.windowKey, same.2.2.1, same.2.2.2.1] at covers
  exact covers

/-- All facts after the commit show the triple of each. -/
theorem Collide.shows {now : Int64} {f g : Fact} (legible : s.Legible postcard placed)
    (counted : ∀ f ∈ placed.map Prod.fst ++ s.storage.facts, 1 ≤ f.txCount ∧ f.txCount ≤ s.storage.txCounter)
    (apart : Apart tx.pendingFacts) (done : tx.commitInner txId s.storage = .ok () t)
    (collide : Collide (placed.map Prod.fst ++ s.storage.facts) (tx.stamped txId s.storage) now f g) :
    ShowsTriple (placed.map Prod.fst ++ t.facts) now f.eavKey := by
  rw [showsTriple_iff]
  refine ⟨f.validFrom, f.validTo, showsWindow_iff.mpr ⟨?_, collide.covers⟩⟩
  refine (Snapshot.stands_commit (s := ⟨placed.map Prod.fst, s.storage, legible.pending, fun f hf => (counted f hf).2⟩)
    done _).mpr ?_
  refine ⟨f, List.mem_append_right _ collide.left, collide.asserted.1, rfl, ?_, ?_⟩
  · obtain ⟨f₀, -, rfl⟩ := List.mem_map.mp collide.left
    exact nextTxCount_pos _
  · intro r hr retraction same
    obtain hr | hr := List.mem_append.mp hr
    · exact absurd same (collide.unknown r hr).1
    · obtain ⟨f₀, hf, own⟩ := List.mem_map.mp collide.left
      obtain ⟨r₀, hr₀, rfl⟩ := List.mem_map.mp hr
      have asserted := collide.asserted.1
      rw [← own] at asserted same
      exact absurd same.symm (apart f₀ hf r₀ hr₀ asserted retraction)

/-- The query for their values sees both in the transaction, and one of them after the commit. -/
theorem Collide.not_readsAlike {now : Int64} {f g : Fact} (legible : s.Legible postcard placed)
    (reader : s.storage.committedIndexReader = none → placed = [])
    (counted : ∀ f ∈ placed.map Prod.fst ++ s.storage.facts, 1 ≤ f.txCount ∧ f.txCount ≤ s.storage.txCounter)
    {begun : TxId} {commands : List (WriteCommand × TxId)}
    (made : tx = (beginWrite s.storage begun).stageAll commands) (apart : Apart tx.pendingFacts)
    (staged : ∀ f ∈ tx.pendingFacts, f.txId.toInt64 ≤ now) (late : txId.toInt64 ≤ now)
    (done : tx.commitInner txId s.storage = .ok () t)
    (collide : Collide (placed.map Prod.fst ++ s.storage.facts) (tx.stamped txId s.storage) now f g) :
    ¬ tx.ReadsAlike crc postcard env (valuesOf f) txId now s { s with storage := t, dirty := true } := by
  intro alike
  have committed := WriteTransaction.commitInner_ok done
  have shows := WriteTransaction.shows_alike legible counted made apart staged late done
  have some_ : tx.pendingFacts ≠ [] := by
    intro empty
    have none_ := collide.left
    rw [WriteTransaction.stamped, empty] at none_
    cases none_
  have looksG : LooksAt env (valuesOf f) g := by
    have same := collide.shared
    simp only [Fact.eavtKey, EavtKey.mk.injEq] at same
    have own := looksAt_valuesOf env g
    simp only [valuesOf, ← same.1, ← same.2.1] at own
    exact own
  -- what is read after the commit
  have after := (legible.commit done true).wp_sourceFacts_selected crc env (valuesOf f) fun lookups fetch => by
    refine ⟨scannable counted, fun none_ => .inr (reader (committed.reader.symm.trans none_)), ?_⟩
    cases (lookupsFor_valuesOf env f).symm.trans fetch
    intro no
    cases List.mem_singleton.mp no
  obtain ⟨facts, v, run, -, selected⟩ := after.exists_ok
  have latest : ∀ h ∈ facts, h ∈ placed.map Prod.fst ++ latestFacts t.facts := by
    obtain ⟨no, -⟩ | ⟨lookups, -, mem⟩ := selected
    · rw [lookupsFor_valuesOf] at no
      cases no
    · exact fun h hh => ((mem h).mp hh).1
  have shown : ∀ k, k = f.eavKey ∨ k = g.eavKey → ShowsTriple facts now k := by
    intro k own
    have kept : ShowsTriple (placed.map Prod.fst ++ t.facts) now k ∧
        ∃ h : Fact, h.eavKey = k ∧ LooksAt env (valuesOf f) h := by
      obtain rfl | rfl := own
      · exact ⟨collide.shows legible counted apart done, f, rfl, looksAt_valuesOf env f⟩
      · exact ⟨collide.symm.shows legible counted apart done, g, rfl, looksG⟩
    obtain ⟨w, run'⟩ := legible.run_transaction crc some_ env (valuesOf f)
    have whole := LooksAlike.refl env (valuesOf f) (tx.mergedQueryFacts (placed.map Prod.fst ++ s.storage.facts))
    have sees := (whole.seesTriple run' k).mpr ⟨(shows.1 k).mpr kept.1, kept.2⟩
    obtain ⟨_, _, visible, run'', filtered, h, hh, key, -⟩ := (alike.1 k).mp sees
    cases run.symm.trans run''
    exact ⟨visible, filtered, h, hh, key⟩
  have seen : ∀ k, k = f.eavKey ∨ k = g.eavKey → ∃ h ∈ latestFacts t.facts, h.eavKey = k ∧ h.eavtKey = f.eavtKey := by
    intro k own
    obtain ⟨start, stop, window⟩ := showsTriple_iff.mp (shown k own)
    obtain ⟨h, hh, -, key, -⟩ := (showsWindow_iff.mp window).1
    have triple : h.eavKey = k := eavKey_eq_iff.mpr ⟨start, stop, key⟩
    have fresh : h ∉ placed.map Prod.fst ++ s.storage.facts := by
      intro old
      obtain rfl | rfl := own
      · exact (collide.unknown h old).1 triple
      · exact (collide.unknown h old).2 triple
    obtain no | mem := List.mem_append.mp (latest h hh)
    · exact absurd (List.mem_append_left _ no) fresh
    refine ⟨h, mem, triple, ?_⟩
    have added := (lastBy_sublist _ _).subset mem
    rw [committed.facts] at added
    obtain no | new := List.mem_append.mp added
    · exact absurd (List.mem_append_right _ no) fresh
    · exact collide.alone h (mem_freshFacts new).1 (own.imp triple.trans triple.trans)
  obtain ⟨f', hf, tripleF, keyF⟩ := seen _ (.inl rfl)
  obtain ⟨g', hg, tripleG, keyG⟩ := seen _ (.inr rfl)
  have same := List.inj_on_of_nodup_map (nodup_lastBy Fact.eavtKey t.facts) hf hg (keyF.trans keyG.symm)
  exact collide.differ (tripleF.symm.trans (same ▸ tripleG))

/-- What a query sees in the transaction and what it sees after the commit agree, at one time that
is past the staged times and the commit, where the query is answered from a scan. Where it is
answered from index lookups they agree if these do not ask for all of the last UUID and if the
pending facts the query looks at have their index keys to themselves; after a checkpoint none are
pending. Of two staged values that share their key one is not seen after the commit. -/
theorem WriteTransaction.reads_own_writes [DecidableEq C] (legible : s.Legible postcard placed)
    (reader : s.storage.committedIndexReader = none → placed = [])
    (counted : ∀ f ∈ placed.map Prod.fst ++ s.storage.facts, 1 ≤ f.txCount ∧ f.txCount ≤ s.storage.txCounter)
    {begun : TxId} {commands : List (WriteCommand × TxId)} {now : Int64}
    (made : tx = (beginWrite s.storage begun).stageAll commands) (apart : Apart tx.pendingFacts)
    (staged : readNow now tx.pendingReadNowFloor = now) (late : txId.toInt64 ≤ now)
    (committed : tx.commit crc postcard txId false s = .ok () u) (env : Env) :
    (∀ clauses, (ByIndex env clauses → Findable env clauses (s.storage.facts ++ tx.stamped txId s.storage)) →
      tx.ReadsAlike crc postcard env clauses txId now s u) ∧
    (∀ clauses v, tx.commit crc postcard txId true s = .ok () v → s.Calm crc postcard → u.Roomy postcard →
      (ByIndex env clauses → Findable env clauses []) → tx.ReadsAlike crc postcard env clauses txId now s v) ∧
    ∀ f g, Collide (placed.map Prod.fst ++ s.storage.facts) (tx.stamped txId s.storage) now f g →
      ¬ tx.ReadsAlike crc postcard env (valuesOf f) txId now s u := by
  have staged : ∀ f ∈ tx.pendingFacts, f.txId.toInt64 ≤ now := staged ▸ tx.le_readNow now
  by_cases empty : tx.pendingFacts = []
  · refine ⟨fun clauses _ => readsAlike_empty crc empty committed env clauses now,
      fun clauses v saved _ _ _ => readsAlike_empty crc empty saved env clauses now, fun f g collide => ?_⟩
    have none_ := collide.left
    rw [stamped, empty] at none_
    cases none_
  · obtain ⟨t, done, rfl⟩ := commit_ok crc empty committed
    refine ⟨fun clauses findable => ?_, fun clauses v run calm room inner => ?_, fun f g collide => ?_⟩
    · exact readsAlike_pending crc legible reader counted made empty apart staged late done findable
    · obtain ⟨t', done', saved⟩ := commit_ok crc empty run
      cases done.symm.trans done'
      exact readsAlike_saved crc legible counted made empty apart staged late done calm room saved inner
    · exact collide.not_readsAlike crc legible reader counted made apart staged late done

end Commit

/-! ## One transaction -/

/-- A new file. -/
def Store.blank : Store (List UInt8) (List UInt8) := Store.init (Dev.create Crc.lossless 64 none)

/-- An environment without names. -/
def Env.plain : Env := ⟨fun _ => none, fun _ => 0, fun _ _ => false, fun _ => none⟩

/-- A fact asserted from a given time on, and one from the commit on. -/
def oneTransact : WriteCommand :=
  .transact [((7, ":a", .integer 1), ⟨some 3, none⟩), ((7, ":b", .integer 1), ⟨none, none⟩)] ⟨none, none⟩

/-- Two values of one attribute. -/
def twoValues : WriteCommand :=
  .transact [((7, ":a", .integer 1), ⟨none, none⟩), ((7, ":a", .integer 2), ⟨none, none⟩)] ⟨none, none⟩

theorem Store.blank_legible : Store.blank.Legible Postcard.standard [] := by
  have reached : Reached Crc.lossless Postcard.standard 64 Store.blank := .start
  obtain ⟨_, _, placed, clean⟩ := reached.calm
  obtain rfl : placed = [] := clean.placed_nil rfl
  exact clean.legible

theorem WriteTransaction.reads_own_writes_one : ∃ u,
    ((beginWrite Store.blank.storage 1).stageAll [(oneTransact, 5)]).commit Crc.lossless Postcard.standard 6 false
      Store.blank = .ok () u ∧
    ((beginWrite Store.blank.storage 1).stageAll [(oneTransact, 5)]).ReadsAlike Crc.lossless Postcard.standard Env.plain
      [.pattern ⟨.uuid 7, .real (.keyword ":a"), .var (.named "v")⟩] 6 9 Store.blank u := by
  have apart : Apart ((beginWrite Store.blank.storage 1).stageAll [(oneTransact, 5)]).pendingFacts := by
    unfold Apart
    decide
  refine ⟨_, rfl, ?_⟩
  refine (reads_own_writes Crc.lossless Store.blank_legible (fun _ => rfl) ?_ rfl apart ?_ ?_ rfl Env.plain).1 _ ?_
  · decide
  · decide
  · decide
  · intro _
    have keys : ∀ f ∈ Store.blank.storage.facts ++ ((beginWrite Store.blank.storage 1).stageAll
        [(oneTransact, 5)]).stamped 6 Store.blank.storage, ∀ g ∈ Store.blank.storage.facts ++
          ((beginWrite Store.blank.storage 1).stageAll [(oneTransact, 5)]).stamped 6 Store.blank.storage,
        f.eavtKey = g.eavtKey → pendingKey f = pendingKey g := by
      decide
    refine ⟨fun lookups fetch => ?_, fun f hf g hg _ => keys f hf g hg⟩
    cases fetch
    decide

/-- Two values staged at once: the second takes the index key of the first. -/
theorem WriteTransaction.reads_one_of_two : ∃ u,
    ((beginWrite Store.blank.storage 1).stageAll [(twoValues, 5)]).commit Crc.lossless Postcard.standard 6 false
      Store.blank = .ok () u ∧
    Apart ((beginWrite Store.blank.storage 1).stageAll [(twoValues, 5)]).pendingFacts ∧
    readNow 9 ((beginWrite Store.blank.storage 1).stageAll [(twoValues, 5)]).pendingReadNowFloor = 9 ∧
    Minigraf.queryFacts Crc.lossless Postcard.standard Env.plain
      [.pattern ⟨.uuid 7, .real (.keyword ":a"), .var (.named "v")⟩] u =
        .ok [⟨7, ":a", .integer 2, 6, 1, 6, VALID_TIME_FOREVER, true⟩] u ∧
    ¬ ((beginWrite Store.blank.storage 1).stageAll [(twoValues, 5)]).ReadsAlike Crc.lossless Postcard.standard Env.plain
      [.pattern ⟨.uuid 7, .real (.keyword ":a"), .var (.named "v")⟩] 6 9 Store.blank u := by
  have apart : Apart ((beginWrite Store.blank.storage 1).stageAll [(twoValues, 5)]).pendingFacts := by
    unfold Apart
    decide
  have staged : ∀ f ∈ ((beginWrite Store.blank.storage 1).stageAll [(twoValues, 5)]).pendingFacts,
      f.txId.toInt64 ≤ 9 := by
    decide
  refine ⟨_, rfl, apart, rfl, rfl, ?_⟩
  refine Collide.not_readsAlike (f := ⟨7, ":a", .integer 1, 6, 1, 6, VALID_TIME_FOREVER, true⟩)
    (g := ⟨7, ":a", .integer 2, 6, 1, 6, VALID_TIME_FOREVER, true⟩) Crc.lossless Store.blank_legible (fun _ => rfl) ?_ rfl
    apart staged ?_ rfl ?_
  · decide
  · decide
  · refine ⟨?_, ?_, ⟨rfl, rfl⟩, ?_, rfl, ?_, ?_, ?_⟩
    · decide
    · decide
    · unfold WindowKey.Covers
      decide
    · decide
    · decide
    · decide

end Minigraf
