import Minigraf.Storage.PersistentFacts

/-!
The lookups of `src/graph/storage.rs`. Pending facts are found in the ordered maps of
the pending indexes, committed ones by range scans of the trees behind the roots of the
committed index reader; without any index every fact is read.
-/

namespace Minigraf

open EStateM

/-- `Lookup`. -/
inductive Lookup where
  | entity (entityId : EntityId)
  | entityAttribute (entityId : EntityId) (attr : Attribute)
  | attr (attr : Attribute)
  deriving DecidableEq, Repr

/-! ## The bounds of a scan -/

/-- The first key of an entity and an attribute. -/
def EavtKey.first (entity : EntityId) (attr : Attribute) : EavtKey :=
  ⟨entity, attr, Int64.minValue, Int64.minValue, 0⟩

/-- The first key of an attribute. -/
def AevtKey.first (attr : Attribute) : AevtKey := ⟨attr, 0, Int64.minValue, Int64.minValue, 0⟩

/-- `format!("{attribute}\0")`, the exact successor of an attribute. -/
def nextAttribute (attr : Attribute) : Attribute := attr.push '\x00'

section Lookups

variable {H C : Type} (crc : Crc H C) (postcard : Postcard)

/-! ## Reading facts -/

/-- `CommittedFactLoaderImpl::stream_all`. -/
def streamAll : StoreM H C (List Fact) := do
  let s ← get
  onDev (readAllFromPages postcard.fact crc 1 s.committedFactPages)

/-- What the committed reader streams, if there is one. -/
def committedFacts : StoreM H C (List Fact) := do
  let s ← get
  if s.storage.committed then streamAll crc postcard else pure []

def allFacts : StoreM H C (List Fact) := do
  let committed ← committedFacts crc postcard
  let s ← get
  pure (committed ++ s.storage.facts)

def resolveFactRef (r : FactRef) : StoreM H C Fact := do
  let s ← get
  if r.pageId = 0 then ofResult (s.storage.facts[r.slotIndex]?.elim (.error .int045) .ok)
  else if s.storage.committed then do
    let page ← onDev (getOrLoad crc r.pageId)
    ofResult (readSlot postcard.fact page r.slotIndex)
  else throw .int046

def resolveAll : List FactRef → StoreM H C (List Fact)
  | [] => pure []
  | r :: refs => do
      let fact ← resolveFactRef crc postcard r
      let rest ← resolveAll refs
      pure (fact :: rest)

/-- A scan of one committed tree; root 0 is no tree. -/
def scanCommitted {K : Type} [LinearOrder K] (codec : IndexCodec K) (root : Roots → Nat) (start stop : K) :
    StoreM H C (List FactRef) := do
  let s ← get
  match s.storage.committedIndexReader with
  | none => pure []
  | some roots =>
      if root roots = 0 then pure []
      else onDev (rangeScan crc codec (root roots) start (some stop))

/-! ## Lookups -/

/-- The first facts that match, in the order of the references, and no fact after one
that does not. -/
def resolveWhile {K : Type} (pred : K → Bool) : List (K × FactRef) → StoreM H C (List Fact)
  | [] => pure []
  | (key, r) :: later =>
      if pred key then do
        let fact ← resolveFactRef crc postcard r
        let rest ← resolveWhile pred later
        pure (fact :: rest)
      else pure []

def entityFacts (entityId : EntityId) : StoreM H C (List Fact) := do
  let s ← get
  let start := EavtKey.first entityId ""
  let stop := EavtKey.first (entityId + 1) ""
  if s.storage.pendingIndexes.eavt.isEmpty && s.storage.committedIndexReader.isNone then do
    let committed ← committedFacts crc postcard
    pure (s.storage.facts.filter (·.entity = entityId) ++ committed.filter (·.entity = entityId))
  else
    match s.storage.pendingIndexes.eavt.range start stop with
    | none => throw .panicked
    | some entries => do
        let pending ← resolveWhile crc postcard (fun key : EavtKey => key.entity = entityId) entries
        let refs ← scanCommitted crc postcard.eavt Roots.eavt start stop
        let committed ← resolveAll crc postcard refs
        pure (pending ++ committed)

def entityAttributeFacts (entityId : EntityId) (attr : Attribute) : StoreM H C (List Fact) := do
  let s ← get
  if s.storage.pendingIndexes.eavt.isEmpty && s.storage.committedIndexReader.isNone then do
    let committed ← committedFacts crc postcard
    pure (s.storage.facts.filter (fun f => f.entity = entityId ∧ f.attr = attr) ++
      committed.filter fun f => f.entity = entityId ∧ f.attr = attr)
  else do
    let start := EavtKey.first entityId attr
    let stop := EavtKey.first entityId (nextAttribute attr)
    let pending ← resolveWhile crc postcard
      (fun key : EavtKey => key.entity = entityId ∧ key.attr = attr)
      (s.storage.pendingIndexes.eavt.rangeFrom start)
    let refs ← scanCommitted crc postcard.eavt Roots.eavt start stop
    let committed ← resolveAll crc postcard refs
    pure (pending ++ committed.filter fun f => f.entity = entityId ∧ f.attr = attr)

def attributeFacts (attr : Attribute) : StoreM H C (List Fact) := do
  let s ← get
  if s.storage.pendingIndexes.aevt.isEmpty && s.storage.committedIndexReader.isNone then do
    let all ← allFacts crc postcard
    pure (all.filter (·.attr = attr))
  else do
    let start := AevtKey.first attr
    let stop := AevtKey.first (nextAttribute attr)
    match s.storage.pendingIndexes.aevt.range start stop with
    | none => throw .panicked
    | some entries => do
        let pending ← resolveAll crc postcard (entries.map Prod.snd)
        let refs ← scanCommitted crc postcard.aevt Roots.aevt start stop
        let committed ← resolveAll crc postcard refs
        pure (pending ++ committed.filter (·.attr = attr))

def lookupFacts : Lookup → StoreM H C (List Fact)
  | .entity entityId => entityFacts crc postcard entityId
  | .entityAttribute entityId attr => entityAttributeFacts crc postcard entityId attr
  | .attr attr => attributeFacts crc postcard attr

def getFactsForLookups : List Lookup → StoreM H C (List Fact)
  | [] => pure []
  | lookup :: lookups => do
      let facts ← lookupFacts crc postcard lookup
      let rest ← getFactsForLookups lookups
      pure (facts ++ rest)

end Lookups
end Minigraf
