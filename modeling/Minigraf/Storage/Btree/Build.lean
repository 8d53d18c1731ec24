import Minigraf.Storage.Btree.Pages
import Minigraf.Storage.Writes

/-!
Building and rebuilding the on-disk B+tree of `src/storage/btree_v6.rs`.

Leaves are cut greedily from the sorted entries and the nodes of each internal level
greedily from the level below, so the packing loops are groupings; the writes happen
in the order of the source.
-/

namespace Minigraf

open Bytes EStateM

section Build

variable {H C : Type} (crc : Crc H C)

def writeLeafPage (id : Nat) (entries : List (List UInt8)) (nextLeaf : Nat) : Io C Unit := do
  let page ← ofResult (encodeLeafPage entries nextLeaf)
  writeCached crc id page

def writeInternalPage (id : Nat) (childIds : List Nat) (sepBytes : List (List UInt8)) :
    Io C Unit := do
  let page ← ofResult (encodeInternalPage childIds sepBytes)
  writeCached crc id page

/-! ## Internal levels -/

/-- The page id and the first key's bytes of a node, for the level above it. -/
abbrev NodeInfo := Nat × List UInt8

/-- Whether an internal node with these separators is closed before another child. -/
def siblingFull (seps : PageFill) (child : NodeInfo) : Bool :=
  let projected := INTERNAL_HEADER_SIZE + seps.records * 8 + (seps.records + 1) * SLOT_SIZE +
    seps.bytes + child.2.length
  decide (projected > PAGE_FILL_BYTES) && decide (seps.records ≠ 0)

/-- The children of each node of the next level; a node starts without separators. -/
def groupLevel (level : List NodeInfo) : List (NodeInfo × List NodeInfo) :=
  Greedy.groups siblingFull (fun seps child => seps.add child.2.length) (fun _ => ⟨0, 0⟩) level

/-- The nodes of a level as the level above it sees them. -/
def nextLevel (nextPage : Nat) : List (NodeInfo × List NodeInfo) → List NodeInfo
  | [] => []
  | node :: nodes => (nextPage, node.1.2) :: nextLevel (nextPage + 1) nodes

def writeNodes (nextPage : Nat) : List (NodeInfo × List NodeInfo) → Io C Unit
  | [] => pure ()
  | node :: nodes => do
      writeInternalPage crc nextPage ((Greedy.members node).map Prod.fst) (node.2.map Prod.snd)
      writeNodes (nextPage + 1) nodes

theorem length_nextLevel (nextPage : Nat) (nodes : List (NodeInfo × List NodeInfo)) :
    (nextLevel nextPage nodes).length = nodes.length := by
  induction nodes generalizing nextPage with
  | nil => rfl
  | cons node nodes ih => rw [nextLevel, List.length_cons, List.length_cons, ih]

theorem length_groupLevel (level : List NodeInfo) :
    2 * (groupLevel level).length ≤ level.length + 1 :=
  Greedy.groups_length_half _ _ _ (fun _ _ => by simp [siblingFull]) level

def buildInternalLevels (level : List NodeInfo) (nextPage : Nat) : Io C (Nat × Nat) :=
  match level with
  | [] => throw .int049
  | [node] => pure (node.1, nextPage)
  | first :: second :: rest => do
      let nodes := groupLevel (first :: second :: rest)
      writeNodes crc nextPage nodes
      buildInternalLevels (nextLevel nextPage nodes) (nextPage + nodes.length)
  termination_by level.length
  decreasing_by
    rw [length_nextLevel]
    have := length_groupLevel (first :: second :: rest)
    simp only [List.length_cons] at this ⊢
    omega

/-! ## Bulk build -/

section Entries

variable {K : Type} (codec : IndexCodec K)

/-- `leaf_overflows`, from the number and the bytes of the entries a leaf has. -/
def leafOverflows (leaf : PageFill) (entryLen : Nat) : Bool :=
  decide (LEAF_HEADER_SIZE + (leaf.records + 1) * SLOT_SIZE + leaf.bytes + entryLen >
    PAGE_FILL_BYTES)

/-- Sorted entries cut into leaves, each closed when `full` says so. -/
def packLeaves (full : PageFill → Nat → Bool) (entries : List (K × FactRef)) :
    List ((K × FactRef) × List (K × FactRef)) :=
  Greedy.groups (fun leaf e => full leaf (codec.entry.encode e).length)
    (fun leaf e => leaf.add (codec.entry.encode e).length)
    (fun e => .one (codec.entry.encode e).length) entries

/-- The encoded entries of a leaf. -/
def leafRecords (leaf : (K × FactRef) × List (K × FactRef)) : List (List UInt8) :=
  (Greedy.members leaf).map codec.entry.encode

/-- The leaves as the level above them sees them. -/
def leafInfos (nextPage : Nat) : List ((K × FactRef) × List (K × FactRef)) → List NodeInfo
  | [] => []
  | leaf :: leaves => (nextPage, codec.key.encode leaf.1.1) :: leafInfos (nextPage + 1) leaves

def writeLeaves (nextPage : Nat) : List ((K × FactRef) × List (K × FactRef)) → Io C Unit
  | [] => pure ()
  | leaf :: leaves => do
      writeLeafPage crc nextPage (leafRecords codec leaf) 0
      writeLeaves (nextPage + 1) leaves

/-- Set the successor of a leaf. -/
def withNextLeaf (page : Page) (nextLeaf : Nat) : Except ErrorCode Page :=
  orError .int049 (page.write 4 (leBytes 8 nextLeaf))

/-- Patch the successors of `n` leaves from `id` on. -/
def patchLeaves (id : Nat) : Nat → Io C Unit
  | 0 => pure ()
  | n + 1 => do
      let cached ← getOrLoad crc id
      let page ← ofResult (withNextLeaf cached (id + 1))
      writeCached crc id page
      patchLeaves (id + 1) n

/-- `build_btree`: the root and the next free page. -/
def buildBtree (entries : List (K × FactRef)) (startPageId : Nat) : Io C (Nat × Nat) :=
  match packLeaves codec leafOverflows entries with
  | [] => do
      writeLeafPage crc startPageId [] 0
      pure (startPageId, startPageId + 1)
  | leaves => do
      writeLeaves crc codec startPageId leaves
      patchLeaves crc startPageId (leaves.length - 1)
      buildInternalLevels crc (leafInfos codec startPageId leaves) (startPageId + leaves.length)

/-! ## Incremental rebuild -/

/-- `LeafEmitter`: one page is held back until its successor is known. -/
structure LeafEmitter where
  nextPage : Nat
  held : Option (Nat × Page)
  infos : List NodeInfo

def releaseHeld (held : Option (Nat × Page)) (nextLeaf : Nat) : Io C Unit :=
  match held with
  | none => pure ()
  | some (id, page) => do
      let page ← ofResult (withNextLeaf page nextLeaf)
      writeCached crc id page

def LeafEmitter.push (emitter : LeafEmitter) (page : Page) (firstKeyBytes : List UInt8) :
    Io C LeafEmitter := do
  releaseHeld crc emitter.held emitter.nextPage
  pure ⟨emitter.nextPage + 1, some (emitter.nextPage, page),
    emitter.infos ++ [(emitter.nextPage, firstKeyBytes)]⟩

def LeafEmitter.finish (emitter : LeafEmitter) : Io C (List NodeInfo × Nat) := do
  releaseHeld crc emitter.held 0
  pure (emitter.infos, emitter.nextPage)

def pushLeaves (emitter : LeafEmitter) :
    List ((K × FactRef) × List (K × FactRef)) → Io C LeafEmitter
  | [] => pure emitter
  | leaf :: leaves => do
      let page ← ofResult (encodeLeafPage (leafRecords codec leaf) 0)
      let emitter ← emitter.push crc page (codec.key.encode leaf.1.1)
      pushLeaves emitter leaves

/-- The size `emit_packed` fills leaves to: everything when one page holds it, else an
even share of the pages that `PAGE_FILL_BYTES` asks for. -/
def emitTarget (entries : List (K × FactRef)) : Nat :=
  let total := (entries.map fun e => (codec.entry.encode e).length + SLOT_SIZE).sum
  if LEAF_HEADER_SIZE + total ≤ PAGE_SIZE then total
  else
    let usable := PAGE_FILL_BYTES - LEAF_HEADER_SIZE
    let pages := (total + usable - 1) / usable
    (total + pages - 1) / pages

/-- Whether `emit_packed` closes a leaf before an entry. -/
def emitFull (target : Nat) (leaf : PageFill) (entryLen : Nat) : Bool :=
  decide (leaf.bytes + leaf.records * SLOT_SIZE + (entryLen + SLOT_SIZE) > target)

def emitPacked (emitter : LeafEmitter) (entries : List (K × FactRef)) : Io C LeafEmitter :=
  pushLeaves crc codec emitter (packLeaves codec (emitFull (emitTarget codec entries)) entries)

variable [LinearOrder K]

/-- The order `merge_sorted_vecs` merges entries by: key, then reference. -/
def entryLe (a b : K × FactRef) : Bool :=
  decide (a.1 < b.1) || (decide (a.1 = b.1) &&
    (decide (a.2.pageId < b.2.pageId) ||
      (decide (a.2.pageId = b.2.pageId) && decide (a.2.slotIndex ≤ b.2.slotIndex))))

def mergeSortedVecs (a b : List (K × FactRef)) : List (K × FactRef) := a.merge b entryLe

/-- The pending entries that belong to a leaf, below the first key of the next one, and
the later ones. -/
def routeBatch (upper : Option K) (pending : List (K × FactRef)) :
    List (K × FactRef) × List (K × FactRef) :=
  match upper with
  | none => (pending, [])
  | some upper => pending.span fun e => decide (e.1 < upper)

/-- One old leaf: without new entries it is copied, else it is decoded, merged and packed
again. -/
def rebuildLeaf (emitter : LeafEmitter) (page : Page) (firstKey : K)
    (batch : List (K × FactRef)) : Io C LeafEmitter :=
  if batch.isEmpty then emitter.push crc page (codec.key.encode firstKey)
  else do
    let old ← ofResult (readLeafEntries codec page)
    emitPacked crc codec emitter (mergeSortedVecs old batch)

/-- The loop over the old leaves. -/
def rebuildLeaves (emitter : LeafEmitter) :
    List (Page × K) → List (K × FactRef) → Io C LeafEmitter
  | [], _ => pure emitter
  | (page, firstKey) :: later, pending => do
      let route := routeBatch (later.head?.map Prod.snd) pending
      let emitter ← rebuildLeaf crc codec emitter page firstKey route.1
      rebuildLeaves emitter later route.2

/-- The old leaves that have entries, with their first keys. -/
def keyedLeaves (oldLeaves : List Page) : Except ErrorCode (List (Page × K)) := do
  let keyed ← oldLeaves.mapM fun page => do
    let key ← leafFirstKey codec page
    pure (key.map (page, ·))
  pure (keyed.filterMap id)

def rebuildBtreeIncremental (oldLeaves : List Page) (pending : List (K × FactRef))
    (startPageId : Nat) : Io C (Nat × Nat) := do
  let leaves ← ofResult (keyedLeaves codec oldLeaves)
  if leaves.isEmpty then buildBtree crc codec pending startPageId
  else do
    let emitter ← rebuildLeaves crc codec ⟨startPageId, none, []⟩ leaves pending
    let (infos, nextPage) ← emitter.finish crc
    buildInternalLevels crc infos nextPage

end Entries
end Build
end Minigraf
