import F1r3Node.Dag.Representation
import F1r3Node.Lib.Stateful

/-! # The DAG storage

One record holds the persistent tables together with the state in memory. A call that fails leaves behind what it
wrote before; which reads and writes fail is decided by the environment.
-/

/-! ## The tables of deploy signatures

Two tables are filled from the bodies of inserted blocks. The carrier index names the blocks that carry a
signature; its rows are dropped by height. The lifecycle table collects the inclusions and rejections of a
signature until a terminal record closes it.
-/

namespace F1r3Node.DagStorage

open Shared

structure ProcessedDeploy where
  sig : Bytes
  validAfterBlockNumber : Int64
  isFailed : Bool
  deriving DecidableEq

structure CarrierEntry where
  height : Int
  blockHash : Bytes
  deriving DecidableEq

structure CarrierIndex where
  carriers : Bytes → Option (List CarrierEntry)
  watermark : Option Int
  lastPrune : Option Int

namespace CarrierIndex

def pruneStride : Int := 64

def row (index : CarrierIndex) (sig : Bytes) : List CarrierEntry := (index.carriers sig).getD []

def recordOnce (index : CarrierIndex) (sig : Bytes) (height : Int) (blockHash : Bytes) : CarrierIndex :=
  if (index.row sig).any (·.blockHash = blockHash) then index
  else { index with carriers := Function.update index.carriers sig (some (index.row sig ++ [⟨height, blockHash⟩])) }

def provesAbsence (index : CarrierIndex) (sig : Bytes) : Bool := (index.row sig).isEmpty

def setWatermarkIfAbsent (index : CarrierIndex) (w : Int) : CarrierIndex :=
  match index.watermark with
  | some _ => index
  | none => { index with watermark := some w }

/-- The walk over the table is skipped until the cutoff is a stride above the last one. -/
def pruneBelow (index : CarrierIndex) (cutoff : Int) : CarrierIndex :=
  if index.lastPrune.any (cutoff < · + pruneStride) then index
  else
    { index with
      carriers := fun sig => (index.carriers sig).bind fun row =>
        let kept := row.filter (cutoff ≤ ·.height)
        if kept.length = row.length then some row else if kept.isEmpty then none else some kept
      lastPrune := some cutoff }

end CarrierIndex

inductive LifecycleEventKind where
  | included (isFailed : Bool)
  | rejected (duplicate : Bool)
  deriving DecidableEq

def LifecycleEventKind.sameKind : LifecycleEventKind → LifecycleEventKind → Bool
  | .included _, .included _ => true
  | .rejected _, .rejected _ => true
  | _, _ => false

structure LifecycleEvent where
  height : Int
  blockHash : Bytes
  kind : LifecycleEventKind
  deriving DecidableEq

structure LifecycleEvents where
  validAfter : Option Int64
  events : List LifecycleEvent
  deriving DecidableEq

structure DeployLifecycleTables where
  events : Bytes → Option LifecycleEvents
  terminal : Bytes → Bool

namespace DeployLifecycleTables

def appendEvents (tables : DeployLifecycleTables) (sig : Bytes) (validAfter : Option Int64)
    (newEvents : List LifecycleEvent) : DeployLifecycleTables :=
  if tables.terminal sig then tables
  else
    let row := (tables.events sig).getD ⟨none, []⟩
    { tables with
      events := Function.update tables.events sig
        (some ⟨row.validAfter.or validAfter, row.events ++ newEvents⟩) }

def appendEventOnce (tables : DeployLifecycleTables) (sig : Bytes) (validAfter : Option Int64)
    (event : LifecycleEvent) : DeployLifecycleTables :=
  let duplicate := (tables.events sig).any fun row =>
    row.events.any fun e => e.blockHash = event.blockHash && e.kind.sameKind event.kind
  if duplicate then tables else tables.appendEvents sig validAfter [event]

end DeployLifecycleTables

end F1r3Node.DagStorage

namespace F1r3Node.DagStorage

open Shared Dag
open Casper (BlockMessage Bond)

/-- A record with the marks that finalization puts on it. -/
structure MetadataRow where
  metadata : BlockMetadata
  directlyFinalized : Bool
  finalized : Bool
  deriving DecidableEq

structure BlockDagStorage where
  metadataStore : Bytes → Option MetadataRow
  -- in memory: every hash of the DAG, the valid blocks by height, and the bounded cache of finalized hashes
  dagSet : Finset Bytes
  heightMap : Int → List Bytes
  lastFinalizedBlock : Bytes × Int
  finalizedBlockSet : Finset Bytes
  invalidBlocksIndex : Bytes → Option BlockMetadata
  latestMessagesIndex : AList fun _ : Bytes => Bytes
  genesisHashIndex : Option Bytes
  carrierIndex : CarrierIndex
  lifecycle : DeployLifecycleTables

inductive StoreError where
  | invalidArgument (message : String) (hash : Bytes)
  | keyNotFound (message : String) (hash : Bytes)
  | ioError (table : String)
  deriving DecidableEq

/-- The reads of one call that fail and are answered with a default. -/
structure SilentFaults where
  latestMessage : Bool
  slotMetadata : Bool
  containsKey : Bytes → Bool

/-- The reads and writes of one call that fail and end it. -/
structure StoreFaults where
  carriers : Bytes → Bool
  lifecycle : Bytes → Bool
  metadata : Bool
  invalidBlocks : Bool
  genesisHash : Bool
  latestMessages : Bool
  finalizedRead : Bool
  finalizedWrite : Bool
  representation : Bool

def SilentFaults.none : SilentFaults := ⟨false, false, fun _ => false⟩

def StoreFaults.none : StoreFaults :=
  ⟨fun _ => false, fun _ => false, false, false, false, false, false, false, false⟩

inductive InsertMode where
  | normal
  | invalid
  | approved
  | settledHistory
  deriving DecidableEq

structure HashOrder where
  toList : Finset Bytes → List Bytes
  nodup : ∀ hashes, (toList hashes).Nodup
  mem_toList : ∀ hashes h, h ∈ toList hashes ↔ h ∈ hashes

/-- Some order, with the empty set evaluated. -/
noncomputable def HashOrder.ofToList : HashOrder where
  toList hashes := if hashes = ∅ then [] else hashes.toList
  nodup hashes := by
    split
    · exact List.nodup_nil
    · exact Finset.nodup_toList hashes
  mem_toList hashes h := by
    split
    · next hEmpty => simp [hEmpty]
    · exact Finset.mem_toList

def sortHashes (hashes : Multiset Bytes) : List Bytes :=
  Quotient.liftOn hashes (fun l => l.insertionSort fun a b : Bytes => a ≤ b) fun l l' h => by
    refine List.Perm.eq_of_pairwise (fun a b _ _ hab hba => List.le_antisymm hab hba) (List.pairwise_insertionSort _ _)
      (List.pairwise_insertionSort _ _) ?_
    exact ((List.perm_insertionSort _ l).trans h).trans (List.perm_insertionSort _ l').symm

theorem coe_sortHashes (hashes : Multiset Bytes) : (sortHashes hashes : Multiset Bytes) = hashes := by
  induction hashes using Quotient.inductionOn with
  | h l => exact Quotient.sound (List.perm_insertionSort _ l)

def HashOrder.ascending : HashOrder where
  toList hashes := sortHashes hashes.val
  nodup hashes := by
    rw [← Multiset.coe_nodup, coe_sortHashes]
    exact hashes.nodup
  mem_toList hashes h := by
    rw [← Multiset.mem_coe, coe_sortHashes]
    rfl

abbrev StorageM := EStateM StoreError BlockDagStorage

def failIf (fails : Bool) (table : String) : StorageM Unit := if fails then throw (.ioError table) else pure ()

/-- `BTreeMap::insert` on the entries. -/
def insertEntry (validator : Bytes) (stake : Int) : List (Bytes × Int) → List (Bytes × Int)
  | [] => [(validator, stake)]
  | (v, s) :: entries =>
    if validator < v then (validator, stake) :: (v, s) :: entries
    else if v < validator then (v, s) :: insertEntry validator stake entries
    else (validator, stake) :: entries

theorem forall_mem_insertEntry {validator : Bytes} {stake : Int} {entries : List (Bytes × Int)} {p : Bytes → Prop}
    (hNew : p validator) (h : ∀ entry ∈ entries, p entry.1) : ∀ entry ∈ insertEntry validator stake entries, p entry.1 := by
  induction entries with
  | nil => simpa [insertEntry] using hNew
  | cons head entries ih =>
    obtain ⟨hHead, hTail⟩ := List.forall_mem_cons.mp h
    rw [insertEntry]
    split
    · exact List.forall_mem_cons.mpr ⟨hNew, h⟩
    · split
      · exact List.forall_mem_cons.mpr ⟨hHead, ih hTail⟩
      · exact List.forall_mem_cons.mpr ⟨hNew, hTail⟩

theorem sorted_insertEntry (validator : Bytes) (stake : Int) {entries : List (Bytes × Int)}
    (h : entries.Pairwise fun a b => a.1 < b.1) : (insertEntry validator stake entries).Pairwise fun a b => a.1 < b.1 := by
  induction entries with
  | nil => exact List.pairwise_singleton _ _
  | cons head entries ih =>
    obtain ⟨hHead, hTail⟩ := List.pairwise_cons.mp h
    rw [insertEntry]
    split
    · next hLt =>
      refine List.pairwise_cons.mpr ⟨?_, h⟩
      exact List.forall_mem_cons.mpr ⟨hLt, fun entry hMem => List.lt_trans hLt (hHead entry hMem)⟩
    · next hNotLt =>
      split
      · next hGt => exact List.pairwise_cons.mpr ⟨forall_mem_insertEntry hGt hHead, ih hTail⟩
      · next hNotGt =>
        obtain rfl : validator = head.1 := List.le_antisymm hNotGt hNotLt
        exact List.pairwise_cons.mpr ⟨hHead, hTail⟩

def WeightMap.insert (w : WeightMap) (validator : Bytes) (stake : Int) : WeightMap :=
  ⟨insertEntry validator stake w.entries, sorted_insertEntry validator stake w.sorted⟩

def WeightMap.ofBonds (bonds : List Bond) : WeightMap :=
  bonds.foldl (fun w bond => WeightMap.insert w bond.validator bond.stake.toInt) Dag.WeightMap.empty

variable {S : Type}

def metadataFromBlock (block : BlockMessage ProcessedDeploy S) (invalid : Bool) : BlockMetadata where
  blockHash := block.blockHash
  parents := block.header.parentsHashList
  sender := block.sender
  justifications := block.justifications
  weightMap := WeightMap.ofBonds block.body.state.bonds
  blockNumber := block.body.state.blockNumber.toInt
  sequenceNumber := block.seqNum.toInt
  invalid := invalid
  mergeBase := block.body.mergeBase

namespace BlockDagStorage

def empty : BlockDagStorage where
  metadataStore _ := none
  dagSet := ∅
  heightMap _ := []
  lastFinalizedBlock := ([], 0)
  finalizedBlockSet := ∅
  invalidBlocksIndex _ := none
  latestMessagesIndex := ∅
  genesisHashIndex := none
  carrierIndex := ⟨fun _ => none, none, none⟩
  lifecycle := ⟨fun _ => none, fun _ => false⟩

variable (s : BlockDagStorage)

def lookup (hash : Bytes) : Option BlockMetadata :=
  if hash ∈ s.dagSet then (s.metadataStore hash).map (·.metadata) else none

def contains (hash : Bytes) : Bool := hash.length = 32 && hash ∈ s.dagSet

def latestMessageHash (validator : Bytes) : Option Bytes := s.latestMessagesIndex.lookup validator

def isFinalized (hash : Bytes) : Bool := hash ∈ s.finalizedBlockSet || (s.metadataStore hash).any (·.finalized)

def knownGenesis : Option Bytes := s.genesisHashIndex.or (sortByKey id (s.heightMap 0)).head?

def recordCarriers (block : BlockMessage ProcessedDeploy S) (pd : ProcessedDeploy) : BlockDagStorage :=
  { s with
    carrierIndex := s.carrierIndex.recordOnce pd.sig block.body.state.blockNumber.toInt block.blockHash }

def appendLifecycle (block : BlockMessage ProcessedDeploy S) (sig : Bytes) (validAfter : Option Int64)
    (kind : LifecycleEventKind) : BlockDagStorage :=
  { s with
    lifecycle := s.lifecycle.appendEventOnce sig validAfter
      ⟨block.body.state.blockNumber.toInt, block.blockHash, kind⟩ }

def addToDagState (metadata : BlockMetadata) : BlockDagStorage :=
  { s with
    dagSet := insert metadata.blockHash s.dagSet
    heightMap :=
      if metadata.invalid then s.heightMap
      else Function.update s.heightMap metadata.blockNumber
        ((s.heightMap metadata.blockNumber).insert metadata.blockHash) }

def putMetadata (metadata : BlockMetadata) : BlockDagStorage :=
  { s with metadataStore := Function.update s.metadataStore metadata.blockHash (some ⟨metadata, false, false⟩) }

def putInvalid (metadata : BlockMetadata) : BlockDagStorage :=
  { s with invalidBlocksIndex := Function.update s.invalidBlocksIndex metadata.blockHash (some metadata) }

def putLatestMessages (updates : List (Bytes × Bytes)) : BlockDagStorage :=
  { s with
    latestMessagesIndex := updates.foldl (fun index update => index.insert update.1 update.2) s.latestMessagesIndex }

end BlockDagStorage

def finalizedBlockCacheMax : Nat := 50000
def finalizedBlockCacheRetain : Nat := 25000

def pruneFinalizedCacheIfNeeded (order : HashOrder) (cache : Finset Bytes) : Finset Bytes :=
  if cache.card ≤ finalizedBlockCacheMax then cache
  else cache \ ((order.toList cache).take (cache.card - finalizedBlockCacheRetain)).toFinset

def BlockDagStorage.finalizeInMemory (s : BlockDagStorage) (order : HashOrder) (directly : Bytes) (blockNumber : Int)
    (indirectly : Finset Bytes) : BlockDagStorage :=
  { s with
    finalizedBlockSet := pruneFinalizedCacheIfNeeded order (insert directly (s.finalizedBlockSet ∪ indirectly))
    lastFinalizedBlock :=
      if s.lastFinalizedBlock.2 ≤ blockNumber then (directly, blockNumber) else s.lastFinalizedBlock }

def BlockDagStorage.putFinalized (s : BlockDagStorage) (directly : Bytes) (indirectly : Finset Bytes) :
    BlockDagStorage :=
  { s with
    metadataStore := fun hash => (s.metadataStore hash).map fun row =>
      if hash = directly then { row with finalized := true, directlyFinalized := true }
      else if hash ∈ indirectly then { row with finalized := true }
      else row }

end F1r3Node.DagStorage
