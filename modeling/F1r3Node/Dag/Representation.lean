import F1r3Node.Casper.BlockMessage
import F1r3Node.Lib.AncestorSearch
import Mathlib.Data.List.AList

/-! # Block metadata and the DAG index

The index keeps one record per held block, and its maps are read off that record. A parent that a record lists need
not be held.
-/

namespace F1r3Node.Dag

open Shared Lib
open Casper (Justification)

/-- A `BTreeMap` from validators to stakes. -/
structure WeightMap where
  entries : List (Bytes × Int)
  sorted : entries.Pairwise fun a b => a.1 < b.1
  deriving DecidableEq

namespace WeightMap

def empty : WeightMap := ⟨[], .nil⟩

def get? (w : WeightMap) (validator : Bytes) : Option Int := w.entries.lookup validator

def getD (w : WeightMap) (validator : Bytes) (stake : Int) : Int := (w.get? validator).getD stake

end WeightMap

structure BlockMetadata where
  blockHash : Bytes
  parents : List Bytes
  sender : Bytes
  justifications : List Justification
  weightMap : WeightMap
  blockNumber : Int
  sequenceNumber : Int
  invalid : Bool
  mergeBase : Bytes
  deriving DecidableEq

/-- A block the index does not hold, with the method that asked for it, and an argument a method refuses. -/
inductive KvStoreError where
  | missingBlock (hash : Bytes) (context : String)
  | invalidArgument (message : String)
  | keyNotFound (message : String)
  deriving DecidableEq

structure KeyValueDagRepresentation where
  blocks : AList fun _ : Bytes => BlockMetadata
  hash_eq : ∀ hash metadata, blocks.lookup hash = some metadata → metadata.blockHash = hash
  number_nonneg : ∀ hash metadata, blocks.lookup hash = some metadata → 0 ≤ metadata.blockNumber
  parents_lower : ∀ hash metadata, blocks.lookup hash = some metadata → ∀ parent ∈ metadata.parents,
    ∀ parentMetadata, blocks.lookup parent = some parentMetadata → parentMetadata.blockNumber < metadata.blockNumber

namespace KeyValueDagRepresentation

variable (dag : KeyValueDagRepresentation)

def lookup (hash : Bytes) : Option BlockMetadata := dag.blocks.lookup hash

def lookupUnsafe (hash : Bytes) : Except KvStoreError BlockMetadata :=
  match dag.lookup hash with
  | some metadata => .ok metadata
  | none => .error (.missingBlock hash "lookup_unsafe")

def records : List BlockMetadata := dag.blocks.entries.map Sigma.snd

def invalidBlocks : List BlockMetadata := dag.records.filter (·.invalid)

variable {dag}

variable {metadata : BlockMetadata}

theorem mem_records :
    metadata ∈ dag.records ↔ dag.lookup metadata.blockHash = some metadata := by
  constructor
  · intro h
    obtain ⟨⟨hash, found⟩, hMem, rfl⟩ := List.mem_map.mp h
    have hLookup := AList.mem_lookup_iff.mpr hMem
    rw [lookup, dag.hash_eq hash found hLookup]
    exact hLookup
  · intro h
    exact List.mem_map.mpr ⟨_, AList.mem_lookup_iff.mp h, rfl⟩

theorem mem_invalidBlocks :
    metadata ∈ dag.invalidBlocks ↔ dag.lookup metadata.blockHash = some metadata ∧ metadata.invalid = true := by
  rw [invalidBlocks, List.mem_filter, mem_records]

variable {hash : Bytes}

theorem blockHash_of_lookup (h : dag.lookup hash = some metadata) :
    metadata.blockHash = hash :=
  dag.hash_eq hash metadata h

theorem blockNumber_nonneg (h : dag.lookup hash = some metadata) :
    0 ≤ metadata.blockNumber :=
  dag.number_nonneg hash metadata h

theorem lookupUnsafe_eq_ok {m : BlockMetadata} :
    dag.lookupUnsafe hash = .ok m ↔ dag.lookup hash = some m := by
  rw [lookupUnsafe]
  cases dag.lookup hash with
  | none => exact iff_of_false (by rintro ⟨⟩) (by rintro ⟨⟩)
  | some m' =>
    dsimp only
    rw [Except.ok.injEq, Option.some.injEq]

def ofRecords (records : List BlockMetadata) (hNodup : (records.map (·.blockHash)).Nodup)
    (hNonneg : ∀ m ∈ records, 0 ≤ m.blockNumber)
    (hLower : ∀ m ∈ records, ∀ m' ∈ records, m'.blockHash ∈ m.parents → m'.blockNumber < m.blockNumber) :
    KeyValueDagRepresentation where
  blocks := ⟨records.map fun m => ⟨m.blockHash, m⟩, by
    rw [List.NodupKeys, List.keys, List.map_map]
    exact hNodup⟩
  hash_eq hash metadata hLookup := by
    obtain ⟨m, -, hEq⟩ := List.mem_map.mp (AList.mem_lookup_iff.mp hLookup)
    obtain ⟨rfl, rfl⟩ := Sigma.mk.inj_iff.mp hEq
    rfl
  number_nonneg hash metadata hLookup := by
    obtain ⟨m, hm, hEq⟩ := List.mem_map.mp (AList.mem_lookup_iff.mp hLookup)
    obtain ⟨rfl, rfl⟩ := Sigma.mk.inj_iff.mp hEq
    exact hNonneg m hm
  parents_lower hash metadata hLookup parent hParent parentMetadata hLookup' := by
    obtain ⟨m, hm, hEq⟩ := List.mem_map.mp (AList.mem_lookup_iff.mp hLookup)
    obtain ⟨rfl, rfl⟩ := Sigma.mk.inj_iff.mp hEq
    obtain ⟨m', hm', hEq'⟩ := List.mem_map.mp (AList.mem_lookup_iff.mp hLookup')
    obtain ⟨rfl, rfl⟩ := Sigma.mk.inj_iff.mp hEq'
    exact hLower m hm m' hm' hParent

theorem records_ofRecords {records : List BlockMetadata} {hNodup : (records.map (·.blockHash)).Nodup}
    {hNonneg : ∀ m ∈ records, 0 ≤ m.blockNumber}
    {hLower : ∀ m ∈ records, ∀ m' ∈ records, m'.blockHash ∈ m.parents → m'.blockNumber < m.blockNumber} :
    (ofRecords records hNodup hNonneg hLower).records = records := by
  rw [KeyValueDagRepresentation.records, ofRecords, List.map_map]
  exact List.map_id records

variable (dag)

/-- Number and parents of a block are read together; the first of the two reads is the one that fails. -/
def heightAndParents (hash : Bytes) : Except KvStoreError (Int × List Bytes) :=
  match dag.lookup hash with
  | some metadata => .ok (metadata.blockNumber, metadata.parents)
  | none => .error (.missingBlock hash "block_number_unsafe")

theorem heightAndParents_eq_ok {number : Int} {parents : List Bytes} :
    dag.heightAndParents hash = .ok (number, parents) ↔
      ∃ m, dag.lookup hash = some m ∧ m.blockNumber = number ∧ m.parents = parents := by
  rw [heightAndParents]
  cases dag.lookup hash with
  | none => simp
  | some metadata => simp

def ancestry : Ancestry Bytes KvStoreError where
  lookup := dag.heightAndParents
  nodes := (dag.records.flatMap (·.parents)).toFinset
  mem_nodes := by
    intro n h ps hLook p hp
    obtain ⟨m, hm, -, rfl⟩ := dag.heightAndParents_eq_ok.mp hLook
    rw [List.mem_toFinset, List.mem_flatMap]
    refine ⟨m, mem_records.mpr ?_, hp⟩
    rw [blockHash_of_lookup hm]
    exact hm
  lower := by
    intro n h ps hLook p hp h' ps' hLook'
    obtain ⟨m, hm, rfl, rfl⟩ := dag.heightAndParents_eq_ok.mp hLook
    obtain ⟨m', hm', rfl, -⟩ := dag.heightAndParents_eq_ok.mp hLook'
    exact dag.parents_lower n m hm p hp m' hm'

def isDagAncestor (ancestor descendant : Bytes) : Except KvStoreError Bool :=
  dag.ancestry.isAncestor ancestor descendant

end KeyValueDagRepresentation

structure ProcessedDeploy where
  sig : Bytes
  isFailed : Bool
  deriving DecidableEq

/-- What finality and the selection of parents read of a block. -/
structure StoredBlock where
  blockHash : Bytes
  deploys : List ProcessedDeploy
  appliedFromScope : List Bytes
  deriving DecidableEq

structure KeyValueBlockStore where
  blocks : AList fun _ : Bytes => StoredBlock
  hash_eq : ∀ hash block, blocks.lookup hash = some block → block.blockHash = hash

namespace KeyValueBlockStore

def get (store : KeyValueBlockStore) (hash : Bytes) : Option StoredBlock := store.blocks.lookup hash

theorem blockHash_of_get {store : KeyValueBlockStore} {hash : Bytes} {block : StoredBlock}
    (h : store.get hash = some block) : block.blockHash = hash :=
  store.hash_eq hash block h

end KeyValueBlockStore

end F1r3Node.Dag
