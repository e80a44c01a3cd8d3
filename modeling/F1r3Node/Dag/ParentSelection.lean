import F1r3Node.Dag.Estimator

/-! # The selection of parents for a proposal

The latest messages are ordered with the head of the fork choice first, and the two caps of the shard leave out what
is too many or too deep.
-/

namespace F1r3Node.Dag

open Shared

structure Floor where
  hash : Bytes
  blockNumber : Int
  deriving DecidableEq

structure CasperShardConf where
  maxNumberOfParents : Int
  maxParentDepth : Int

namespace KeyValueDagRepresentation

variable (dag : KeyValueDagRepresentation)

def ownTestimony (validator hash : Bytes) : Option BlockMetadata := (dag.lookup hash).filter (·.sender = validator)

/-- Latest messages that are known to be invalid, are not held or are not the validator's own are left out. -/
def validLatestMessages (latestMessages : LatestMessages) : LatestMessages where
  entries := latestMessages.entries.filter fun entry =>
    !(dag.lookup entry.2).any (·.invalid) && (dag.ownTestimony entry.1 entry.2).isSome
  nodupKeys := latestMessages.nodupKeys.sublist List.filter_sublist

end KeyValueDagRepresentation

namespace ParentSelection

def unlimitedParents : Int := -1

def unlimitedDepth : Int := 2 ^ 31 - 1

def latestHashes (latestMessages : LatestMessages) : List Bytes := latestMessages.entries.map Sigma.snd

variable (dag : KeyValueDagRepresentation)

def higherFloor (floorOfBlock : Bytes → Option Floor) (highest : Option Floor) (hash : Bytes) : Option Floor :=
  match floorOfBlock hash with
  | none => highest
  | some floor => if highest.all (·.blockNumber < floor.blockNumber) then some floor else highest

def forkChoiceFloor (floorOfBlock : Bytes → Option Floor) (num : Int) (latestMessages : List Bytes)
    (approved : BlockMetadata) : Except KvStoreError BlockMetadata :=
  if num ≤ 0 then .ok approved
  else
    match latestMessages.foldl (higherFloor floorOfBlock) none with
    | none => .ok approved
    | some floor => if approved.blockNumber < floor.blockNumber then dag.lookupUnsafe floor.hash else .ok approved

/-- The distinct blocks of the latest messages, in the order a hash set happens to give them. -/
def parentBlocks (blockStore : KeyValueBlockStore) (latestMessages : LatestMessages) :
    Except KvStoreError (List StoredBlock) :=
  (latestHashes latestMessages).dedup.mapM fun hash =>
    match blockStore.get hash with
    | some block => .ok block
    | none => .error (.keyNotFound "parent block referenced by latest_messages missing from block_store")

def sortsBefore (ghostMainParent : Option Bytes) (a b : StoredBlock) : Bool :=
  let aMain := ghostMainParent = some a.blockHash
  let bMain := ghostMainParent = some b.blockHash
  aMain ∧ ¬ bMain ∨ (aMain ↔ bMain) ∧ a.blockHash ≤ b.blockHash

def covers (candidate other : StoredBlock) : Bool :=
  match dag.isDagAncestor other.blockHash candidate.blockHash with
  | .ok covers => covers
  | .error _ => false

def pruneDagCoveredParents (parents : List StoredBlock) : List StoredBlock :=
  if parents.length ≤ 1 then parents
  else
    match parents.find? fun candidate => candidate.deploys.isEmpty && parents.all (covers dag candidate) with
    | some candidate => [candidate]
    | none => parents

/-- The proposer's own latest message comes to the front when the cap would cut it off. -/
def promoteOwn (own? : Option Bytes) (cap : Nat) (parents : List StoredBlock) : List StoredBlock :=
  if cap < parents.length then
    match own?.bind fun own => parents.findIdx? (·.blockHash = own) with
    | none => parents
    | some idx => if cap ≤ idx then parents[idx]?.toList ++ parents.eraseIdx idx else parents
  else parents

def limitCount (own? : Option Bytes) (maxNumberOfParents : Int) (parents : List StoredBlock) : List StoredBlock :=
  if maxNumberOfParents = unlimitedParents then parents
  else
    let cap := (maxNumberOfParents % 2 ^ 64).toNat
    (promoteOwn own? cap parents).take cap

def limitDepth (maxParentDepth : Int) (parents : List StoredBlock) : Except KvStoreError (List StoredBlock) :=
  if maxParentDepth ≠ unlimitedDepth ∧ 1 < parents.length then do
    let parentsWithMeta ← parents.mapM fun b => do
      let metadata ← dag.lookupUnsafe b.blockHash
      return (b, metadata)
    let maxBlockNum := parentsWithMeta.foldl (fun (top : Int) p => max top p.2.blockNumber) 0
    return (parentsWithMeta.filter fun p => maxBlockNum - p.2.blockNumber ≤ maxParentDepth).map Prod.fst
  else .ok parents

def orderParents (conf : CasperShardConf) (approved : StoredBlock) (own? ghostMainParent : Option Bytes)
    (blocks : List StoredBlock) : Except KvStoreError (List StoredBlock) :=
  let sorted := blocks.insertionSort fun a b => sortsBefore ghostMainParent a b
  let unfiltered := if sorted.isEmpty then [approved] else sorted
  limitDepth dag conf.maxParentDepth
    (limitCount own? conf.maxNumberOfParents (pruneDagCoveredParents dag unfiltered))

structure Selection where
  tips : List Bytes
  parents : List StoredBlock

/-- The part of `compute_snapshot` that selects the parents. -/
def selectParents (conf : CasperShardConf) (blockStore : KeyValueBlockStore) (approved : StoredBlock)
    (approvedMetadata : BlockMetadata) (floorOfBlock : Bytes → Option Floor) (num : Int) (validatorId? : Option Bytes)
    (latestMessages : LatestMessages) : Except KvStoreError Selection := do
  let valid := dag.validLatestMessages latestMessages
  let blocks ← parentBlocks blockStore valid
  let floor ← forkChoiceFloor dag floorOfBlock num (latestHashes valid) approvedMetadata
  let choice ← Estimator.tipsWithLatestMessages dag floor valid conf.maxNumberOfParents (some conf.maxParentDepth)
  let own? := validatorId?.bind valid.lookup
  let parents ← orderParents dag conf approved own? choice.tips.head? blocks
  return { tips := choice.tips, parents }

end ParentSelection

end F1r3Node.Dag
