import F1r3Node.Dag.Representation
import F1r3Node.Lib.Fallible

/-! # The fork-choice estimator

Weights are credited to the main parents of the latest messages; the head is found by going up again to the heaviest
child. A hash set or map that is iterated stands as a list in any order.
-/

namespace F1r3Node.Dag

open Shared

namespace KeyValueDagRepresentation

variable (dag : KeyValueDagRepresentation)

def mainParent (hash : Bytes) : Option Bytes := (dag.lookup hash).bind (·.parents.head?)

def children (hash : Bytes) : List Bytes := (dag.records.filter fun m => hash ∈ m.parents).map (·.blockHash)

def latestBlockNumber : Int :=
  match ((dag.records.filter (!·.invalid)).map (·.blockNumber)).max? with
  | none => 0
  | some top => top + 1

def weightFromValidatorByDag (blockHash validator : Bytes) : Except KvStoreError Int :=
  match dag.lookup blockHash with
  | none => .error (.missingBlock blockHash "weight_from_validator_by_dag: traversed block")
  | some metadata =>
    match metadata.parents.head? with
    | none => .ok (metadata.weightMap.getD validator 0)
    | some parentHash =>
      match dag.lookup parentHash with
      | none => .error (.missingBlock parentHash "weight_from_validator_by_dag: main parent")
      | some parentMetadata => .ok (parentMetadata.weightMap.getD validator 0)

end KeyValueDagRepresentation

/-- The order of a `BTreeSet` of blocks with the highest number first, and of these the largest hash. -/
def precedes (a b : BlockMetadata) : Bool :=
  b.blockNumber < a.blockNumber ∨ a.blockNumber = b.blockNumber ∧ b.blockHash < a.blockHash

def insertDescending (m : BlockMetadata) : List BlockMetadata → List BlockMetadata
  | [] => [m]
  | a :: rest =>
    if a.blockNumber = m.blockNumber ∧ a.blockHash = m.blockHash then a :: rest
    else if precedes m a then m :: a :: rest
    else a :: insertDescending m rest

def insertAllDescending (ms current : List BlockMetadata) : List BlockMetadata :=
  ms.foldl (fun set m => insertDescending m set) current

namespace KeyValueDagRepresentation

variable (dag : KeyValueDagRepresentation)

/-- The highest block gives way to its parents until one block is left or all are down at the floor. -/
def lucaLoop (floor : BlockMetadata) : Nat → List BlockMetadata → Except KvStoreError BlockMetadata
  | _, [] => .error (.keyNotFound "No common ancestor found")
  | _, [last] => .ok last
  | 0, _ => .error (.invalidArgument "out of fuel")
  | fuel + 1, head :: tail =>
    if head.blockNumber ≤ floor.blockNumber then .ok floor
    else do
      let parents ← head.parents.mapM dag.lookupUnsafe
      lucaLoop floor fuel (insertAllDescending parents tail)

def lowestUniversalCommonAncestorMany (blocks : List BlockMetadata) (floor : BlockMetadata) :
    Except KvStoreError BlockMetadata :=
  match blocks with
  | [] => .error (.invalidArgument "Cannot compute LUCA for an empty block set")
  | [block] => .ok block
  | blocks => dag.lucaLoop floor dag.records.length (insertAllDescending blocks [])

end KeyValueDagRepresentation

abbrev LatestMessages := AList fun _ : Bytes => Bytes

abbrev Scores := AList fun _ : Bytes => Int

structure ForkChoice where
  tips : List Bytes
  scores : Scores
  lca : Bytes
  deriving DecidableEq

namespace Estimator

def unlimitedParents : Int := 2 ^ 31 - 1

def latestMessageMaxDepth : Int := 1000

def scoreOverflow : KvStoreError :=
  .invalidArgument ("fork-choice score overflow: cumulative validator weight exceeds i64 " ++
    "(total bonded stake must be ≤ i64::MAX by the supply cap)")

variable (dag : KeyValueDagRepresentation)

def heldLatestMessages (latestMessages : LatestMessages) : List (Bytes × Bytes) :=
  (latestMessages.entries.map fun entry => (entry.1, entry.2)).filter fun entry =>
    match dag.lookup entry.2 with
    | none => false
    | some metadata => !metadata.invalid

def recentLatestMessages (latestMessages : List (Bytes × Bytes)) : List BlockMetadata :=
  (latestMessages.filterMap fun entry => dag.lookup entry.2).filter
    fun message => dag.latestBlockNumber - latestMessageMaxDepth < message.blockNumber

def calculateLca (floor : BlockMetadata) (latestMessages : List (Bytes × Bytes)) : Except KvStoreError Bytes :=
  match recentLatestMessages dag latestMessages with
  | [] => .ok floor.blockHash
  | recent => do
    let luca ← dag.lowestUniversalCommonAncestorMany recent floor
    return luca.blockHash

def addScore (scores : Scores) (hash : Bytes) (weight : Int) : Except KvStoreError Scores :=
  let sum := (scores.lookup hash).getD 0 + weight
  if sum < -2 ^ 63 ∨ 2 ^ 63 ≤ sum then .error scoreOverflow else .ok (scores.insert hash sum)

def hashParents (hash : Bytes) (lcaBlockNumber : Int) : Except KvStoreError (List Bytes) := do
  let metadata ← dag.lookupUnsafe hash
  return if metadata.blockNumber < lcaBlockNumber then [] else metadata.parents.take 1

def addWeightLoop (validator : Bytes) (lcaBlockNum : Int) :
    Nat → List Bytes → List Bytes → Scores → Except KvStoreError Scores
  | _, _, [], scores => .ok scores
  | 0, _, _, _ => .error (.invalidArgument "out of fuel")
  | fuel + 1, visited, hash :: queue, scores =>
    if hash ∈ visited then addWeightLoop validator lcaBlockNum fuel visited queue scores
    else do
      let validatorWeight ← dag.weightFromValidatorByDag hash validator
      let scores ← addScore scores hash validatorWeight
      let parents ← hashParents dag hash lcaBlockNum
      addWeightLoop validator lcaBlockNum fuel (hash :: visited)
        (queue ++ parents.filter (· ∉ hash :: visited)) scores

def addValidatorWeightDownSupportingChain (lowestCommonAncestor : Bytes) (scores : Scores)
    (message : Bytes × Bytes) : Except KvStoreError Scores := do
  let lca ← dag.lookupUnsafe lowestCommonAncestor
  addWeightLoop dag message.1 lca.blockNumber (dag.records.length + 1) [] [message.2] scores

def buildScoresMap (latestMessages : List (Bytes × Bytes)) (lowestCommonAncestor : Bytes) :
    Except KvStoreError Scores :=
  latestMessages.foldlM (addValidatorWeightDownSupportingChain dag lowestCommonAncestor) ∅

def score (scores : Scores) (hash : Bytes) : Int := (scores.lookup hash).getD 0

def ranksBefore (scores : Scores) (a b : Bytes) : Bool :=
  score scores b < score scores a ∨ score scores a = score scores b ∧ a ≤ b

def sortByWithDecreasingOrder (list : List Bytes) (scores : Scores) : List Bytes :=
  list.insertionSort fun a b => ranksBefore scores a b

def scoredMainChildren (block : Bytes) (scores : Scores) : List Bytes :=
  (dag.children block).filter fun child => child ∈ scores ∧ dag.mainParent child = some block

def descend (scores : Scores) : Nat → Bytes → Bytes
  | 0, head => head
  | fuel + 1, head =>
    match sortByWithDecreasingOrder (scoredMainChildren dag head scores) scores with
    | [] => head
    | heaviest :: _ => descend scores fuel heaviest

def rankForkchoices (lca : Bytes) (latestMessages : List (Bytes × Bytes)) (scores : Scores) : List Bytes :=
  let head := descend dag scores dag.records.length lca
  let frontier := ((latestMessages.map Prod.snd).filter fun hash =>
    hash ≠ head ∧ (scoredMainChildren dag hash scores).isEmpty).dedup
  head :: sortByWithDecreasingOrder frontier scores

def filterDeepParents (rankedLatestHashes : List Bytes) (maxParentDepth? : Option Int) :
    Except KvStoreError (List Bytes) :=
  match maxParentDepth? with
  | none => .ok rankedLatestHashes
  | some maxParentDepth =>
    match rankedLatestHashes with
    | [] => .error (.invalidArgument "consensus invariant: rank_forkchoices returned no tips (genesis-only DAG?)")
    | mainHash :: secondaryHashes => do
      let main ← dag.lookupUnsafe mainHash
      let secondaryParents ← secondaryHashes.mapM dag.lookupUnsafe
      let shallowParents := secondaryParents.filter fun p => main.blockNumber - p.blockNumber ≤ maxParentDepth
      return mainHash :: shallowParents.map (·.blockHash)

def tipsWithLatestMessages (floor : BlockMetadata) (latestMessagesHashes : LatestMessages) (maxNumberOfParents : Int)
    (maxParentDepth? : Option Int) : Except KvStoreError ForkChoice := do
  let latestMessages := heldLatestMessages dag latestMessagesHashes
  let lca ← calculateLca dag floor latestMessages
  let scores ← buildScoresMap dag latestMessages lca
  let ranked := rankForkchoices dag lca latestMessages scores
  let rankedShallow ← filterDeepParents dag ranked maxParentDepth?
  let tips := if maxNumberOfParents < 0 ∨ maxNumberOfParents = unlimitedParents then rankedShallow
    else rankedShallow.take maxNumberOfParents.toNat
  return { tips, scores, lca }

end Estimator

end F1r3Node.Dag
