import F1r3Node.Casper.BlockDag
import F1r3Node.Merging.RelatedSets
import F1r3Node.Merging.UnavailableSplits

/-! # Merging the scope onto the base

The chains of the blocks in scope are deduplicated, held against what is settled and against the base, and resolved.
-/

namespace F1r3Node.Merging

open Shared Lib Casper

/-- The errors a merge can meet, those of the block index as their text. -/
inductive CasperError where
  | kvStoreError (error : KvStoreError)
  | historyError (error : HistoryError)
  | other (message : String)
  deriving DecidableEq

def costOptimalRejectionAlg (chain : DeployChainIndex) : Nat := chain.totalCost

/-- The arguments of a merge. The contents of a chain are shared, and the base comes with its history. -/
structure MergeInput where
  dag : KeyValueDagRepresentation
  base : Bytes
  index : (block : Bytes) → Except CasperError (BlockIndex block)
  contents : Bytes → Finset DeployIdWithCost → ChainContents
  history : BaseHistory HotStoreBinaryAction
  rejectionCostF : DeployChainIndex → Nat
  scope : Option (Finset Bytes)
  floorBlockNumber : Int
  deployLifespan : Int
  sigSettledInBase : Bytes → Except CasperError Bool
  sigSettledInFloor : Bytes → Except CasperError Bool
  baseLineageBlocks : Finset Bytes
  priorRejectionCounts : AList fun _ : Bytes => Nat
  codec : DatumCodec
  orders : HashOrders DeployChainIndex

namespace MergeInput

variable (input : MergeInput)

def contentsOf (chain : DeployChainIndex) : ChainContents := input.contents chain.sourceBlockHash chain.deploysWithCost

/-- With a scope, its blocks that are not on the main chain of the base; without one, the descendants. -/
def actualBlocks : Except CasperError (List Bytes) :=
  match input.scope with
  | some scopeBlocks =>
    ((partitionFallible (fun candidate => input.dag.isInMainChain candidate input.base)
      (scopeBlocks.sort (· ≤ ·))).map Prod.snd).mapError .kvStoreError
  | none => .ok ((input.dag.descendants input.base).sort (· ≤ ·))

def loadBlock (chains : List DeployChainIndex) (block : Bytes) : Except CasperError (List DeployChainIndex) := do
  let blockIndex ← input.index block
  return chains ++ blockIndex.deployChains

def loadChains (blocks : List Bytes) : Except CasperError (List DeployChainIndex) := blocks.foldlM input.loadBlock []

def stampPriorRejections (chain : DeployChainIndex) : DeployChainIndex :=
  { chain with
    priorRejections := chain.deploysWithCost.sup fun deploy =>
      (input.priorRejectionCounts.lookup deploy.deployId).getD 0 }

def checkedSigs (chains : List DeployChainIndex) : Finset Bytes :=
  (chains.flatMap fun chain => chain.userDeploys.sort (· ≤ ·)).toFinset

def settledSigs (chains : List DeployChainIndex) : Except CasperError (Finset Bytes) :=
  (partitionFallible input.sigSettledInBase ((checkedSigs chains).sort (· ≤ ·))).map fun (settled, _) =>
    settled.toFinset

end MergeInput

/-- For each deploy the number and hash of the block with its freshest copy. -/
abbrev LatestForDeploy := AList fun _ : Bytes => Int × Bytes

def i64Max : Int := 2 ^ 63 - 1

def seedSettled (settled : Finset Bytes) : LatestForDeploy :=
  (settled.sort (· ≤ ·)).foldl (fun latest sig => latest.insert sig (i64Max, [])) ∅

def isFresher (candidate best : Int × Bytes) : Bool :=
  candidate.1 > best.1 ∨ (candidate.1 = best.1 ∧ candidate.2 < best.2)

def updateLatest (candidate : Int × Bytes) (latest : LatestForDeploy) (deploy : DeployIdWithCost) : LatestForDeploy :=
  match latest.lookup deploy.deployId with
  | some best => if isFresher candidate best then latest.insert deploy.deployId candidate else latest
  | none => latest.insert deploy.deployId candidate

def updateLatestChain (latest : LatestForDeploy) (chain : DeployChainIndex) : LatestForDeploy :=
  (chain.deploysWithCost.sort (· ≤ ·)).foldl (updateLatest (chain.sourceBlockNumber, chain.sourceBlockHash)) latest

def latestForDeploy (settled : Finset Bytes) (chains : List DeployChainIndex) : LatestForDeploy :=
  chains.foldl updateLatestChain (seedSettled settled)

def pointsTo (latest : LatestForDeploy) (chain : DeployChainIndex) (id : Bytes) : Bool :=
  match latest.lookup id with
  | some best => chain.sourceBlockNumber = best.1 ∧ chain.sourceBlockHash = best.2
  | none => true

def isRetained (latest : LatestForDeploy) (chain : DeployChainIndex) : Bool :=
  ∀ deploy ∈ chain.deploysWithCost, pointsTo latest chain deploy.deployId

def collateralOf (latest : LatestForDeploy) (chain : DeployChainIndex) : List (Bytes × Bytes) :=
  ((chain.userDeploys.sort (· ≤ ·)).filter (pointsTo latest chain)).map (·, chain.sourceBlockHash)

def splitWindowClosedChains (deployWindows : DeployChainIndex → AList fun _ : Bytes => Int)
    (chains : List DeployChainIndex) (floorBlockNumber deployLifespan : Int) :
    List DeployChainIndex × List DeployChainIndex :=
  let earliestValidAfter := floorBlockNumber - deployLifespan
  chains.partition fun chain => (deployWindows chain).entries.all fun window => window.2 > earliestValidAfter

def partitionBaseConflicts (eventLog : DeployChainIndex → EventLogIndex) (scopeChains : List DeployChainIndex)
    (baseEventLog : EventLogIndex) : List DeployChainIndex × List DeployChainIndex :=
  scopeChains.partition fun chain => !areConflicting (eventLog chain) baseEventLog

/-- The chains on their way into the resolution, and what was set aside before it. -/
structure MergeSets where
  actualSeqAll : List DeployChainIndex
  lateSeqAll : List DeployChainIndex
  baseConflicting : List DeployChainIndex
  settledConflicting : List DeployChainIndex
  pinned : Finset DeployChainIndex
  checkedSigs : Finset Bytes
  settledSigs : Finset Bytes
  collateralLostPairs : List (Bytes × Bytes)

namespace MergeInput

variable (input : MergeInput)

def eventLog (chain : DeployChainIndex) : EventLogIndex := (input.contentsOf chain).eventLogIndex

def isSettledCommitted (chain : DeployChainIndex) : Except CasperError Bool :=
  if chain.userDeploys = ∅ then .ok false else (chain.userDeploys.sort (· ≤ ·)).allM input.sigSettledInFloor

def addLineageBlock (fold : EventLogIndexFold) (block : Bytes) : Except CasperError EventLogIndexFold := do
  let blockIndex ← input.index block
  (blockIndex.deployChains.foldlM (fun (fold : EventLogIndexFold) chain => fold.add (input.eventLog chain)) fold).mapError .historyError

def baseEventLog : Except CasperError EventLogIndex :=
  ((input.baseLineageBlocks.sort (· ≤ ·)).foldlM input.addLineageBlock .default).map EventLogIndexFold.finish

/-- Retained chains are settled, at odds with settled chains, late, at odds with the base, or ordinary. -/
def splitRetained (retained : List DeployChainIndex) (checked settled : Finset Bytes)
    (collateralLostPairs : List (Bytes × Bytes)) : Except CasperError MergeSets := do
  let (settledCommitted, ordinary) ← partitionFallible input.isSettledCommitted retained
  let settledLog ← (EventLogIndex.combineAll (settledCommitted.map input.eventLog)).mapError .historyError
  let (keptOrdinary, settledConflicting) := partitionBaseConflicts input.eventLog ordinary settledLog
  let (inWindow, windowRejected) := splitWindowClosedChains (fun chain => (input.contentsOf chain).deployWindows)
    keptOrdinary input.floorBlockNumber input.deployLifespan
  let baseEventLog ← input.baseEventLog
  let (actual, baseConflicting) := partitionBaseConflicts input.eventLog (inWindow.insertionSort (· ≤ ·)) baseEventLog
  return {
    actualSeqAll := (actual ++ settledCommitted).insertionSort (· ≤ ·)
    lateSeqAll := windowRejected.insertionSort (· ≤ ·)
    baseConflicting, settledConflicting
    pinned := settledCommitted.toFinset
    checkedSigs := checked
    settledSigs := settled
    collateralLostPairs }

def scopeChains : Except CasperError (List DeployChainIndex) := do
  let blocks ← input.actualBlocks
  let chains ← input.loadChains blocks
  return chains.map input.stampPriorRejections

def prepare : Except CasperError MergeSets := do
  let chains ← input.scopeChains
  let settled ← input.settledSigs chains
  let latest := latestForDeploy settled chains
  let (retained, dropped) := chains.partition (isRetained latest)
  input.splitRetained retained (checkedSigs chains) settled (dropped.flatMap (collateralOf latest))

def dependsFn (target source : DeployChainIndex) : Bool := depends (input.eventLog target) (input.eventLog source)

def mergeableChannelsFn (chain : DeployChainIndex) : NumberChannelsDiff := (input.eventLog chain).numberChannelsData

def stateChangesFn (chain : DeployChainIndex) : StateChange := (input.contentsOf chain).stateChanges

def computeBranchesFn (mergeSet : Finset DeployChainIndex) : Finset (Branch DeployChainIndex) :=
  let chains := input.orders.items.iter mergeSet
  let dependsMap := (computeDependsMapEventIndexed chains (chains.map input.eventLog)).getD ∅
  (gatherRelatedSets dependsMap).image Branch.mk

structure BranchDerived where
  userDeployIds : Finset Bytes
  combinedAllEventLog : EventLogIndex

def computeBranchDerived (branch : Branch DeployChainIndex) : Except HistoryError BranchDerived := do
  let chains := input.orders.items.iter branch.items
  let combinedUserEventLog ← EventLogIndex.combineAll (chains.map fun chain => (input.contentsOf chain).userEventLogIndex)
  let combinedSystemEventLog ← EventLogIndex.combineAll
    (chains.map fun chain => (input.contentsOf chain).systemEventLogIndex)
  let combinedAllEventLog ← EventLogIndex.combineAll [combinedUserEventLog, combinedSystemEventLog]
  return ⟨branch.items.biUnion DeployChainIndex.userDeploys, combinedAllEventLog⟩

def sharedDeployPairs (userDeployIds : List (Finset Bytes)) : List (Nat × Nat) :=
  ((userDeployIds.foldr (· ∪ ·) ∅).sort (· ≤ ·)).flatMap fun sig =>
    pairsOf ((List.range userDeployIds.length).filter fun i => sig ∈ (userDeployIds[i]?).getD ∅)

def computeConflictMapFn (branchesSet : Finset (Branch DeployChainIndex)) :
    Except HistoryError (RelationMap (Branch DeployChainIndex)) := do
  let branches := input.orders.branches.iter branchesSet
  let branchDerived ← branches.mapM input.computeBranchDerived
  let conflictMap :=
    (computeConflictMapEventIndexed branches (branchDerived.map BranchDerived.combinedAllEventLog)).getD ∅
  return (sharedDeployPairs (branchDerived.map BranchDerived.userDeployIds)).foldl (fun result pair =>
    match branches[pair.1]?, branches[pair.2]? with
    | some a, some b => (RelationMap.relate result a b).relate b a
    | _, _ => result) conflictMap

def resolveOnce (pinned : Finset DeployChainIndex) (actualSeq lateSeq : List DeployChainIndex) :
    Except HistoryError (ResolvedConflicts DeployChainIndex) :=
  resolveConflicts input.orders actualSeq lateSeq input.dependsFn input.rejectionCostF DeployChainIndex.priorRejections
    input.mergeableChannelsFn input.history.getData input.computeBranchesFn input.computeConflictMapFn pinned

def splitUnavailableFn (pinned : Finset DeployChainIndex) (resolved : ResolvedConflicts DeployChainIndex) :
    Except HistoryError SplitResult :=
  splitUnavailable input.codec input.history input.dependsFn input.mergeableChannelsFn input.stateChangesFn pinned
    resolved

variable {input}

variable (input) in
theorem exists_computeBranchesFn (mergeSet : Finset DeployChainIndex) :
    ∃ dependsMap : RelationMap DeployChainIndex,
      input.computeBranchesFn mergeSet = (gatherRelatedSets dependsMap).image Branch.mk ∧
      (∀ c, c ∈ dependsMap ↔ c ∈ mergeSet) ∧ (∀ a b, dependsMap.Related a b → dependsMap.Related b a) ∧
      ∀ a b, dependsMap.Related a b → b ∈ dependsMap := by
  set chains := input.orders.items.iter mergeSet with hChains
  set pairs := if chains.length < 2 then [] else dependsPairs (chains.map input.eventLog)
  obtain ⟨hKeys, hRelated⟩ := relationMap_spec chains pairs
  refine ⟨relationMap chains pairs, ?_, fun c => ?_, fun a b hab => ?_, fun a b hab => ?_⟩
  · rw [computeBranchesFn, computeDependsMapEventIndexed, if_neg (by simp)]
    rfl
  · rw [hKeys, hChains, HashOrder.mem_iter]
  · obtain ⟨i, j, hi, hj, hLinked⟩ := (hRelated a b).mp hab
    exact (hRelated b a).mpr ⟨j, i, hj, hi, hLinked.symm⟩
  · obtain ⟨i, j, -, hj, -⟩ := (hRelated a b).mp hab
    exact (hKeys b).mpr (List.mem_of_getElem? hj)

variable (input) in
theorem partitions_computeBranchesFn (mergeSet : Finset DeployChainIndex) :
    Partitions (input.computeBranchesFn mergeSet) mergeSet := by
  obtain ⟨dependsMap, hEq, hKeys, hSymm, hDomain⟩ := input.exists_computeBranchesFn mergeSet
  rw [hEq]
  constructor
  · intro c
    rw [← hKeys, ← exists_gatherRelatedSets_iff hDomain]
    simp
  · intro b hb b' hb' c hc hc'
    obtain ⟨s, hs, rfl⟩ := Finset.mem_image.mp hb
    obtain ⟨t, ht, rfl⟩ := Finset.mem_image.mp hb'
    rw [gatherRelatedSets_disjoint hSymm hs ht hc hc']

theorem ne_empty_of_mem_computeBranchesFn {mergeSet : Finset DeployChainIndex} {branch : Branch DeployChainIndex}
    (h : branch ∈ input.computeBranchesFn mergeSet) : branch.items ≠ ∅ := by
  obtain ⟨dependsMap, hEq, -⟩ := input.exists_computeBranchesFn mergeSet
  rw [hEq] at h
  obtain ⟨s, hs, rfl⟩ := Finset.mem_image.mp h
  exact ne_empty_of_mem_gatherRelatedSets hs

variable {resolved : ResolvedConflicts DeployChainIndex}

theorem mem_of_kept_resolveOnce {pinned : Finset DeployChainIndex} {actualSeq lateSeq : List DeployChainIndex}
    (h : input.resolveOnce pinned actualSeq lateSeq = .ok resolved)
    {c : DeployChainIndex} (hKept : resolved.Kept c) : c ∈ mergeSet actualSeq lateSeq input.dependsFn := by
  obtain ⟨conflictMap, base, hMap, hBase⟩ := exists_of_resolveConflicts_ok h
  rw [resolveOnce, resolveConflicts_eq_ok hMap hBase] at h
  obtain rfl := Except.ok.inj h
  obtain ⟨branch, hBranch, hIn⟩ := hKept
  refine ((input.partitions_computeBranchesFn _).cover c).mpr ⟨branch, ?_, hIn⟩
  exact input.orders.branches.mem_iter.mp (List.mem_of_mem_filter hBranch)

theorem subset_of_splitUnavailableFn {pinned : Finset DeployChainIndex} {actualSeq lateSeq : List DeployChainIndex}
    {split : SplitResult}
    (h : input.resolveOnce pinned actualSeq lateSeq = .ok resolved)
    (hSplit : input.splitUnavailableFn pinned resolved = .ok split) : split.rejected ⊆ actualSeq.toFinset := by
  intro c hc
  have hKept := (moves_splitUnavailable hSplit).kept_of_mem c hc
  exact (Finset.mem_filter.mp (mem_of_kept_resolveOnce h hKept)).1

variable (input)

/-- Chains that turn out to be unavailable are forced out and the rest is resolved again. -/
def resolveConflictsWithUnavailableRetry (sets : MergeSets) (forcedRejected : Finset DeployChainIndex) :
    Except HistoryError (ResolvedConflicts DeployChainIndex) :=
  match _hOnce : input.resolveOnce sets.pinned (sets.actualSeqAll.filter (· ∉ forcedRejected))
      (sets.lateSeqAll ++ forcedRejected.sort (· ≤ ·)) with
  | .error e => .error e
  | .ok resolved =>
    match _hSplit : input.splitUnavailableFn sets.pinned resolved with
    | .error e => .error e
    | .ok split =>
      if split.rejected ⊆ forcedRejected then .ok split.resolved
      else resolveConflictsWithUnavailableRetry sets (forcedRejected ∪ split.rejected)
termination_by (sets.actualSeqAll.toFinset \ forcedRejected).card
decreasing_by
  rename_i hNew
  obtain ⟨c, hc, hOut⟩ := Finset.not_subset.mp hNew
  have hActual := List.mem_toFinset.mp (subset_of_splitUnavailableFn _hOnce _hSplit hc)
  refine Finset.card_lt_card (Finset.ssubset_iff_of_subset ?_ |>.mpr ⟨c, ?_, ?_⟩)
  · exact Finset.sdiff_subset_sdiff subset_rfl Finset.subset_union_left
  · exact Finset.mem_sdiff.mpr ⟨List.mem_toFinset.mpr (List.mem_of_mem_filter hActual), hOut⟩
  · exact fun h => (Finset.mem_sdiff.mp h).2 (Finset.mem_union_right _ hc)

def resolveScope (sets : MergeSets) : Except CasperError (ResolvedConflicts DeployChainIndex) := do
  let resolved ← (input.resolveConflictsWithUnavailableRetry sets ∅).mapError .historyError
  return { resolved with
    rejected := resolved.rejected ∪ (sets.baseConflicting ++ sets.settledConflicting).toFinset }

def descendsRejected (rejectedBlocks : Finset Bytes) (block : Bytes) : Except KvStoreError Bool :=
  (rejectedBlocks.sort (· ≤ ·)).anyM fun rejectedBlock =>
    if rejectedBlock ≠ block then input.dag.isDagAncestor rejectedBlock block else .ok false

def isStale (pinned : Finset DeployChainIndex) (rejectedBlocks : Finset Bytes) (chain : DeployChainIndex) :
    Except KvStoreError Bool :=
  if chain ∈ pinned then .ok false else input.descendsRejected rejectedBlocks chain.sourceBlockHash

def expandBranch (pinned : Finset DeployChainIndex) (rejectedBlocks : Finset Bytes)
    (resolved : ResolvedConflicts DeployChainIndex) (branch : Branch DeployChainIndex) :
    Except KvStoreError (ResolvedConflicts DeployChainIndex) := do
  let (stale, kept) ← partitionFallible (input.isStale pinned rejectedBlocks) (branch.items.sort (· ≤ ·))
  return {
    toMerge := if kept.toFinset = ∅ then resolved.toMerge else resolved.toMerge ++ [⟨kept.toFinset⟩]
    rejected := resolved.rejected ∪ stale.toFinset }

/-- Chains of blocks that were built on the block of a rejected chain are rejected as well. -/
def expandLineage (pinned : Finset DeployChainIndex) (resolved : ResolvedConflicts DeployChainIndex) :
    Except KvStoreError (ResolvedConflicts DeployChainIndex) :=
  let rejectedBlocks := resolved.rejected.image DeployChainIndex.sourceBlockHash
  if rejectedBlocks = ∅ then .ok resolved
  else resolved.toMerge.foldlM (input.expandBranch pinned rejectedBlocks) ⟨[], resolved.rejected⟩

def appliedUserSigs (resolved : ResolvedConflicts DeployChainIndex) : Finset Bytes :=
  (resolved.toMerge.flatMap fun branch => (branch.items.biUnion DeployChainIndex.userDeploys).sort (· ≤ ·)).toFinset

def multiWriterChannels (resolved : ResolvedConflicts DeployChainIndex) : Finset Bytes :=
  let writes := resolved.toMerge.flatMap fun branch => (branch.items.sort (· ≤ ·)).flatMap fun chain =>
    ((input.stateChangesFn chain).datumsChanges.entries.filter fun entry => entry.2.added ≠ []).map Sigma.fst
  writes.toFinset.filter fun channel => 1 < writes.count channel

def mergedState (resolved : ResolvedConflicts DeployChainIndex) : Except MergeFailure Bytes :=
  computeMergedState input.codec input.history resolved input.stateChangesFn input.mergeableChannelsFn
    (input.multiWriterChannels resolved)

def duplicateOf (sets : MergeSets) (applied : Finset Bytes) (sig : Bytes) : Except CasperError Bool :=
  if sig ∈ applied ∨ sig ∈ sets.settledSigs then .ok true
  else if sig ∈ sets.checkedSigs then .ok false
  else input.sigSettledInBase sig

def recordOf (sets : MergeSets) (applied : Finset Bytes) (pair : Bytes × Bytes) : Except CasperError RejectedDeploy := do
  let duplicate ← input.duplicateOf sets applied pair.1
  return ⟨pair.1, duplicate, pair.2⟩

def rejectedPairs (rejected : Finset DeployChainIndex) : List (Bytes × Bytes) :=
  (rejected.sort (· ≤ ·)).flatMap fun chain =>
    (chain.deploysWithCost.sort (· ≤ ·)).map fun deploy => (deploy.deployId, chain.sourceBlockHash)

def rejectedUserDeploys (sets : MergeSets) (resolved : ResolvedConflicts DeployChainIndex) :
    Except CasperError (List RejectedDeploy) := do
  let applied := appliedUserSigs resolved
  let records ← ((rejectedPairs resolved.rejected).filter fun pair => !isSystemDeployId pair.1).mapM
    (input.recordOf sets applied)
  let collateral ← (sets.collateralLostPairs.filter fun pair => pair.1 ∉ records.map RejectedDeploy.sig).mapM
    (input.recordOf sets applied)
  return records ++ collateral

structure MergeOutcome where
  newState : Bytes
  rejectedUserDeploys : List RejectedDeploy
  rejectedSlashes : List (Bytes × Bytes)
  appliedUserSigs : Finset Bytes

def recordKey (record : RejectedDeploy) : Bytes ×ₗ Bool ×ₗ Bytes :=
  toLex (record.sig, toLex (record.duplicate, record.carrier))

def finishMerge (sets : MergeSets) (resolved : ResolvedConflicts DeployChainIndex) : Except CasperError MergeOutcome := do
  let newState ← (input.mergedState resolved).mapError fun e => .historyError e.toHistoryError
  let records ← input.rejectedUserDeploys sets resolved
  return {
    newState
    rejectedUserDeploys := records.insertionSort fun a b => recordKey a ≤ recordKey b
    rejectedSlashes := ((rejectedPairs resolved.rejected).filter fun pair => isSlashDeployId pair.1).insertionSort
      fun a b => toLex a ≤ toLex b
    appliedUserSigs := appliedUserSigs resolved }

def merge : Except CasperError MergeOutcome := do
  let sets ← input.prepare
  let resolved ← input.resolveScope sets
  let expanded ← (input.expandLineage sets.pinned resolved).mapError .kvStoreError
  input.finishMerge sets expanded

end MergeInput

end F1r3Node.Merging
