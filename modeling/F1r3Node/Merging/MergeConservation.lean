import F1r3Node.Merging.DagMergerSpec

/-! # No deploy is lost or applied twice

Every user deploy of a block in scope is settled in the base, applied or on record, and a deploy is
applied from one chain at most.
-/

namespace F1r3Node.Merging

open Shared Lib Casper

namespace MergeInput

variable {input : MergeInput}

variable {resolved : ResolvedConflicts DeployChainIndex} {sig : Bytes}

theorem mem_appliedUserSigs :
    sig ∈ appliedUserSigs resolved ↔ ∃ chain, resolved.Kept chain ∧ sig ∈ chain.userDeploys := by
  rw [appliedUserSigs, List.mem_toFinset, List.mem_flatMap]
  constructor
  · rintro ⟨branch, hBranch, hSig⟩
    obtain ⟨chain, hChain, hSig⟩ := Finset.mem_biUnion.mp ((Finset.mem_sort _).mp hSig)
    exact ⟨chain, ⟨branch, hBranch, hChain⟩, hSig⟩
  · rintro ⟨chain, ⟨branch, hBranch, hChain⟩, hSig⟩
    exact ⟨branch, hBranch, (Finset.mem_sort _).mpr (Finset.mem_biUnion.mpr ⟨chain, hChain, hSig⟩)⟩

theorem mem_rejectedPairs {rejected : Finset DeployChainIndex} {pair : Bytes × Bytes} :
    pair ∈ (rejectedPairs rejected).filter (fun pair => !isSystemDeployId pair.1) ↔
      ∃ chain ∈ rejected, pair.1 ∈ chain.userDeploys ∧ pair.2 = chain.sourceBlockHash := by
  simp only [rejectedPairs, List.mem_filter, List.mem_flatMap, Finset.mem_sort, List.mem_map,
    DeployChainIndex.mem_userDeploys, Bool.not_eq_true']
  constructor
  · rintro ⟨⟨chain, hChain, deploy, hDeploy, rfl⟩, hUser⟩
    exact ⟨chain, hChain, ⟨⟨deploy, hDeploy, rfl⟩, hUser⟩, rfl⟩
  · rintro ⟨chain, hChain, ⟨⟨deploy, hDeploy, hId⟩, hUser⟩, hSource⟩
    exact ⟨⟨chain, hChain, deploy, hDeploy, Prod.ext hId hSource.symm⟩, hUser⟩

structure RecordsOf (input : MergeInput) (sets : MergeSets) (resolved : ResolvedConflicts DeployChainIndex)
    (records : List RejectedDeploy) : Prop where
  rejected : ∀ chain ∈ resolved.rejected, ∀ sig ∈ chain.userDeploys, ∃ record ∈ records, record.sig = sig
  collateral : ∀ pair ∈ sets.collateralLostPairs, ∃ record ∈ records, record.sig = pair.1
  duplicate : ∀ record ∈ records,
    input.duplicateOf sets (appliedUserSigs resolved) record.sig = .ok record.duplicate
  carrier : ∀ record ∈ records, (∃ chain ∈ resolved.rejected, record.sig ∈ chain.userDeploys ∧
    record.carrier = chain.sourceBlockHash) ∨ (record.sig, record.carrier) ∈ sets.collateralLostPairs

variable {sets : MergeSets}

theorem recordOf_eq_ok {applied : Finset Bytes} {pair : Bytes × Bytes} {record : RejectedDeploy} :
    input.recordOf sets applied pair = .ok record ↔
      record.sig = pair.1 ∧ record.carrier = pair.2 ∧ input.duplicateOf sets applied pair.1 = .ok record.duplicate := by
  constructor
  · intro h
    obtain ⟨duplicate, hDuplicate, hRest⟩ := exists_of_bind_ok h
    obtain rfl := Except.ok.inj hRest
    exact ⟨rfl, rfl, hDuplicate⟩
  · rintro ⟨hSig, hCarrier, hDuplicate⟩
    rw [recordOf, hDuplicate]
    obtain ⟨sig, duplicate, carrier⟩ := record
    obtain rfl : sig = pair.1 := hSig
    obtain rfl : carrier = pair.2 := hCarrier
    rfl

theorem recordsOf_rejectedUserDeploys
    {records : List RejectedDeploy} (h : input.rejectedUserDeploys sets resolved = .ok records) :
    RecordsOf input sets resolved records := by
  obtain ⟨chainRecords, hChains, hNext⟩ := exists_of_bind_ok h
  obtain ⟨collateral, hCollateral, hRest⟩ := exists_of_bind_ok hNext
  obtain rfl := Except.ok.inj hRest
  have hRecord : ∀ record ∈ chainRecords ++ collateral, ∃ pair : Bytes × Bytes,
      ((∃ chain ∈ resolved.rejected, pair.1 ∈ chain.userDeploys ∧ pair.2 = chain.sourceBlockHash) ∨
        pair ∈ sets.collateralLostPairs) ∧
      input.recordOf sets (appliedUserSigs resolved) pair = .ok record := by
    intro record hRecord
    obtain hRecord | hRecord := List.mem_append.mp hRecord
    · obtain ⟨pair, hPair, hOk⟩ := (mem_of_mapM_ok hChains record).mp hRecord
      exact ⟨pair, .inl (mem_rejectedPairs.mp hPair), hOk⟩
    · obtain ⟨pair, hPair, hOk⟩ := (mem_of_mapM_ok hCollateral record).mp hRecord
      exact ⟨pair, .inr (List.mem_of_mem_filter hPair), hOk⟩
  constructor
  · intro chain hChain sig hSig
    have hPair : (sig, chain.sourceBlockHash) ∈ (rejectedPairs resolved.rejected).filter _ :=
      mem_rejectedPairs.mpr ⟨chain, hChain, hSig, rfl⟩
    obtain ⟨record, hMem, hOk⟩ := exists_of_mapM_ok hChains hPair
    exact ⟨record, List.mem_append_left _ hMem, (recordOf_eq_ok.mp hOk).1⟩
  · intro pair hPair
    by_cases hListed : pair.1 ∈ chainRecords.map RejectedDeploy.sig
    · obtain ⟨record, hMem, hSig⟩ := List.mem_map.mp hListed
      exact ⟨record, List.mem_append_left _ hMem, hSig⟩
    · obtain ⟨record, hMem, hOk⟩ := exists_of_mapM_ok hCollateral
        (List.mem_filter.mpr ⟨hPair, decide_eq_true hListed⟩)
      exact ⟨record, List.mem_append_right _ hMem, (recordOf_eq_ok.mp hOk).1⟩
  · intro record hMem
    obtain ⟨pair, -, hOk⟩ := hRecord record hMem
    obtain ⟨hSig, -, hDuplicate⟩ := recordOf_eq_ok.mp hOk
    rwa [hSig]
  · intro record hMem
    obtain ⟨pair, hFrom, hOk⟩ := hRecord record hMem
    obtain ⟨hSig, hCarrier, -⟩ := recordOf_eq_ok.mp hOk
    rw [hSig, hCarrier]
    exact hFrom

def InScope (input : MergeInput) (block : Bytes) : Prop :=
  match input.scope with
  | some scopeBlocks => block ∈ scopeBlocks
  | none => block ∈ input.dag.descendants input.base

def CarriedBy (input : MergeInput) (block sig : Bytes) : Prop :=
  ∃ blockIndex, input.index block = .ok blockIndex ∧ ∃ chain ∈ blockIndex.deployChains, sig ∈ chain.userDeploys

def SettledInBase (input : MergeInput) (sig : Bytes) : Prop :=
  input.sigSettledInBase sig = .ok true ∨
    ∃ block, input.InScope block ∧ input.dag.isInMainChain block input.base = .ok true ∧ input.CarriedBy block sig

def Applies (input : MergeInput) (chain : DeployChainIndex) : Prop :=
  ∃ sets resolved expanded, Stages input sets resolved expanded ∧ expanded.Kept chain

/-- Every deploy in scope is accounted for, and no effect comes twice. -/
structure Conserves (input : MergeInput) (outcome : MergeOutcome) : Prop where
  accounted : ∀ block sig, input.InScope block → input.CarriedBy block sig →
    input.SettledInBase sig ∨ sig ∈ outcome.appliedUserSigs ∨ ∃ record ∈ outcome.rejectedUserDeploys, record.sig = sig
  exclusive : ∀ record ∈ outcome.rejectedUserDeploys, record.duplicate = false → record.sig ∉ outcome.appliedUserSigs
  applied : ∀ sig, sig ∈ outcome.appliedUserSigs ↔ ∃ chain, input.Applies chain ∧ sig ∈ chain.userDeploys
  appliedOnce : ∀ chain other, input.Applies chain → input.Applies other → ∀ sig ∈ chain.userDeploys,
    sig ∈ other.userDeploys → chain = other

theorem mem_of_actualBlocks {blocks : List Bytes} (h : input.actualBlocks = .ok blocks) {block : Bytes}
    (hScope : input.InScope block) : block ∈ blocks ∨ input.dag.isInMainChain block input.base = .ok true := by
  rw [actualBlocks] at h
  rw [InScope] at hScope
  cases hEq : input.scope with
  | none =>
    simp only [hEq] at h hScope
    obtain rfl := Except.ok.inj h
    exact .inl ((Finset.mem_sort _).mpr hScope)
  | some scopeBlocks =>
    simp only [hEq] at h hScope
    have hMapped := eq_ok_of_mapError h
    cases hParts : partitionFallible (fun candidate => input.dag.isInMainChain candidate input.base)
        (scopeBlocks.sort (· ≤ ·)) with
    | error e =>
      rw [hParts] at hMapped
      cases hMapped
    | ok parts =>
      rw [hParts] at hMapped
      obtain rfl := Except.ok.inj hMapped
      obtain hMain | hActual := mem_or_mem_of_partitionFallible hParts ((Finset.mem_sort _).mpr hScope)
      · exact .inr ((mem_of_partitionFallible hParts block).1.mp hMain).2
      · exact .inl hActual

variable {expanded : ResolvedConflicts DeployChainIndex} {chain : DeployChainIndex}

theorem Stages.kept_or_mem
    (h : Stages input sets resolved expanded) {retained : List DeployChainIndex}
    (hSplits : SplitsRetained input retained sets) (hChain : chain ∈ retained) :
    expanded.Kept chain ∨ chain ∈ expanded.rejected := by
  obtain ⟨stale, hExpands⟩ := h.exists_expands
  have hSets := resolvesSets_of_resolveScope h.resolves
  have hRejected : ∀ c ∈ resolved.rejected, c ∈ expanded.rejected := by
    intro c hc
    rw [hExpands.moves.rejected_eq]
    exact Finset.mem_union_left _ hc
  obtain hActual | hLate | hBase | hSettled := hSplits.cover chain hChain
  · obtain hKept | hc := hSets.actual chain hActual
    · obtain hKept | hStale := hExpands.moves.kept_or_mem chain hKept
      · exact .inl hKept
      · rw [hExpands.moves.rejected_eq]
        exact .inr (Finset.mem_union_right _ hStale)
    · exact .inr (hRejected chain hc)
  · exact .inr (hRejected chain (hSets.late chain hLate))
  · exact .inr (hRejected chain (hSets.baseConflicting chain hBase))
  · exact .inr (hRejected chain (hSets.settledConflicting chain hSettled))

theorem Stages.mem_retained
    (h : Stages input sets resolved expanded) {retained : List DeployChainIndex}
    (hSplits : SplitsRetained input retained sets) (hKept : expanded.Kept chain) :
    chain ∈ retained := by
  obtain ⟨stale, hExpands⟩ := h.exists_expands
  have hBefore := hExpands.moves.kept_of_kept chain hKept
  exact hSplits.actual chain ((resolvesSets_of_resolveScope h.resolves).kept chain hBefore)

theorem recordsOf_finishMerge
    {outcome : MergeOutcome} (h : input.finishMerge sets resolved = .ok outcome) :
    RecordsOf input sets resolved outcome.rejectedUserDeploys ∧ outcome.appliedUserSigs = appliedUserSigs resolved := by
  obtain ⟨newState, -, hNext⟩ := exists_of_bind_ok h
  obtain ⟨records, hRecords, hRest⟩ := exists_of_bind_ok hNext
  obtain rfl := Except.ok.inj hRest
  obtain ⟨hRejected, hCollateral, hDuplicate, hCarrier⟩ := recordsOf_rejectedUserDeploys hRecords
  refine ⟨⟨?_, ?_, ?_, ?_⟩, rfl⟩ <;> simpa only [List.mem_insertionSort]

theorem accounted_of_carriedBy
    (hStages : Stages input sets resolved expanded) {records : List RejectedDeploy}
    (hRecords : RecordsOf input sets expanded records) {block : Bytes} (hScope : input.InScope block)
    (hCarried : input.CarriedBy block sig) :
    input.SettledInBase sig ∨ sig ∈ appliedUserSigs expanded ∨ ∃ record ∈ records, record.sig = sig := by
  obtain ⟨chains, settled, hChains, hSettled, hSplits, -, -, hCollateral⟩ := prepare_spec hStages.prepared
  obtain ⟨blocks, hBlocks, hMem⟩ := mem_of_scopeChains hChains
  obtain hBlock | hMain := mem_of_actualBlocks hBlocks hScope
  · obtain ⟨blockIndex, hIndex, plain, hPlain, hSig⟩ := hCarried
    have hChain := (hMem _).mpr ⟨block, hBlock, blockIndex, hIndex, plain, hPlain, rfl⟩
    by_cases hUnsettled : sig ∈ settled
    · exact .inl (.inl ((mem_of_settledSigs hSettled).mp hUnsettled).2)
    · -- the freshest copy of the deploy decides
      obtain ⟨freshest, hFreshest, hCarries, hPoints⟩ :=
        exists_pointsTo hChain (DeployChainIndex.carries_of_mem_userDeploys hSig) hUnsettled
      have hUser : sig ∈ freshest.userDeploys :=
        DeployChainIndex.mem_userDeploys.mpr ⟨hCarries, (DeployChainIndex.mem_userDeploys.mp hSig).2⟩
      cases hRetained : isRetained (latestForDeploy settled chains) freshest with
      | true =>
        obtain hKept | hRejected :=
          hStages.kept_or_mem hSplits (List.mem_filter.mpr ⟨hFreshest, hRetained⟩)
        · exact .inr (.inl (mem_appliedUserSigs.mpr ⟨freshest, hKept, hUser⟩))
        · exact .inr (.inr (hRecords.rejected freshest hRejected sig hUser))
      | false =>
        have hPair : (sig, freshest.sourceBlockHash) ∈ sets.collateralLostPairs :=
          (hCollateral _).mpr ⟨freshest, hFreshest, hRetained, mem_collateralOf.mpr ⟨hUser, hPoints, rfl⟩⟩
        exact .inr (.inr (hRecords.collateral _ hPair))
  · exact .inl (.inr ⟨block, hScope, hMain, hCarried⟩)

theorem eq_of_kept_of_kept
    (hStages : Stages input sets resolved expanded) {other : DeployChainIndex} (hKept : expanded.Kept chain)
    (hKept' : expanded.Kept other) (hSig : sig ∈ chain.userDeploys) (hSig' : sig ∈ other.userDeploys) :
    chain = other := by
  obtain ⟨chains, settled, hChains, -, hSplits, -, -, -⟩ := prepare_spec hStages.prepared
  obtain ⟨hChain, hRetained⟩ := List.mem_filter.mp (hStages.mem_retained hSplits hKept)
  obtain ⟨hOther, hRetained'⟩ := List.mem_filter.mp (hStages.mem_retained hSplits hKept')
  have hCarries := DeployChainIndex.carries_of_mem_userDeploys hSig
  have hCarries' := DeployChainIndex.carries_of_mem_userDeploys hSig'
  -- both are the freshest copy, and a block has the deploy in a single chain
  have hSource := source_eq_of_pointsTo ((latestForDeploy_spec settled chains).2 chain hChain sig hCarries)
    (isRetained_iff.mp hRetained sig hCarries) (isRetained_iff.mp hRetained' sig hCarries')
  exact eq_of_source_eq hChains hChain hOther hSource hSig hSig'

def siblingBlocks : AList fun _ : Bytes => BlockMetadata :=
  ⟨[⟨[0], ⟨0, []⟩⟩, ⟨[1], ⟨1, [[0]]⟩⟩, ⟨[2], ⟨1, [[0]]⟩⟩, ⟨[3], ⟨2, [[2]]⟩⟩, ⟨[4], ⟨1, [[0]]⟩⟩], by rw [List.NodupKeys]; decide⟩

def siblingDag : KeyValueDagRepresentation where
  blocks := siblingBlocks
  parents_lower := by
    have hAll : ∀ entry ∈ siblingBlocks.entries, ∀ parent ∈ entry.2.parents, ∀ metadata ∈ siblingBlocks.lookup parent,
        metadata.blockNumber < entry.2.blockNumber := by decide
    intro hash metadata hLookup parent hParent parentMetadata hLookup'
    exact hAll _ (AList.mem_lookup_iff.mp hLookup) parent hParent parentMetadata hLookup'

def indexFrom (chains : List DeployChainIndex)
    (hUnique : ∀ chain ∈ chains, ∀ other ∈ chains, ∀ sig ∈ chain.userDeploys, sig ∈ other.userDeploys → chain = other)
    (block : Bytes) : BlockIndex block where
  deployChains := chains.filter (·.sourceBlockHash = block)
  source_eq _ hChain := of_decide_eq_true (List.mem_filter.mp hChain).2
  user_unique chain hChain other hOther :=
    hUnique chain (List.mem_of_mem_filter hChain) other (List.mem_of_mem_filter hOther)

def pairedChain : DeployChainIndex := ⟨{⟨[10], 1⟩, ⟨[11], 1⟩}, [], [2], 1, 0⟩

def childChain : DeployChainIndex := ⟨{⟨[12], 1⟩}, [], [3], 2, 0⟩

def transferContents (diff : Int) (datum : Bytes) : ChainContents where
  eventLogIndex := { EventLogIndex.empty with numberChannelsData := AList.singleton [7] (diff, .integerAdd) }
  userEventLogIndex := { EventLogIndex.empty with numberChannelsData := AList.singleton [7] (diff, .integerAdd) }
  systemEventLogIndex := .empty
  stateChanges := ⟨AList.singleton [7] ⟨[datum], []⟩, ∅, ∅⟩
  deployWindows := ∅

def collateralInput : MergeInput where
  dag := siblingDag
  base := [1]
  index block := .ok (indexFrom [pairedChain, childChain] (by decide) block)
  contents source _ := if source = [3] then transferContents 5 [5] else ⟨.empty, .empty, .empty, .empty, ∅⟩
  history := ⟨fun _ => .ok [], fun _ => .ok [], fun _ => .ok [], fun _ => .ok [], fun _ => .ok []⟩
  rejectionCostF := costOptimalRejectionAlg
  scope := some {[2], [3]}
  floorBlockNumber := 0
  deployLifespan := 50
  sigSettledInBase sig := .ok (sig = [11])
  sigSettledInFloor _ := .ok false
  baseLineageBlocks := ∅
  priorRejectionCounts := ∅
  codec := ⟨paddingDigest, fun _ => false, id, List.flatten, fun _ _ _ rnd => rnd⟩
  orders := ⟨.ascending _, .ascending _⟩

theorem isInMainChain_sibling :
    siblingDag.isInMainChain [2] [1] = .ok false ∧ siblingDag.isInMainChain [3] [1] = .ok false := by
  constructor
  · rw [KeyValueDagRepresentation.isInMainChain, if_neg (by decide)]
    change siblingDag.followMainParents [2] 1 [1] = _
    rw [KeyValueDagRepresentation.followMainParents]
    rfl
  · rw [KeyValueDagRepresentation.isInMainChain, if_neg (by decide)]
    change siblingDag.followMainParents [3] 2 [1] = _
    rw [KeyValueDagRepresentation.followMainParents]
    rfl

theorem scopeChains_collateral : collateralInput.scopeChains = .ok [pairedChain, childChain] := by
  have hBlocks : collateralInput.actualBlocks = .ok [[2], [3]] := by
    rw [actualBlocks]
    dsimp only [collateralInput]
    rw [SortedLex.sort_pair (by decide) (by decide)]
    simp only [partitionFallible, isInMainChain_sibling]
    rfl
  rw [scopeChains, hBlocks]
  rfl

theorem settledSigs_collateral : collateralInput.settledSigs [pairedChain, childChain] = .ok {[11]} := by
  rw [settledSigs]
  dsimp only [collateralInput]
  rw [partitionFallible_pure]
  refine congrArg Except.ok ?_
  ext sig
  rw [List.mem_toFinset, List.mem_filter, Finset.mem_sort, Finset.mem_singleton, decide_eq_true_eq, and_iff_right_iff_imp]
  rintro rfl
  exact mem_checkedSigs.mpr ⟨pairedChain, by decide, by decide⟩

def collateralLatest : LatestForDeploy :=
  ⟨[⟨[12], (2, [3])⟩, ⟨[10], (1, [2])⟩, ⟨[11], (i64Max, [])⟩], by rw [List.NodupKeys]; decide⟩

theorem latest_collateral : latestForDeploy {[11]} [pairedChain, childChain] = collateralLatest := by
  have hPaired : pairedChain.deploysWithCost.sort (· ≤ ·) = [⟨[10], 1⟩, ⟨[11], 1⟩] := SortedLex.sort_pair (by decide) (by decide)
  have hChild : childChain.deploysWithCost.sort (· ≤ ·) = [⟨[12], 1⟩] := Finset.sort_singleton _ _
  simp only [latestForDeploy, seedSettled, updateLatestChain, Finset.sort_singleton, List.foldl_cons, List.foldl_nil,
    hPaired, hChild]
  rfl

theorem collateralOf_pairedChain : collateralOf collateralLatest pairedChain = [([10], [2])] := by
  have hUser : pairedChain.userDeploys = {[10], [11]} := by decide
  rw [collateralOf, hUser, SortedLex.sort_pair (by decide) (by decide)]
  rfl

def collateralSets : MergeSets where
  actualSeqAll := [childChain]
  lateSeqAll := []
  baseConflicting := []
  settledConflicting := []
  pinned := ∅
  checkedSigs := checkedSigs [pairedChain, childChain]
  settledSigs := {[11]}
  collateralLostPairs := [([10], [2])]

theorem prepare_collateral : collateralInput.prepare = .ok collateralSets := by
  rw [prepare_eq scopeChains_collateral settledSigs_collateral, latest_collateral]
  have hRetained : [pairedChain, childChain].filter (isRetained collateralLatest) = [childChain] := by decide
  have hDropped : [pairedChain, childChain].filter (fun chain => !isRetained collateralLatest chain) = [pairedChain] := by
    decide
  have hUser : childChain.userDeploys = {[12]} := by decide
  have hSettled : collateralInput.isSettledCommitted childChain = .ok false := by
    rw [isSettledCommitted, if_neg (by decide), hUser, Finset.sort_singleton]
    rfl
  have hParts : partitionFallible collateralInput.isSettledCommitted [childChain] = .ok ([], [childChain]) := by
    simp only [partitionFallible, hSettled]
    rfl
  have hBase : collateralInput.baseEventLog = .ok EventLogIndex.empty := by
    rw [baseEventLog]
    dsimp only [collateralInput]
    rw [Finset.sort_empty]
    rfl
  rw [hRetained, hDropped, List.flatMap_cons, List.flatMap_nil, List.append_nil, collateralOf_pairedChain,
    splitRetained, hParts]
  simp only [bind, Except.bind, hBase]
  rfl

theorem resolveOnce_collateral : collateralInput.resolveOnce ∅ [childChain] [] = .ok ⟨[⟨{childChain}⟩], ∅⟩ := by
  have hItems : mergeSet [childChain] [] collateralInput.dependsFn = {childChain} := by decide
  have hIter : collateralInput.orders.items.iter {childChain} = [childChain] := Finset.sort_singleton _ _
  have hBranches : collateralInput.computeBranchesFn (mergeSet [childChain] [] collateralInput.dependsFn) = {⟨{childChain}⟩} := by
    rw [hItems]
    refine (computeBranchesFn_of_no_pairs ?_).trans (Finset.image_singleton _ _)
    rw [hIter]
    rfl
  have hBranchIter : collateralInput.orders.branches.iter {⟨{childChain}⟩} = [⟨{childChain}⟩] := Finset.sort_singleton _ _
  obtain ⟨conflictMap, hMap⟩ : ∃ conflictMap, collateralInput.computeConflictMapFn {⟨{childChain}⟩} = .ok conflictMap := by
    rw [computeConflictMapFn, hBranchIter]
    simp only [List.mapM_cons, List.mapM_nil, computeBranchDerived, hIter]
    exact ⟨_, rfl⟩
  have hNone := not_related_of_singleton (conflictMapOn_computeConflictMapFn hMap)
  have hFold : foldRejection collateralInput.orders collateralInput.mergeableChannelsFn (fun _ => 0) {⟨{childChain}⟩} = ∅ := by
    rw [foldRejection, Finset.sort_singleton, List.foldl_cons, List.foldl_nil, foldRejectionStep, calMergedResult, branchDiff, hIter]
    rfl
  rw [resolveOnce_of_unrelated hBranches hMap hNone (baseMergeableChRes_of_no_data _), hFold, hBranchIter]
  rfl

theorem splitUnavailable_collateral : collateralInput.splitUnavailableFn ∅ ⟨[⟨{childChain}⟩], ∅⟩ = .ok ⟨⟨[⟨{childChain}⟩], ∅⟩, ∅⟩ := by
  have hOrdered : dependencyOrderedBranchItems collateralInput.dependsFn ⟨{childChain}⟩ = [childChain] := by
    rw [dependencyOrderedBranchItems, Finset.sort_singleton]
    rfl
  have hBranch : splitUnavailableResolvedBranches collateralInput.codec collateralInput.history collateralInput.dependsFn collateralInput.mergeableChannelsFn collateralInput.stateChangesFn
      ⟨[⟨{childChain}⟩], ∅⟩ = .ok ⟨⟨[⟨{childChain}⟩], ∅⟩, ∅⟩ := by
    rw [splitUnavailableResolvedBranches, List.foldlM_cons, splitBranch, splitUnavailableBranchConsumes, hOrdered]
    rfl
  have hChains : allChains [⟨{childChain}⟩] = [childChain] := by
    rw [allChains, List.flatMap_cons, List.flatMap_nil, Finset.sort_singleton]
    rfl
  rw [splitUnavailableFn, splitUnavailable, hBranch]
  simp only [bind, Except.bind, splitOverfilledSingleValueCells, hChains]
  rfl

theorem stages_collateral : Stages collateralInput collateralSets ⟨[⟨{childChain}⟩], ∅⟩ ⟨[⟨{childChain}⟩], ∅⟩ := by
  refine ⟨prepare_collateral, ?_, rfl⟩
  have hRetry : collateralInput.resolveConflictsWithUnavailableRetry collateralSets ∅ = .ok ⟨[⟨{childChain}⟩], ∅⟩ := by
    rw [retry_eq]
    have hOnce : collateralInput.resolveOnce collateralSets.pinned (collateralSets.actualSeqAll.filter (· ∉ (∅ : Finset DeployChainIndex)))
      (collateralSets.lateSeqAll ++ (∅ : Finset DeployChainIndex).sort (· ≤ ·)) = .ok ⟨[⟨{childChain}⟩], ∅⟩ := by
      rw [Finset.sort_empty]
      exact resolveOnce_collateral
    rw [hOnce]
    have hSplit := splitUnavailable_collateral
    simp only [collateralSets, hSplit]
    rfl
  rw [resolveScope, hRetry]
  rfl

def collateralOutcome : MergeOutcome := ⟨[], [⟨[10], false, [2]⟩], [], {[12]}⟩

theorem finishMerge_collateral : collateralInput.finishMerge collateralSets ⟨[⟨{childChain}⟩], ∅⟩ = .ok collateralOutcome := by
  have hItems : toMergeItems [(⟨{childChain}⟩ : Branch DeployChainIndex)] = [childChain] := by
    change (({childChain} : Finset DeployChainIndex).sort (· ≤ ·)) ++ [] = _
    rw [Finset.sort_singleton]
    rfl
  have hWriters : collateralInput.multiWriterChannels ⟨[⟨{childChain}⟩], ∅⟩ = ∅ := by
    rw [multiWriterChannels, List.flatMap_cons, List.flatMap_nil, Finset.sort_singleton]
    rfl
  have hState : collateralInput.mergedState ⟨[⟨{childChain}⟩], ∅⟩ = .ok [] := by
    rw [mergedState, hWriters, computeMergedState, hItems]
    rfl
  have hApplied : appliedUserSigs ⟨[⟨{childChain}⟩], ∅⟩ = {[12]} := by
    have hUser : ({childChain} : Finset DeployChainIndex).biUnion DeployChainIndex.userDeploys = {[12]} := by decide
    rw [appliedUserSigs, List.flatMap_cons, List.flatMap_nil, hUser, Finset.sort_singleton]
    rfl
  have hPairs : rejectedPairs ∅ = [] := by
    rw [rejectedPairs, Finset.sort_empty]
    rfl
  have hRecord : collateralInput.recordOf collateralSets {[12]} ([10], [2]) = .ok ⟨[10], false, [2]⟩ := by
    have hChecked : [10] ∈ collateralSets.checkedSigs := mem_checkedSigs.mpr ⟨pairedChain, by decide, by decide⟩
    rw [recordOf, duplicateOf, if_neg (by decide), if_pos hChecked]
    rfl
  have hRecords : collateralInput.rejectedUserDeploys collateralSets ⟨[⟨{childChain}⟩], ∅⟩ = .ok [⟨[10], false, [2]⟩] := by
    rw [rejectedUserDeploys, hPairs, hApplied]
    change ([([10], [2])].mapM (collateralInput.recordOf collateralSets {[12]}) >>= fun collateral => pure ([] ++ collateral)) = _
    rw [List.mapM_cons, hRecord]
    rfl
  rw [finishMerge, hState, hRecords, hPairs, hApplied]
  rfl

theorem merge_collateral : collateralInput.merge = .ok collateralOutcome :=
  stages_collateral.merge_eq.trans finishMerge_collateral

end MergeInput

end F1r3Node.Merging
