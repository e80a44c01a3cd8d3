import F1r3Node.Merging.MergeConservation

/-! # Lineage after rejections

One pass over the survivors rejects the chains of blocks that were built on the block of a rejected chain.
-/

namespace F1r3Node.Merging

open Shared Lib Casper

namespace MergeInput

variable {input : MergeInput} {pinned : Finset DeployChainIndex}

theorem descendsRejected_eq_ok {rejectedBlocks : Finset Bytes} {block : Bytes} {found : Bool}
    (h : input.descendsRejected rejectedBlocks block = .ok found) :
    found = true ↔ ∃ rejectedBlock ∈ rejectedBlocks, input.dag.StrictAncestor rejectedBlock block := by
  rw [descendsRejected] at h
  cases found with
  | true =>
    obtain ⟨rejectedBlock, hMem, hTest⟩ := exists_of_anyM_eq_true h
    refine ⟨fun _ => ⟨rejectedBlock, (Finset.mem_sort _).mp hMem, ?_⟩, fun _ => rfl⟩
    split_ifs at hTest with hNe
    · exact (KeyValueDagRepresentation.isDagAncestor_eq_ok hTest hNe).mp rfl
    · cases hTest
  | false =>
    refine ⟨fun hFalse => (Bool.false_ne_true hFalse).elim, ?_⟩
    rintro ⟨rejectedBlock, hMem, hStrict⟩
    have hTest := anyM_eq_false h ((Finset.mem_sort _).mpr hMem)
    rw [if_pos hStrict.ne] at hTest
    exact (KeyValueDagRepresentation.isDagAncestor_eq_ok hTest hStrict.ne).mpr hStrict

theorem isStale_eq_ok {rejectedBlocks : Finset Bytes} {chain : DeployChainIndex} {stale : Bool}
    (h : input.isStale pinned rejectedBlocks chain = .ok stale) :
    stale = true ↔ chain ∉ pinned ∧
      ∃ rejectedBlock ∈ rejectedBlocks, input.dag.StrictAncestor rejectedBlock chain.sourceBlockHash := by
  rw [isStale] at h
  split_ifs at h with hPinned
  · obtain rfl := Except.ok.inj h
    simp [hPinned]
  · rw [descendsRejected_eq_ok h]
    simp [hPinned]

theorem Expands.not_strictAncestor {before after : ResolvedConflicts DeployChainIndex} {stale : Finset DeployChainIndex}
    (h : Expands input pinned before after stale) {chain : DeployChainIndex} (hKept : after.Kept chain)
    (hPinned : chain ∉ pinned) {rejected : DeployChainIndex} (hRejected : rejected ∈ after.rejected) :
    ¬ input.dag.StrictAncestor rejected.sourceBlockHash chain.sourceBlockHash := by
  intro hStrict
  have hClean : ∀ other ∈ before.rejected,
      ¬ input.dag.StrictAncestor other.sourceBlockHash chain.sourceBlockHash := by
    intro other hOther hBelow
    have hStale := (isStale_eq_ok (h.kept chain hKept)).mpr
      ⟨hPinned, other.sourceBlockHash, Finset.mem_image_of_mem _ hOther, hBelow⟩
    exact Bool.false_ne_true hStale
  rw [h.moves.rejected_eq] at hRejected
  obtain hBefore | hStale := Finset.mem_union.mp hRejected
  · exact hClean rejected hBefore hStrict
  · obtain ⟨-, block, hBlock, hBelow⟩ := (isStale_eq_ok (h.stale rejected hStale)).mp rfl
    obtain ⟨other, hOther, rfl⟩ := Finset.mem_image.mp hBlock
    exact hClean other hOther (hBelow.trans hStrict)

def DependsOn (input : MergeInput) (target source : DeployChainIndex) : Prop :=
  (∃ chains, input.scopeChains = .ok chains ∧ target ∈ chains ∧ source ∈ chains) ∧ input.dependsFn target source = true

def DependenciesFollowLineage (input : MergeInput) : Prop :=
  ∀ target source, input.DependsOn target source →
    input.dag.StrictAncestor source.sourceBlockHash target.sourceBlockHash

theorem strictAncestor_of_transGen (h : input.DependenciesFollowLineage) {target source : DeployChainIndex}
    (hDepends : Relation.TransGen input.DependsOn target source) :
    input.dag.StrictAncestor source.sourceBlockHash target.sourceBlockHash := by
  induction hDepends with
  | single hStep => exact h _ _ hStep
  | tail _ hStep ih => exact (h _ _ hStep).trans ih

/-- One pass is enough: no survivor is below a rejected chain, and none depends on one. -/
theorem expandLineage_fixpoint {sets : MergeSets} {resolved expanded : ResolvedConflicts DeployChainIndex}
    (h : Stages input sets resolved expanded) :
    (∀ chain, expanded.Kept chain → chain ∉ sets.pinned → ∀ rejected ∈ expanded.rejected,
      ¬ input.dag.StrictAncestor rejected.sourceBlockHash chain.sourceBlockHash) ∧
    (input.DependenciesFollowLineage → ∀ chain, expanded.Kept chain → chain ∉ sets.pinned →
      ∀ rejected ∈ expanded.rejected, ¬ Relation.TransGen input.DependsOn chain rejected) := by
  obtain ⟨stale, hExpands⟩ := h.exists_expands
  refine ⟨fun chain hKept hPinned rejected hRejected => ?_, fun hLineage chain hKept hPinned rejected hRejected => ?_⟩
  · exact hExpands.not_strictAncestor hKept hPinned hRejected
  · intro hDepends
    exact hExpands.not_strictAncestor hKept hPinned hRejected (strictAncestor_of_transGen hLineage hDepends)

/-- A chain whose window is closed, a deposit in the block on top of it and a withdrawal elsewhere. -/
def lateChain : DeployChainIndex := ⟨{⟨[10], 1⟩}, [], [2], 1, 0⟩

def depositChain : DeployChainIndex := ⟨{⟨[11], 2⟩}, [], [3], 2, 0⟩

def withdrawalChain : DeployChainIndex := ⟨{⟨[12], 1⟩}, [], [4], 1, 0⟩

def transferInput : MergeInput where
  dag := siblingDag
  base := [1]
  index block := .ok (indexFrom [lateChain, depositChain, withdrawalChain] (by decide) block)
  contents source _ :=
    if source = [3] then transferContents 5 [5] else if source = [4] then transferContents (-5) [6]
    else ⟨.empty, .empty, .empty, .empty, AList.singleton [10] 0⟩
  history := ⟨fun _ => .ok [], fun _ => .ok [], fun _ => .ok [], fun _ => .ok [], fun _ => .ok []⟩
  rejectionCostF := costOptimalRejectionAlg
  scope := some {[2], [3], [4]}
  floorBlockNumber := 100
  deployLifespan := 50
  sigSettledInBase _ := .ok false
  sigSettledInFloor _ := .ok false
  baseLineageBlocks := ∅
  priorRejectionCounts := ∅
  codec := ⟨paddingDigest, fun _ => false, id, List.flatten, fun _ _ _ rnd => rnd⟩
  orders := ⟨.ascending _, .ascending _⟩

theorem isInMainChain_transfer : siblingDag.isInMainChain [4] [1] = .ok false := by
  rw [KeyValueDagRepresentation.isInMainChain, if_neg (by decide)]
  change siblingDag.followMainParents [4] 1 [1] = _
  rw [KeyValueDagRepresentation.followMainParents]
  rfl

theorem scopeChains_transfer : transferInput.scopeChains = .ok [lateChain, depositChain, withdrawalChain] := by
  have hBlocks : transferInput.actualBlocks = .ok [[2], [3], [4]] := by
    rw [actualBlocks]
    dsimp only [transferInput]
    rw [Finset.sort_insert _ (by decide) (by decide), SortedLex.sort_pair (by decide) (by decide)]
    simp only [partitionFallible, isInMainChain_sibling, isInMainChain_transfer]
    rfl
  rw [scopeChains, hBlocks]
  rfl

theorem settledSigs_transfer : transferInput.settledSigs [lateChain, depositChain, withdrawalChain] = .ok ∅ := by
  rw [settledSigs]
  dsimp only [transferInput]
  rw [partitionFallible_pure]
  refine congrArg Except.ok ?_
  ext sig
  simp

def transferLatest : LatestForDeploy :=
  ⟨[⟨[12], (1, [4])⟩, ⟨[11], (2, [3])⟩, ⟨[10], (1, [2])⟩], by rw [List.NodupKeys]; decide⟩

theorem latest_transfer : latestForDeploy ∅ [lateChain, depositChain, withdrawalChain] = transferLatest := by
  have hSort : lateChain.deploysWithCost.sort (· ≤ ·) = [⟨[10], 1⟩] ∧
      depositChain.deploysWithCost.sort (· ≤ ·) = [⟨[11], 2⟩] ∧
      withdrawalChain.deploysWithCost.sort (· ≤ ·) = [⟨[12], 1⟩] :=
    ⟨Finset.sort_singleton _ _, Finset.sort_singleton _ _, Finset.sort_singleton _ _⟩
  simp only [latestForDeploy, seedSettled, updateLatestChain, Finset.sort_empty, List.foldl_cons, List.foldl_nil, hSort]
  rfl

def transferSets : MergeSets where
  actualSeqAll := [depositChain, withdrawalChain]
  lateSeqAll := [lateChain]
  baseConflicting := []
  settledConflicting := []
  pinned := ∅
  checkedSigs := checkedSigs [lateChain, depositChain, withdrawalChain]
  settledSigs := ∅
  collateralLostPairs := []

theorem prepare_transfer : transferInput.prepare = .ok transferSets := by
  rw [prepare_eq scopeChains_transfer settledSigs_transfer, latest_transfer]
  have hRetained : [lateChain, depositChain, withdrawalChain].filter (isRetained transferLatest) =
      [lateChain, depositChain, withdrawalChain] := by decide
  have hDropped : [lateChain, depositChain, withdrawalChain].filter (fun chain => !isRetained transferLatest chain) = [] := by
    decide
  have hUser : lateChain.userDeploys = {[10]} ∧ depositChain.userDeploys = {[11]} ∧ withdrawalChain.userDeploys = {[12]} := by decide
  have hParts : partitionFallible transferInput.isSettledCommitted [lateChain, depositChain, withdrawalChain] =
      .ok ([], [lateChain, depositChain, withdrawalChain]) := by
    simp only [partitionFallible, isSettledCommitted, hUser, Finset.sort_singleton]
    rfl
  have hBase : transferInput.baseEventLog = .ok EventLogIndex.empty := by
    rw [baseEventLog]
    dsimp only [transferInput]
    rw [Finset.sort_empty]
    rfl
  rw [hRetained, hDropped, List.flatMap_nil, splitRetained, hParts]
  simp only [bind, Except.bind, hBase]
  rfl

theorem sharedDeployPairs_transfer : sharedDeployPairs [{[11]}, {[12]}] = [] := by
  have hAll : [({[11]} : Finset Bytes), {[12]}].foldr (· ∪ ·) ∅ = {[11], [12]} := by decide
  rw [sharedDeployPairs, hAll, SortedLex.sort_pair (by decide) (by decide)]
  rfl

theorem resolveOnce_transfer : transferInput.resolveOnce ∅ [depositChain, withdrawalChain] [lateChain] =
    .ok ⟨[⟨{depositChain}⟩, ⟨{withdrawalChain}⟩], {lateChain}⟩ := by
  have hItems : mergeSet [depositChain, withdrawalChain] [lateChain] transferInput.dependsFn =
      {depositChain, withdrawalChain} := by decide
  have hIter : transferInput.orders.items.iter {depositChain, withdrawalChain} = [depositChain, withdrawalChain] :=
    SortedLex.sort_pair (by decide) (by decide)
  have hDeposit : transferInput.orders.items.iter {depositChain} = [depositChain] := Finset.sort_singleton _ _
  have hWithdrawal : transferInput.orders.items.iter {withdrawalChain} = [withdrawalChain] := Finset.sort_singleton _ _
  have hBranches : transferInput.computeBranchesFn
      (mergeSet [depositChain, withdrawalChain] [lateChain] transferInput.dependsFn) =
        {⟨{depositChain}⟩, ⟨{withdrawalChain}⟩} := by
    rw [hItems]
    refine (computeBranchesFn_of_no_pairs ?_).trans (by rw [Finset.image_insert, Finset.image_singleton])
    rw [hIter]
    rfl
  have hSort : ({⟨{depositChain}⟩, ⟨{withdrawalChain}⟩} : Finset (Branch DeployChainIndex)).sort (· ≤ ·) =
      [⟨{depositChain}⟩, ⟨{withdrawalChain}⟩] := SortedLex.sort_pair (branch_singleton_le (by decide)) (by decide)
  have hBranchIter : transferInput.orders.branches.iter {⟨{depositChain}⟩, ⟨{withdrawalChain}⟩} =
      [⟨{depositChain}⟩, ⟨{withdrawalChain}⟩] := hSort
  have hMap : transferInput.computeConflictMapFn {⟨{depositChain}⟩, ⟨{withdrawalChain}⟩} =
      .ok (relationMap [⟨{depositChain}⟩, ⟨{withdrawalChain}⟩] []) := by
    have hFirst : transferInput.computeBranchDerived ⟨{depositChain}⟩ =
        .ok ⟨{[11]}, (transferContents 5 [5]).eventLogIndex⟩ := by
      rw [computeBranchDerived, hDeposit]
      rfl
    have hSecond : transferInput.computeBranchDerived ⟨{withdrawalChain}⟩ =
        .ok ⟨{[12]}, (transferContents (-5) [6]).eventLogIndex⟩ := by
      rw [computeBranchDerived, hWithdrawal]
      rfl
    rw [computeConflictMapFn, hBranchIter]
    simp only [List.mapM_cons, List.mapM_nil, hFirst, hSecond, bind, Except.bind, pure, Except.pure, List.map_cons,
      List.map_nil, sharedDeployPairs_transfer]
    rfl
  have hNone : ∀ a b, ¬ (relationMap [(⟨{depositChain}⟩ : Branch DeployChainIndex), ⟨{withdrawalChain}⟩] []).Related a b := by
    intro a b hab
    obtain ⟨i, j, -, -, hLinked⟩ := ((relationMap_spec _ []).2 a b).mp hab
    simp [Linked] at hLinked
  have hFold : foldRejection transferInput.orders transferInput.mergeableChannelsFn (fun _ => 0)
      {⟨{depositChain}⟩, ⟨{withdrawalChain}⟩} = ∅ := by
    simp only [foldRejection, hSort, List.foldl_cons, List.foldl_nil, foldRejectionStep, calMergedResult, branchDiff,
      hDeposit, hWithdrawal]
    rfl
  rw [resolveOnce_of_unrelated hBranches hMap hNone (baseMergeableChRes_of_no_data _), hFold, hBranchIter]
  have hDependents : rejectedAsDependents [depositChain, withdrawalChain] [lateChain] transferInput.dependsFn = ∅ := by
    decide
  rw [hDependents]
  rfl

theorem splitUnavailable_transfer : transferInput.splitUnavailableFn ∅
    ⟨[⟨{depositChain}⟩, ⟨{withdrawalChain}⟩], {lateChain}⟩ =
      .ok ⟨⟨[⟨{depositChain}⟩, ⟨{withdrawalChain}⟩], {lateChain}⟩, ∅⟩ := by
  have hDeposit : dependencyOrderedBranchItems transferInput.dependsFn ⟨{depositChain}⟩ = [depositChain] := by
    rw [dependencyOrderedBranchItems, Finset.sort_singleton]
    rfl
  have hWithdrawal : dependencyOrderedBranchItems transferInput.dependsFn ⟨{withdrawalChain}⟩ = [withdrawalChain] := by
    rw [dependencyOrderedBranchItems, Finset.sort_singleton]
    rfl
  have hBranch : splitUnavailableResolvedBranches transferInput.codec transferInput.history transferInput.dependsFn
      transferInput.mergeableChannelsFn transferInput.stateChangesFn
      ⟨[⟨{depositChain}⟩, ⟨{withdrawalChain}⟩], {lateChain}⟩ =
        .ok ⟨⟨[⟨{depositChain}⟩, ⟨{withdrawalChain}⟩], {lateChain}⟩, ∅⟩ := by
    simp only [splitUnavailableResolvedBranches, List.foldlM_cons, splitBranch, splitUnavailableBranchConsumes, hDeposit,
      hWithdrawal]
    rfl
  have hChains : allChains [⟨{depositChain}⟩, ⟨{withdrawalChain}⟩] = [depositChain, withdrawalChain] := by
    rw [allChains, List.flatMap_cons, List.flatMap_cons, List.flatMap_nil, Finset.sort_singleton, Finset.sort_singleton]
    decide
  rw [splitUnavailableFn, splitUnavailable, hBranch]
  simp only [bind, Except.bind, splitOverfilledSingleValueCells, hChains]
  rfl

theorem isDagAncestor_transfer :
    siblingDag.isDagAncestor [2] [3] = .ok true ∧ siblingDag.isDagAncestor [2] [4] = .ok false := by
  constructor
  · change siblingDag.ancestry.search [2] 1 {[3]} [[3]] = _
    rw [Ancestry.search_cons, if_neg (by decide)]
    change siblingDag.ancestry.search [2] 1 _ [[2]] = _
    rw [Ancestry.search_cons, if_pos rfl]
  · change siblingDag.ancestry.search [2] 1 {[4]} [[4]] = _
    rw [Ancestry.search_cons, if_neg (by decide)]
    change siblingDag.ancestry.search [2] 1 _ [] = _
    rw [Ancestry.search]

theorem stages_transfer : Stages transferInput transferSets ⟨[⟨{depositChain}⟩, ⟨{withdrawalChain}⟩], {lateChain}⟩
    ⟨[⟨{withdrawalChain}⟩], {lateChain} ∪ {depositChain}⟩ := by
  refine ⟨prepare_transfer, ?_, ?_⟩
  · have hOnce : transferInput.resolveOnce transferSets.pinned
        (transferSets.actualSeqAll.filter (· ∉ (∅ : Finset DeployChainIndex)))
        (transferSets.lateSeqAll ++ (∅ : Finset DeployChainIndex).sort (· ≤ ·)) =
          .ok ⟨[⟨{depositChain}⟩, ⟨{withdrawalChain}⟩], {lateChain}⟩ := by
      rw [Finset.sort_empty]
      exact resolveOnce_transfer
    have hSplit : transferInput.splitUnavailableFn transferSets.pinned _ = _ := splitUnavailable_transfer
    rw [resolveScope, retry_eq, hOnce]
    simp only [hSplit]
    rfl
  · have hDeposit : transferInput.isStale ∅ {[2]} depositChain = .ok true := by
      rw [isStale, if_neg (by decide), descendsRejected, Finset.sort_singleton]
      change ([[2]] : List Bytes).anyM (fun b => if b ≠ [3] then siblingDag.isDagAncestor b [3] else .ok false) = _
      rw [List.anyM_cons, if_pos (by decide), isDagAncestor_transfer.1]
      rfl
    have hWithdrawal : transferInput.isStale ∅ {[2]} withdrawalChain = .ok false := by
      rw [isStale, if_neg (by decide), descendsRejected, Finset.sort_singleton]
      change ([[2]] : List Bytes).anyM (fun b => if b ≠ [4] then siblingDag.isDagAncestor b [4] else .ok false) = _
      rw [List.anyM_cons, if_pos (by decide), isDagAncestor_transfer.2]
      rfl
    have hBlocks : ({lateChain} : Finset DeployChainIndex).image DeployChainIndex.sourceBlockHash = {[2]} := by decide
    rw [expandLineage, hBlocks, if_neg (by decide)]
    change [(⟨{depositChain}⟩ : Branch DeployChainIndex), ⟨{withdrawalChain}⟩].foldlM (transferInput.expandBranch ∅ {[2]}) ⟨[], {lateChain}⟩ = _
    simp only [List.foldlM_cons, List.foldlM_nil, expandBranch, Finset.sort_singleton, partitionFallible, hDeposit, hWithdrawal]
    rfl

theorem dependenciesFollowLineage_transfer : transferInput.DependenciesFollowLineage := by
  have hNone : ∀ target ∈ [lateChain, depositChain, withdrawalChain],
      ∀ source ∈ [lateChain, depositChain, withdrawalChain], transferInput.dependsFn target source = false := by decide
  rintro target source ⟨⟨chains, hChains, hTarget, hSource⟩, hDepends⟩
  obtain rfl := Except.ok.inj (hChains.symm.trans scopeChains_transfer)
  rw [hNone target hTarget source hSource] at hDepends
  cases hDepends

/-- The late chain and the deposit on top of it are rejected, the withdrawal is not. -/
theorem expandLineage_fixpoint_transfer :
    ¬ siblingDag.StrictAncestor [3] [4] ∧ ¬ Relation.TransGen transferInput.DependsOn withdrawalChain depositChain := by
  obtain ⟨hLineage, hDepends⟩ := expandLineage_fixpoint stages_transfer
  have hKept : (⟨[⟨{withdrawalChain}⟩], {lateChain} ∪ {depositChain}⟩ : ResolvedConflicts DeployChainIndex).Kept
      withdrawalChain := ⟨_, List.mem_singleton_self _, Finset.mem_singleton_self _⟩
  have hRejected : depositChain ∈ ({lateChain} ∪ {depositChain} : Finset DeployChainIndex) := by decide
  exact ⟨hLineage withdrawalChain hKept (Finset.notMem_empty _) depositChain hRejected,
    hDepends dependenciesFollowLineage_transfer withdrawalChain hKept (Finset.notMem_empty _) depositChain hRejected⟩

/-- No chain outside the settled ones is applied on top of a block whose deploy is lost. -/
def NothingBuiltOnLost (input : MergeInput) (outcome : MergeOutcome) : Prop :=
  ∀ record ∈ outcome.rejectedUserDeploys, record.duplicate = false → ∀ chain, input.Applies chain →
    input.isSettledCommitted chain ≠ .ok true → ¬ input.dag.StrictAncestor record.carrier chain.sourceBlockHash

/-- A survivor of the resolution that the pass has no reason to reject, above a block whose deploy went
with a dropped chain. -/
def BuiltOnCollateral (input : MergeInput) (sets : MergeSets) (resolved : ResolvedConflicts DeployChainIndex) : Prop :=
  ∃ pair ∈ sets.collateralLostPairs, pair.1 ∉ sets.settledSigs ∧ ∃ chain, resolved.Kept chain ∧ chain ∉ sets.pinned ∧
    (∀ rejected ∈ resolved.rejected,
      ¬ input.dag.StrictAncestor rejected.sourceBlockHash chain.sourceBlockHash) ∧
    input.dag.StrictAncestor pair.2 chain.sourceBlockHash

def CollateralClear (input : MergeInput) : Prop :=
  ∀ sets resolved, input.prepare = .ok sets → input.resolveScope sets = .ok resolved →
    ¬ input.BuiltOnCollateral sets resolved

section lost

variable {sets : MergeSets} {resolved expanded : ResolvedConflicts DeployChainIndex} {chains : List DeployChainIndex}
  {settled : Finset Bytes}

theorem Stages.rejected_retained (h : Stages input sets resolved expanded) {retained : List DeployChainIndex}
    (hSplits : SplitsRetained input retained sets) {chain : DeployChainIndex} (hChain : chain ∈ expanded.rejected) :
    chain ∈ retained := by
  obtain ⟨stale, hExpands⟩ := h.exists_expands
  have hSets := resolvesSets_of_resolveScope h.resolves
  rw [hExpands.moves.rejected_eq] at hChain
  obtain hBefore | hStale := Finset.mem_union.mp hChain
  · obtain hActual | hOther := hSets.rejected chain hBefore
    · exact hSplits.actual chain hActual
    · exact hSplits.other chain hOther
  · exact hSplits.actual chain (hSets.kept chain (hExpands.moves.kept_of_mem chain hStale))

theorem not_mem_userDeploys_of_collateral (hChains : input.scopeChains = .ok chains)
    {dropped chain : DeployChainIndex} (hDropped : dropped ∈ chains)
    (hNot : isRetained (latestForDeploy settled chains) dropped = false) {pair : Bytes × Bytes}
    (hPair : pair ∈ collateralOf (latestForDeploy settled chains) dropped)
    (hRetained : chain ∈ chains.filter (isRetained (latestForDeploy settled chains))) :
    pair.1 ∉ chain.userDeploys := by
  intro hSig
  obtain ⟨hUser, hPoints, -⟩ := mem_collateralOf.mp hPair
  obtain ⟨hChain, hFresh⟩ := List.mem_filter.mp hRetained
  have hCarries := DeployChainIndex.carries_of_mem_userDeploys hSig
  have hSource := source_eq_of_pointsTo ((latestForDeploy_spec settled chains).2 chain hChain pair.1 hCarries)
    (isRetained_iff.mp hFresh pair.1 hCarries) hPoints
  obtain rfl := eq_of_source_eq hChains hChain hDropped hSource hSig hUser
  rw [hFresh] at hNot
  cases hNot

theorem exists_record_of_collateral (h : Stages input sets resolved expanded) {records : List RejectedDeploy}
    (hRecords : RecordsOf input sets expanded records) {pair : Bytes × Bytes}
    (hPair : pair ∈ sets.collateralLostPairs) (hUnsettled : pair.1 ∉ sets.settledSigs) :
    ∃ record ∈ records, record.carrier = pair.2 ∧ record.duplicate = false := by
  obtain ⟨chains, settled, hChains, -, hSplits, hChecked, -, hCollateral⟩ := prepare_spec h.prepared
  obtain ⟨dropped, hDropped, hNot, hLost⟩ := (hCollateral pair).mp hPair
  obtain ⟨hUser, hPoints, hSource⟩ := mem_collateralOf.mp hLost
  obtain ⟨record, hRecord, hSig⟩ := hRecords.collateral pair hPair
  refine ⟨record, hRecord, ?_, ?_⟩
  · obtain ⟨chain, hChain, hCarried, -⟩ | hOther := hRecords.carrier record hRecord
    · rw [hSig] at hCarried
      exact absurd hCarried
        (not_mem_userDeploys_of_collateral hChains hDropped hNot hLost (h.rejected_retained hSplits hChain))
    · obtain ⟨other, hOtherMem, -, hOtherLost⟩ := (hCollateral _).mp hOther
      obtain ⟨hOtherUser, hOtherPoints, hOtherSource⟩ := mem_collateralOf.mp hOtherLost
      dsimp only at hOtherUser hOtherPoints hOtherSource
      rw [hSig] at hOtherUser hOtherPoints
      rw [hOtherSource, hSource]
      exact source_eq_of_pointsTo ((latestForDeploy_spec settled chains).2 other hOtherMem pair.1
        (DeployChainIndex.carries_of_mem_userDeploys hOtherUser)) hOtherPoints hPoints
  · have hApplied : pair.1 ∉ appliedUserSigs expanded := by
      intro hMem
      obtain ⟨chain, hKept, hCarried⟩ := mem_appliedUserSigs.mp hMem
      exact not_mem_userDeploys_of_collateral hChains hDropped hNot hLost (h.mem_retained hSplits hKept) hCarried
    have hProbed : pair.1 ∈ sets.checkedSigs := by
      rw [hChecked]
      exact mem_checkedSigs.mpr ⟨dropped, hDropped, hUser⟩
    have hMarked := hRecords.duplicate record hRecord
    rw [duplicateOf, hSig, if_neg (not_or.mpr ⟨hApplied, hUnsettled⟩), if_pos hProbed] at hMarked
    exact (Except.ok.inj hMarked).symm

theorem RecordsOf.not_mem_settledSigs {records : List RejectedDeploy} (hRecords : RecordsOf input sets expanded records)
    {record : RejectedDeploy} (hRecord : record ∈ records) (hDuplicate : record.duplicate = false) :
    record.sig ∉ sets.settledSigs := by
  intro hSettled
  have hMarked := hRecords.duplicate record hRecord
  rw [duplicateOf, if_pos (.inr hSettled), hDuplicate] at hMarked
  cases hMarked

end lost

/-- Rejected chains take what was built on them along; lost collateral does not. -/
theorem nothingBuiltOnLost_iff {outcome : MergeOutcome} (h : input.merge = .ok outcome) :
    NothingBuiltOnLost input outcome ↔ CollateralClear input := by
  obtain ⟨sets, resolved, expanded, hStages, hFinish⟩ := exists_stages h
  obtain ⟨hRecords, -⟩ := recordsOf_finishMerge hFinish
  obtain ⟨stale, hExpands⟩ := hStages.exists_expands
  obtain ⟨chains, settled, hChains, -, hSplits, -⟩ := prepare_spec hStages.prepared
  have hPinned : ∀ chain, expanded.Kept chain →
      (chain ∉ sets.pinned ↔ input.isSettledCommitted chain ≠ .ok true) := by
    intro chain hKept
    rw [hSplits.pinned, and_iff_right (hStages.mem_retained hSplits hKept)]
  have hRejected : ∀ c ∈ resolved.rejected, c ∈ expanded.rejected := by
    intro c hc
    rw [hExpands.moves.rejected_eq]
    exact Finset.mem_union_left _ hc
  constructor
  · intro hNothing sets' resolved' hPrepared hResolves
    obtain rfl := Except.ok.inj (hPrepared.symm.trans hStages.prepared)
    obtain rfl := Except.ok.inj (hResolves.symm.trans hStages.resolves)
    rintro ⟨pair, hPair, hUnsettled, chain, hKept, hUnpinned, hClean, hStrict⟩
    obtain ⟨record, hRecord, hCarrier, hDuplicate⟩ := exists_record_of_collateral hStages hRecords hPair hUnsettled
    obtain hSurvives | hStale := hExpands.moves.kept_or_mem chain hKept
    · rw [← hCarrier] at hStrict
      exact hNothing record hRecord hDuplicate chain ⟨_, _, _, hStages, hSurvives⟩
        ((hPinned chain hSurvives).mp hUnpinned) hStrict
    · obtain ⟨-, block, hBlock, hBelow⟩ := (isStale_eq_ok (hExpands.stale chain hStale)).mp rfl
      obtain ⟨other, hOther, rfl⟩ := Finset.mem_image.mp hBlock
      exact hClean other hOther hBelow
  · rintro hClear record hRecord hDuplicate chain ⟨sets', resolved', expanded', hStages', hKept⟩ hUnsettled hStrict
    obtain ⟨-, -, rfl⟩ := hStages.unique hStages'
    have hUnpinned := (hPinned chain hKept).mpr hUnsettled
    obtain ⟨rejected, hMem, -, hCarrier⟩ | hPair := hRecords.carrier record hRecord
    · rw [hCarrier] at hStrict
      exact hExpands.not_strictAncestor hKept hUnpinned hMem hStrict
    · refine hClear sets resolved hStages.prepared hStages.resolves
        ⟨_, hPair, hRecords.not_mem_settledSigs hRecord hDuplicate, chain, ?_, hUnpinned, ?_, hStrict⟩
      · exact hExpands.moves.kept_of_kept chain hKept
      · exact fun other hOther => hExpands.not_strictAncestor hKept hUnpinned (hRejected other hOther)

theorem nothingBuiltOnLost_iff_collateral :
    NothingBuiltOnLost collateralInput collateralOutcome ↔ CollateralClear collateralInput :=
  nothingBuiltOnLost_iff merge_collateral

theorem strictAncestor_sibling : siblingDag.StrictAncestor [2] [3] :=
  .single ⟨2, [[2]], rfl, List.mem_singleton_self _⟩

/-- A chain of the child is applied, although a deploy of its parent is lost. -/
theorem not_nothingBuiltOnLost_collateral :
    collateralInput.merge = .ok collateralOutcome ∧ ¬ NothingBuiltOnLost collateralInput collateralOutcome := by
  refine ⟨merge_collateral, fun hNothing => ?_⟩
  have hUser : childChain.userDeploys = {[12]} := by decide
  have hSettled : collateralInput.isSettledCommitted childChain = .ok false := by
    rw [isSettledCommitted, if_neg (by decide), hUser, Finset.sort_singleton]
    rfl
  refine hNothing ⟨[10], false, [2]⟩ (List.mem_singleton_self _) rfl childChain ?_ ?_ strictAncestor_sibling
  · exact ⟨_, _, _, stages_collateral, _, List.mem_singleton_self _, Finset.mem_singleton_self _⟩
  · rw [hSettled]
    simp

end MergeInput

end F1r3Node.Merging
