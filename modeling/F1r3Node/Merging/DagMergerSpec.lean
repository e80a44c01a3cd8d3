import F1r3Node.Merging.DagMerger

/-! # What each stage of a merge does with the chains

Every loaded chain is retained or dropped, and every retained chain ends among the survivors or among the rejected
ones.
-/

namespace F1r3Node.Merging

open Shared Lib

section latest

variable {settled : Finset Bytes} {latest : LatestForDeploy}

def DeployChainIndex.Carries (chain : DeployChainIndex) (id : Bytes) : Prop :=
  ∃ deploy ∈ chain.deploysWithCost, deploy.deployId = id

variable {chain : DeployChainIndex}

theorem DeployChainIndex.carries_of_mem_userDeploys {sig : Bytes}
    (h : sig ∈ chain.userDeploys) : chain.Carries sig :=
  (mem_userDeploys.mp h).1

def PointsInto (settled : Finset Bytes) (chains : List DeployChainIndex) (latest : LatestForDeploy) : Prop :=
  ∀ id best, latest.lookup id = some best → id ∈ settled ∨
    ∃ chain ∈ chains, chain.Carries id ∧ best = (chain.sourceBlockNumber, chain.sourceBlockHash)

variable {chains : List DeployChainIndex}

theorem PointsInto.mono {chains' : List DeployChainIndex} (h : PointsInto settled chains latest)
    (hSub : chains ⊆ chains') : PointsInto settled chains' latest := by
  intro id best hLookup
  obtain hSettled | ⟨chain, hChain, hRest⟩ := h id best hLookup
  · exact .inl hSettled
  · exact .inr ⟨chain, hSub hChain, hRest⟩

variable {id : Bytes}

section

variable (h : PointsInto settled chains latest) (hChain : chain ∈ chains)

include h hChain

theorem pointsInto_insert (hCarries : chain.Carries id) :
    PointsInto settled chains (latest.insert id (chain.sourceBlockNumber, chain.sourceBlockHash)) := by
  intro id' best hLookup
  obtain rfl | hNe := eq_or_ne id' id
  · rw [AList.lookup_insert] at hLookup
    exact .inr ⟨chain, hChain, hCarries, (Option.some.inj hLookup).symm⟩
  · rw [AList.lookup_insert_ne hNe] at hLookup
    exact h id' best hLookup

theorem updateLatest_spec {deploy : DeployIdWithCost} (hDeploy : deploy ∈ chain.deploysWithCost) :
    let latest' := updateLatest (chain.sourceBlockNumber, chain.sourceBlockHash) latest deploy
    PointsInto settled chains latest' ∧ ∀ id, id ∈ latest' ↔ id ∈ latest ∨ id = deploy.deployId := by
  have hCarries : chain.Carries deploy.deployId := ⟨deploy, hDeploy, rfl⟩
  have hKeys : ∀ id, id ∈ latest.insert deploy.deployId (chain.sourceBlockNumber, chain.sourceBlockHash) ↔
      id ∈ latest ∨ id = deploy.deployId := fun id => by rw [AList.mem_insert, or_comm]
  rw [updateLatest]
  cases hLookup : latest.lookup deploy.deployId with
  | none => exact ⟨pointsInto_insert h hChain hCarries, hKeys⟩
  | some best =>
    dsimp only
    split_ifs
    · exact ⟨pointsInto_insert h hChain hCarries, hKeys⟩
    · refine ⟨h, fun id => ⟨.inl, ?_⟩⟩
      rintro (hId | rfl)
      · exact hId
      · exact AList.lookup_isSome.mp (by rw [hLookup]; rfl)

theorem updateLatestChain_spec :
    PointsInto settled chains (updateLatestChain latest chain) ∧
      ∀ id, id ∈ updateLatestChain latest chain ↔ id ∈ latest ∨ chain.Carries id := by
  have hFold : ∀ {deploys : List DeployIdWithCost} {latest : LatestForDeploy}, PointsInto settled chains latest →
      (∀ deploy ∈ deploys, deploy ∈ chain.deploysWithCost) →
      let latest' := deploys.foldl (updateLatest (chain.sourceBlockNumber, chain.sourceBlockHash)) latest
      PointsInto settled chains latest' ∧
        ∀ id, id ∈ latest' ↔ id ∈ latest ∨ ∃ deploy ∈ deploys, deploy.deployId = id := by
    intro deploys latest hLatest hDeploys
    induction deploys generalizing latest with
    | nil => exact ⟨hLatest, by simp⟩
    | cons deploy deploys ih =>
      obtain ⟨hHead, hTail⟩ := List.forall_mem_cons.mp hDeploys
      obtain ⟨hNext, hKeys⟩ := updateLatest_spec hLatest hChain hHead
      obtain ⟨hPoints, hAll⟩ := ih hNext hTail
      refine ⟨hPoints, fun id => (hAll id).trans ?_⟩
      simp only [hKeys, or_assoc, List.mem_cons, exists_eq_or_imp, @eq_comm _ id]
  obtain ⟨hPoints, hKeys⟩ := hFold h fun deploy hDeploy => (Finset.mem_sort (· ≤ ·)).mp hDeploy
  refine ⟨hPoints, fun id => (hKeys id).trans ?_⟩
  simp only [Finset.mem_sort, DeployChainIndex.Carries]

end

theorem pointsInto_seedSettled : PointsInto settled [] (seedSettled settled) := by
  have hFold : ∀ {sigs : List Bytes} {latest : LatestForDeploy}, PointsInto settled [] latest →
      (∀ sig ∈ sigs, sig ∈ settled) →
      PointsInto settled [] (sigs.foldl (fun latest sig => latest.insert sig (i64Max, [])) latest) := by
    intro sigs latest hLatest hSigs
    induction sigs generalizing latest with
    | nil => exact hLatest
    | cons sig sigs ih =>
      obtain ⟨hHead, hTail⟩ := List.forall_mem_cons.mp hSigs
      refine ih (fun id best hLookup => ?_) hTail
      obtain rfl | hNe := eq_or_ne id sig
      · exact .inl hHead
      · rw [AList.lookup_insert_ne hNe] at hLookup
        exact hLatest id best hLookup
  refine hFold (fun id best hLookup => ?_) fun sig hSig => (Finset.mem_sort _).mp hSig
  cases hLookup

theorem latestForDeploy_spec (settled : Finset Bytes) (chains : List DeployChainIndex) :
    PointsInto settled chains (latestForDeploy settled chains) ∧
      ∀ chain ∈ chains, ∀ id, chain.Carries id → id ∈ latestForDeploy settled chains := by
  induction chains using List.reverseRecOn with
  | nil => exact ⟨pointsInto_seedSettled, by simp⟩
  | append_singleton chains chain ih =>
    obtain ⟨hPoints, hKeys⟩ := ih
    have hNext := updateLatestChain_spec (hPoints.mono (List.subset_append_left chains [chain]))
      (List.mem_append_right chains (List.mem_singleton_self chain))
    have hEq : latestForDeploy settled (chains ++ [chain]) =
        updateLatestChain (latestForDeploy settled chains) chain := by
      rw [latestForDeploy, List.foldl_append]
      rfl
    rw [hEq]
    refine ⟨hNext.1, fun chain' hChain' id hCarries => (hNext.2 id).mpr ?_⟩
    obtain hChain' | hChain' := List.mem_append.mp hChain'
    · exact .inl (hKeys chain' hChain' id hCarries)
    · rw [List.mem_singleton.mp hChain'] at hCarries
      exact .inr hCarries

theorem exists_pointsTo (hChain : chain ∈ chains)
    (hCarries : chain.Carries id) (hUnsettled : id ∉ settled) :
    ∃ freshest ∈ chains, freshest.Carries id ∧ pointsTo (latestForDeploy settled chains) freshest id := by
  obtain ⟨hPoints, hKeys⟩ := latestForDeploy_spec settled chains
  obtain ⟨best, hLookup⟩ := Option.isSome_iff_exists.mp (AList.lookup_isSome.mpr (hKeys chain hChain id hCarries))
  obtain hSettled | ⟨freshest, hFreshest, hCarries', rfl⟩ := hPoints id best hLookup
  · exact absurd hSettled hUnsettled
  · refine ⟨freshest, hFreshest, hCarries', ?_⟩
    rw [pointsTo, hLookup]
    simp

theorem source_eq_of_pointsTo {other : DeployChainIndex} (hMem : id ∈ latest)
    (h : pointsTo latest chain id) (h' : pointsTo latest other id) :
    chain.sourceBlockHash = other.sourceBlockHash := by
  obtain ⟨best, hLookup⟩ := Option.isSome_iff_exists.mp (AList.lookup_isSome.mpr hMem)
  rw [pointsTo, hLookup] at h h'
  exact (of_decide_eq_true h).2.trans (of_decide_eq_true h').2.symm

theorem isRetained_iff :
    isRetained latest chain ↔ ∀ id, chain.Carries id → pointsTo latest chain id := by
  rw [isRetained, decide_eq_true_iff]
  constructor
  · rintro h id ⟨deploy, hDeploy, rfl⟩
    exact h deploy hDeploy
  · exact fun h deploy hDeploy => h _ ⟨deploy, hDeploy, rfl⟩

theorem mem_collateralOf {pair : Bytes × Bytes} :
    pair ∈ collateralOf latest chain ↔
      pair.1 ∈ chain.userDeploys ∧ pointsTo latest chain pair.1 ∧ pair.2 = chain.sourceBlockHash := by
  rw [collateralOf, List.mem_map]
  constructor
  · rintro ⟨sig, hSig, rfl⟩
    obtain ⟨hSig, hPoints⟩ := List.mem_filter.mp hSig
    exact ⟨(Finset.mem_sort _).mp hSig, hPoints, rfl⟩
  · rintro ⟨hSig, hPoints, hSource⟩
    refine ⟨pair.1, List.mem_filter.mpr ⟨(Finset.mem_sort _).mpr hSig, hPoints⟩, ?_⟩
    rw [← hSource]

end latest

namespace MergeInput

variable {input : MergeInput}

variable {chains : List DeployChainIndex}

theorem mem_of_loadChains {blocks : List Bytes}
    (h : input.loadChains blocks = .ok chains) (chain : DeployChainIndex) :
    chain ∈ chains ↔ ∃ block ∈ blocks, ∃ blockIndex, input.index block = .ok blockIndex ∧
      chain ∈ blockIndex.deployChains := by
  refine foldlM_ok_induction (fun taken chains => chain ∈ chains ↔ ∃ block ∈ taken, ∃ blockIndex,
    input.index block = .ok blockIndex ∧ chain ∈ blockIndex.deployChains) h (by simp) ?_
  intro taken block t t' _ hTaken hStep
  obtain ⟨blockIndex, hIndex, hRest⟩ := exists_of_bind_ok hStep
  obtain rfl := Except.ok.inj hRest
  rw [List.mem_append, hTaken]
  constructor
  · rintro (⟨block', hBlock', hRest⟩ | hChain)
    · exact ⟨block', List.mem_append_left _ hBlock', hRest⟩
    · exact ⟨block, List.mem_append_right _ (List.mem_singleton_self block), blockIndex, hIndex, hChain⟩
  · rintro ⟨block', hBlock', blockIndex', hIndex', hChain⟩
    obtain hBlock' | hBlock' := List.mem_append.mp hBlock'
    · exact .inl ⟨block', hBlock', blockIndex', hIndex', hChain⟩
    · obtain rfl := List.mem_singleton.mp hBlock'
      obtain rfl := Except.ok.inj (hIndex'.symm.trans hIndex)
      exact .inr hChain

theorem mem_of_scopeChains (h : input.scopeChains = .ok chains) :
    ∃ blocks, input.actualBlocks = .ok blocks ∧ ∀ chain, chain ∈ chains ↔ ∃ block ∈ blocks, ∃ blockIndex,
      input.index block = .ok blockIndex ∧ ∃ plain ∈ blockIndex.deployChains,
        input.stampPriorRejections plain = chain := by
  obtain ⟨blocks, hBlocks, hNext⟩ := exists_of_bind_ok h
  obtain ⟨plainChains, hLoad, hRest⟩ := exists_of_bind_ok hNext
  obtain rfl := Except.ok.inj hRest
  refine ⟨blocks, hBlocks, fun chain => ?_⟩
  rw [List.mem_map]
  constructor
  · rintro ⟨plain, hPlain, rfl⟩
    obtain ⟨block, hBlock, blockIndex, hIndex, hPlain⟩ := (mem_of_loadChains hLoad plain).mp hPlain
    exact ⟨block, hBlock, blockIndex, hIndex, plain, hPlain, rfl⟩
  · rintro ⟨block, hBlock, blockIndex, hIndex, plain, hPlain, rfl⟩
    exact ⟨plain, (mem_of_loadChains hLoad plain).mpr ⟨block, hBlock, blockIndex, hIndex, hPlain⟩, rfl⟩

variable {sig : Bytes}

theorem eq_of_source_eq (h : input.scopeChains = .ok chains)
    {chain other : DeployChainIndex} (hChain : chain ∈ chains) (hOther : other ∈ chains)
    (hSource : chain.sourceBlockHash = other.sourceBlockHash) (hSig : sig ∈ chain.userDeploys)
    (hSig' : sig ∈ other.userDeploys) : chain = other := by
  obtain ⟨blocks, -, hMem⟩ := mem_of_scopeChains h
  obtain ⟨block, -, blockIndex, hIndex, plain, hPlain, rfl⟩ := (hMem chain).mp hChain
  obtain ⟨block', -, blockIndex', hIndex', plain', hPlain', rfl⟩ := (hMem other).mp hOther
  have hBlock : block = block' := by
    rw [← blockIndex.source_eq plain hPlain, ← blockIndex'.source_eq plain' hPlain']
    exact hSource
  subst hBlock
  obtain rfl := Except.ok.inj (hIndex'.symm.trans hIndex)
  rw [blockIndex'.user_unique plain hPlain plain' hPlain' sig hSig hSig']

theorem mem_of_settledSigs {settled : Finset Bytes}
    (h : input.settledSigs chains = .ok settled) :
    sig ∈ settled ↔ sig ∈ checkedSigs chains ∧ input.sigSettledInBase sig = .ok true := by
  rw [settledSigs] at h
  cases hTest : partitionFallible input.sigSettledInBase ((checkedSigs chains).sort (· ≤ ·)) with
  | error e =>
    rw [hTest] at h
    cases h
  | ok parts =>
    rw [hTest] at h
    obtain rfl := Except.ok.inj h
    rw [List.mem_toFinset, (mem_of_partitionFallible hTest sig).1, Finset.mem_sort]

theorem mem_checkedSigs :
    sig ∈ checkedSigs chains ↔ ∃ chain ∈ chains, sig ∈ chain.userDeploys := by
  simp [checkedSigs]

structure SplitsRetained (input : MergeInput) (retained : List DeployChainIndex) (sets : MergeSets) : Prop where
  cover : ∀ chain ∈ retained, chain ∈ sets.actualSeqAll ∨ chain ∈ sets.lateSeqAll ∨ chain ∈ sets.baseConflicting ∨
    chain ∈ sets.settledConflicting
  actual : ∀ chain ∈ sets.actualSeqAll, chain ∈ retained
  other : ∀ chain, chain ∈ sets.lateSeqAll ∨ chain ∈ sets.baseConflicting ∨ chain ∈ sets.settledConflicting →
    chain ∈ retained
  disjoint : ∀ chain ∈ sets.actualSeqAll, chain ∉ sets.lateSeqAll
  pinned : ∀ chain, chain ∈ sets.pinned ↔ chain ∈ retained ∧ input.isSettledCommitted chain = .ok true

theorem mem_of_partition {p : DeployChainIndex → Bool} {yes no : List DeployChainIndex}
    (h : chains.partition p = (yes, no)) (chain : DeployChainIndex) :
    (chain ∈ yes ↔ chain ∈ chains ∧ p chain = true) ∧ (chain ∈ no ↔ chain ∈ chains ∧ p chain = false) := by
  rw [List.partition_eq_filter_filter] at h
  obtain ⟨rfl, rfl⟩ := Prod.mk.inj h
  simp

theorem mem_or_mem_of_partition {p : DeployChainIndex → Bool} {yes no : List DeployChainIndex}
    (h : chains.partition p = (yes, no)) {chain : DeployChainIndex} (hChain : chain ∈ chains) :
    chain ∈ yes ∨ chain ∈ no := by
  rw [(mem_of_partition h chain).1, (mem_of_partition h chain).2]
  cases p chain with
  | true => exact .inl ⟨hChain, rfl⟩
  | false => exact .inr ⟨hChain, rfl⟩

variable {sets : MergeSets}

theorem splitsRetained_of_splitRetained {retained : List DeployChainIndex} {checked settled : Finset Bytes}
    {collateral : List (Bytes × Bytes)}
    (h : input.splitRetained retained checked settled collateral = .ok sets) :
    SplitsRetained input retained sets ∧ sets.checkedSigs = checked ∧ sets.settledSigs = settled ∧
      sets.collateralLostPairs = collateral := by
  obtain ⟨⟨settledCommitted, ordinary⟩, hSettled, hNext⟩ := exists_of_bind_ok h
  obtain ⟨settledLog, -, hNext⟩ := exists_of_bind_ok hNext
  rcases hConflicts : partitionBaseConflicts input.eventLog ordinary settledLog with ⟨keptOrdinary, settledConflicting⟩
  rcases hWindow : splitWindowClosedChains (fun chain => (input.contentsOf chain).deployWindows) keptOrdinary
    input.floorBlockNumber input.deployLifespan with ⟨inWindow, windowRejected⟩
  simp only [hConflicts, hWindow] at hNext
  obtain ⟨baseEventLog, -, hRest⟩ := exists_of_bind_ok hNext
  rcases hBase : partitionBaseConflicts input.eventLog (inWindow.insertionSort (· ≤ ·)) baseEventLog with
    ⟨actual, baseConflicting⟩
  simp only [hBase] at hRest
  obtain rfl := Except.ok.inj hRest
  have hParts := mem_of_partitionFallible hSettled
  have hOrdinary := mem_of_partition hConflicts
  have hKept := mem_of_partition hWindow
  have hInWindow := mem_of_partition hBase
  have hFromOpen : ∀ chain ∈ inWindow.insertionSort (· ≤ ·), chain ∈ retained := fun chain hChain => by
    have hOpen := (List.mem_insertionSort _).mp hChain
    exact ((hParts chain).2.mp ((hOrdinary chain).1.mp ((hKept chain).1.mp hOpen).1).1).1
  refine ⟨⟨fun chain hChain => ?_, fun chain hChain => ?_, ?_, fun chain hChain => ?_, fun chain => ?_⟩, rfl, rfl, rfl⟩
  · simp only [List.mem_insertionSort, List.mem_append]
    obtain hCommitted | hOther := mem_or_mem_of_partitionFallible hSettled hChain
    · exact .inl (.inr hCommitted)
    · obtain hKeptOrdinary | hAtOdds := mem_or_mem_of_partition hConflicts hOther
      · obtain hOpen | hClosed := mem_or_mem_of_partition hWindow hKeptOrdinary
        · obtain hActual | hBaseConflict := mem_or_mem_of_partition hBase ((List.mem_insertionSort _).mpr hOpen)
          · exact .inl (.inl hActual)
          · exact .inr (.inr (.inl hBaseConflict))
        · exact .inr (.inl hClosed)
      · exact .inr (.inr (.inr hAtOdds))
  · rw [List.mem_insertionSort, List.mem_append] at hChain
    obtain hActual | hCommitted := hChain
    · exact hFromOpen chain ((hInWindow chain).1.mp hActual).1
    · exact ((hParts chain).1.mp hCommitted).1
  · rintro chain (hLate | hBaseConflict | hAtOdds)
    · have hKeptOrdinary := ((hKept chain).2.mp ((List.mem_insertionSort _).mp hLate)).1
      exact ((hParts chain).2.mp ((hOrdinary chain).1.mp hKeptOrdinary).1).1
    · exact hFromOpen chain ((hInWindow chain).2.mp hBaseConflict).1
    · exact ((hParts chain).2.mp ((hOrdinary chain).2.mp hAtOdds).1).1
  · rw [List.mem_insertionSort, List.mem_append] at hChain
    rw [List.mem_insertionSort]
    intro hLate
    obtain ⟨hKeptOrdinary, hClosed⟩ := (hKept chain).2.mp hLate
    obtain hActual | hCommitted := hChain
    · have hOpen := ((hKept chain).1.mp ((List.mem_insertionSort _).mp ((hInWindow chain).1.mp hActual).1)).2
      rw [hOpen] at hClosed
      cases hClosed
    · have hSettledYes := ((hParts chain).1.mp hCommitted).2
      have hSettledNo := ((hParts chain).2.mp ((hOrdinary chain).1.mp hKeptOrdinary).1).2
      rw [hSettledYes] at hSettledNo
      cases hSettledNo
  · rw [List.mem_toFinset, (hParts chain).1]

theorem prepare_spec (h : input.prepare = .ok sets) :
    ∃ chains settled, input.scopeChains = .ok chains ∧ input.settledSigs chains = .ok settled ∧
      let latest := latestForDeploy settled chains
      SplitsRetained input (chains.filter (isRetained latest)) sets ∧ sets.checkedSigs = checkedSigs chains ∧
        sets.settledSigs = settled ∧
        ∀ pair, pair ∈ sets.collateralLostPairs ↔
          ∃ chain ∈ chains, isRetained latest chain = false ∧ pair ∈ collateralOf latest chain := by
  obtain ⟨chains, hChains, hNext⟩ := exists_of_bind_ok h
  obtain ⟨settled, hSettled, hNext⟩ := exists_of_bind_ok hNext
  dsimp only at hNext
  rw [List.partition_eq_filter_filter] at hNext
  obtain ⟨hSplits, hChecked, hSettledSigs, hCollateral⟩ := splitsRetained_of_splitRetained hNext
  refine ⟨chains, settled, hChains, hSettled, hSplits, hChecked, hSettledSigs, fun pair => ?_⟩
  rw [hCollateral, List.mem_flatMap]
  simp [and_assoc]

theorem prepare_eq {settled : Finset Bytes}
    (hChains : input.scopeChains = .ok chains) (hSettled : input.settledSigs chains = .ok settled) :
    let latest := latestForDeploy settled chains
    input.prepare = input.splitRetained (chains.filter (isRetained latest)) (checkedSigs chains) settled
      ((chains.filter fun chain => !isRetained latest chain).flatMap (collateralOf latest)) := by
  simp only [prepare, hChains, hSettled, bind, Except.bind, List.partition_eq_filter_filter]
  rfl

theorem lt_of_mem_conflictPairs {eventLogs : List EventLogIndex} {pair : Nat × Nat}
    (h : pair ∈ conflictPairs eventLogs) : pair.1 < pair.2 := by
  simp only [conflictPairs, List.mem_append] at h
  obtain ((hProduce | hConsume) | hMeeting) | hGlobal := h
  · exact (mem_racePairs.mp hProduce).1
  · exact (mem_racePairs.mp hConsume).1
  · exact (mem_meetingPairs.mp hMeeting).1
  · exact (mem_globalPairs.mp hGlobal).1

theorem lt_of_mem_sharedDeployPairs {userDeployIds : List (Finset Bytes)} {pair : Nat × Nat}
    (h : pair ∈ sharedDeployPairs userDeployIds) : pair.1 < pair.2 := by
  obtain ⟨sig, -, hPair⟩ := List.mem_flatMap.mp h
  exact ((mem_pairsOf (List.pairwise_lt_range.filter _)).mp hPair).2.2

variable {conflictMap : RelationMap (Branch DeployChainIndex)}

theorem conflictMapOn_computeConflictMapFn {branchesSet : Finset (Branch DeployChainIndex)}
    (h : input.computeConflictMapFn branchesSet = .ok conflictMap) : ConflictMapOn conflictMap branchesSet := by
  obtain ⟨derived, hDerived, hRest⟩ := exists_of_bind_ok h
  set branches := input.orders.branches.iter branchesSet with hBranches
  have hLength : branches.length = (derived.map BranchDerived.combinedAllEventLog).length := by
    rw [List.length_map, length_of_mapM_ok hDerived]
  have hSet : branches.toFinset = branchesSet := by
    ext branch
    rw [List.mem_toFinset, hBranches, HashOrder.mem_iter]
  obtain rfl := Except.ok.inj hRest
  rw [computeConflictMapEventIndexed, if_neg (not_not.mpr hLength), Option.getD_some, ← hSet]
  set conflicts := if branches.length < 2 then []
    else conflictPairs (derived.map BranchDerived.combinedAllEventLog) with hConflicts
  have hNe : ∀ pair ∈ conflicts ++ sharedDeployPairs (derived.map BranchDerived.userDeployIds), pair.1 ≠ pair.2 := by
    intro pair hPair
    obtain hConflict | hShared := List.mem_append.mp hPair
    · rw [hConflicts] at hConflict
      split_ifs at hConflict
      · cases hConflict
      · exact (lt_of_mem_conflictPairs hConflict).ne
    · exact (lt_of_mem_sharedDeployPairs hShared).ne
  have hAll := conflictMapOn_relationMap (input.orders.branches.nodup_iter branchesSet) hNe
  rw [relationMap, List.foldl_append] at hAll
  convert hAll using 2
  · funext result pair
    cases branches[pair.1]? with
    | none => rfl
    | some a =>
      cases branches[pair.2]? with
      | none => rfl
      | some b => rfl
  · rfl

theorem computeBranchesFn_of_no_pairs {s : Finset DeployChainIndex}
    (h : computeDependsMapEventIndexed (input.orders.items.iter s) ((input.orders.items.iter s).map input.eventLog) =
      some (relationMap (input.orders.items.iter s) [])) :
    input.computeBranchesFn s = s.image fun chain => ⟨{chain}⟩ := by
  obtain ⟨hKeys, hRelated⟩ := relationMap_spec (input.orders.items.iter s) []
  have hNone : ∀ a b, ¬ (relationMap (input.orders.items.iter s) []).Related a b := by
    intro a b hab
    obtain ⟨i, j, -, -, hLinked⟩ := (hRelated a b).mp hab
    simp [Linked] at hLinked
  rw [computeBranchesFn, h, Option.getD_some, gatherRelatedSets_of_unrelated hNone, Finset.image_image]
  have hSet : (relationMap (input.orders.items.iter s) []).keys.toFinset = s := by
    ext chain
    rw [List.mem_toFinset, ← AList.mem_keys, hKeys, HashOrder.mem_iter]
  rw [hSet]
  rfl

variable {pinned : Finset DeployChainIndex} {actualSeq lateSeq : List DeployChainIndex}

theorem resolveOnce_of_unrelated
    {branches : Finset (Branch DeployChainIndex)} {base : Balances}
    (hBranches : input.computeBranchesFn (mergeSet actualSeq lateSeq input.dependsFn) = branches)
    (hMap : input.computeConflictMapFn branches = .ok conflictMap) (hNone : ∀ a b, ¬ conflictMap.Related a b)
    (hBase : baseMergeableChRes input.mergeableChannelsFn input.history.getData branches = .ok base) :
    let overdrawn := foldRejection input.orders input.mergeableChannelsFn base branches
    input.resolveOnce pinned actualSeq lateSeq = .ok ⟨(input.orders.branches.iter branches).filter (· ∉ overdrawn),
      lateSeq.toFinset ∪ rejectedAsDependents actualSeq lateSeq input.dependsFn ∪ overdrawn.biUnion Branch.items⟩ := by
  subst hBranches
  rw [resolveOnce, resolveConflicts_eq_ok hMap hBase]
  dsimp only
  rw [selectRejection_of_unrelated input.orders (conflictMapOn_computeConflictMapFn hMap) hNone]

theorem retry_eq (sets : MergeSets) (forced : Finset DeployChainIndex) :
    input.resolveConflictsWithUnavailableRetry sets forced =
      match input.resolveOnce sets.pinned (sets.actualSeqAll.filter (· ∉ forced))
          (sets.lateSeqAll ++ forced.sort (· ≤ ·)) with
      | .error e => .error e
      | .ok resolved =>
        match input.splitUnavailableFn sets.pinned resolved with
        | .error e => .error e
        | .ok split =>
          if split.rejected ⊆ forced then .ok split.resolved
          else input.resolveConflictsWithUnavailableRetry sets (forced ∪ split.rejected) := by
  rw [resolveConflictsWithUnavailableRetry]
  split
  · rename_i e hOnce
    rw [hOnce]
  · rename_i resolved hOnce
    rw [hOnce]
    split
    · rename_i e hSplit
      simp only [hSplit]
    · rename_i split hSplit
      simp only [hSplit]

variable {resolved : ResolvedConflicts DeployChainIndex}

theorem toMerge_ne_empty_of_resolveOnce
    (h : input.resolveOnce pinned actualSeq lateSeq = .ok resolved) :
    ∀ branch ∈ resolved.toMerge, branch.items ≠ ∅ := by
  obtain ⟨conflictMap, base, hMap, hBase⟩ := exists_of_resolveConflicts_ok h
  rw [resolveOnce, resolveConflicts_eq_ok hMap hBase] at h
  obtain rfl := Except.ok.inj h
  intro branch hBranch
  exact ne_empty_of_mem_computeBranchesFn (input.orders.branches.mem_iter.mp (List.mem_of_mem_filter hBranch))

theorem eq_of_moves_empty {before after : ResolvedConflicts DeployChainIndex} (h : Moves before after ∅)
    (hFull : ∀ branch ∈ before.toMerge, branch.items ≠ ∅) : after = before := by
  obtain ⟨toMerge, rejected⟩ := before
  obtain ⟨toMerge', rejected'⟩ := after
  have hMerge : toMerge' = toMerge.filter fun branch => branch.items ≠ ∅ := h.toMerge_eq rfl
  have hRejected : rejected' = rejected ∪ ∅ := h.rejected_eq
  rw [hMerge, hRejected, Finset.union_empty,
    List.filter_eq_self.mpr fun branch hBranch => decide_eq_true (hFull branch hBranch)]

theorem exists_of_retry {forced : Finset DeployChainIndex}
    (hForced : forced ⊆ sets.actualSeqAll.toFinset)
    (h : input.resolveConflictsWithUnavailableRetry sets forced = .ok resolved) :
    ∃ forcedRejected ⊆ sets.actualSeqAll.toFinset,
      input.resolveOnce sets.pinned (sets.actualSeqAll.filter (· ∉ forcedRejected))
        (sets.lateSeqAll ++ forcedRejected.sort (· ≤ ·)) = .ok resolved := by
  induction forced using resolveConflictsWithUnavailableRetry.induct input sets with
  | case1 forced e hOnce =>
    rw [retry_eq, hOnce] at h
    cases h
  | case2 forced once hOnce e hSplit =>
    rw [retry_eq, hOnce] at h
    simp only [hSplit] at h
    cases h
  | case3 forced once hOnce split hSplit hNone =>
    rw [retry_eq, hOnce] at h
    simp only [hSplit, if_pos hNone] at h
    obtain rfl := Except.ok.inj h
    refine ⟨forced, hForced, ?_⟩
    have hMoves : Moves once split.resolved split.rejected := moves_splitUnavailable hSplit
    have hNothing : split.rejected = ∅ := by
      refine Finset.eq_empty_of_forall_notMem fun c hc => ?_
      have hActual := List.mem_toFinset.mp (subset_of_splitUnavailableFn hOnce hSplit hc)
      exact of_decide_eq_true (List.mem_filter.mp hActual).2 (hNone hc)
    rw [hNothing] at hMoves
    rw [hOnce, eq_of_moves_empty hMoves (toMerge_ne_empty_of_resolveOnce hOnce)]
  | case4 forced once hOnce split hSplit hNew ih =>
    rw [retry_eq, hOnce] at h
    simp only [hSplit, if_neg hNew] at h
    refine ih (Finset.union_subset hForced fun c hc => ?_) h
    have hActual := List.mem_toFinset.mp (subset_of_splitUnavailableFn hOnce hSplit hc)
    exact List.mem_toFinset.mpr (List.mem_of_mem_filter hActual)

theorem exists_of_resolveScope
    (h : input.resolveScope sets = .ok resolved) :
    ∃ (once : ResolvedConflicts DeployChainIndex) (forced : Finset DeployChainIndex),
      forced ⊆ sets.actualSeqAll.toFinset ∧ input.resolveOnce sets.pinned (sets.actualSeqAll.filter (· ∉ forced))
        (sets.lateSeqAll ++ forced.sort (· ≤ ·)) = .ok once ∧
      resolved = ⟨once.toMerge, once.rejected ∪ (sets.baseConflicting ++ sets.settledConflicting).toFinset⟩ := by
  obtain ⟨once, hRetry, hRest⟩ := exists_of_bind_ok h
  obtain ⟨forced, hForced, hOnce⟩ := exists_of_retry (Finset.empty_subset _) (eq_ok_of_mapError hRetry)
  exact ⟨once, forced, hForced, hOnce, (Except.ok.inj hRest).symm⟩

theorem toMerge_ne_empty_of_resolveScope
    (h : input.resolveScope sets = .ok resolved) : ∀ branch ∈ resolved.toMerge, branch.items ≠ ∅ := by
  obtain ⟨once, forced, -, hOnce, rfl⟩ := exists_of_resolveScope h
  have hFull := toMerge_ne_empty_of_resolveOnce hOnce
  exact hFull

theorem mem_or_mem_of_resolveOnce
    (h : input.resolveOnce pinned actualSeq lateSeq = .ok resolved) :
    (∀ c ∈ actualSeq, resolved.Kept c ∨ c ∈ resolved.rejected) ∧ (∀ c ∈ lateSeq, c ∈ resolved.rejected) ∧
      ∀ c ∈ resolved.rejected, c ∈ actualSeq ∨ c ∈ lateSeq := by
  obtain ⟨conflictMap, base, hMap, hBase⟩ := exists_of_resolveConflicts_ok h
  rw [resolveOnce, resolveConflicts_eq_ok hMap hBase] at h
  obtain rfl := Except.ok.inj h
  dsimp only
  refine ⟨fun c hc => ?_, fun c hc => ?_, fun c hc => ?_⟩
  · by_cases hMerge : c ∈ mergeSet actualSeq lateSeq input.dependsFn
    · obtain ⟨branch, hBranch, hIn⟩ := ((input.partitions_computeBranchesFn _).cover c).mp hMerge
      by_cases hRejected : branch ∈ selectRejection input.orders
          (input.computeBranchesFn (mergeSet actualSeq lateSeq input.dependsFn)) conflictMap base
          input.mergeableChannelsFn input.rejectionCostF DeployChainIndex.priorRejections pinned
      · exact .inr (Finset.mem_union_right _ (Finset.mem_biUnion.mpr ⟨branch, hRejected, hIn⟩))
      · refine .inl ⟨branch, List.mem_filter.mpr ⟨input.orders.branches.mem_iter.mpr hBranch, ?_⟩, hIn⟩
        exact decide_eq_true hRejected
    · refine .inr (Finset.mem_union_left _ (Finset.mem_union_right _ ?_))
      exact mem_rejectedAsDependents.mpr ⟨hc, hMerge⟩
  · exact Finset.mem_union_left _ (Finset.mem_union_left _ (List.mem_toFinset.mpr hc))
  · obtain hEarly | hBranch := Finset.mem_union.mp hc
    · obtain hLate | hDependent := Finset.mem_union.mp hEarly
      · exact .inr (List.mem_toFinset.mp hLate)
      · exact .inl (mem_rejectedAsDependents.mp hDependent).1
    · obtain ⟨branch, hRejected, hIn⟩ := Finset.mem_biUnion.mp hBranch
      have hConflicts := conflictMapOn_computeConflictMapFn hMap
      have hSub := subset_of_mem_rejectionCandidates input.orders input.mergeableChannelsFn hConflicts
        (selectRejection_mem_rejectionCandidates input.orders base input.mergeableChannelsFn input.rejectionCostF
          DeployChainIndex.priorRejections hConflicts pinned)
      have hMerge := ((input.partitions_computeBranchesFn _).cover c).mpr ⟨branch, hSub hRejected, hIn⟩
      exact .inl (List.mem_toFinset.mp (Finset.mem_filter.mp hMerge).1)

structure ResolvesSets (sets : MergeSets) (resolved : ResolvedConflicts DeployChainIndex) : Prop where
  actual : ∀ c ∈ sets.actualSeqAll, resolved.Kept c ∨ c ∈ resolved.rejected
  late : ∀ c ∈ sets.lateSeqAll, c ∈ resolved.rejected
  baseConflicting : ∀ c ∈ sets.baseConflicting, c ∈ resolved.rejected
  settledConflicting : ∀ c ∈ sets.settledConflicting, c ∈ resolved.rejected
  kept : ∀ c, resolved.Kept c → c ∈ sets.actualSeqAll
  rejected : ∀ c ∈ resolved.rejected, c ∈ sets.actualSeqAll ∨ c ∈ sets.lateSeqAll ∨ c ∈ sets.baseConflicting ∨
    c ∈ sets.settledConflicting

theorem resolvesSets_of_resolveScope
    (h : input.resolveScope sets = .ok resolved) : ResolvesSets sets resolved := by
  obtain ⟨once, forced, hForced, hOnce, rfl⟩ := exists_of_resolveScope h
  obtain ⟨hActual, hLate, hGiven⟩ := mem_or_mem_of_resolveOnce hOnce
  constructor
  · intro c hc
    by_cases hForced : c ∈ forced
    · refine .inr (Finset.mem_union_left _ (hLate c ?_))
      exact List.mem_append_right _ ((Finset.mem_sort _).mpr hForced)
    · obtain hKept | hRejected := hActual c (List.mem_filter.mpr ⟨hc, decide_eq_true hForced⟩)
      · exact .inl hKept
      · exact .inr (Finset.mem_union_left _ hRejected)
  · exact fun c hc => Finset.mem_union_left _ (hLate c (List.mem_append_left _ hc))
  · exact fun c hc => Finset.mem_union_right _ (List.mem_toFinset.mpr (List.mem_append_left _ hc))
  · exact fun c hc => Finset.mem_union_right _ (List.mem_toFinset.mpr (List.mem_append_right _ hc))
  · intro c hc
    have hMerged := (Finset.mem_filter.mp (mem_of_kept_resolveOnce hOnce hc)).1
    exact List.mem_of_mem_filter (List.mem_toFinset.mp hMerged)
  · intro c hc
    obtain hOnceRejected | hConflicting := Finset.mem_union.mp hc
    · obtain hc | hc := hGiven c hOnceRejected
      · exact .inl (List.mem_of_mem_filter hc)
      · obtain hc | hc := List.mem_append.mp hc
        · exact .inr (.inl hc)
        · exact .inl (List.mem_toFinset.mp (hForced ((Finset.mem_sort _).mp hc)))
    · exact .inr (.inr (List.mem_append.mp (List.mem_toFinset.mp hConflicting)))

variable {resolved' : ResolvedConflicts DeployChainIndex}

theorem expandBranch_spec {rejectedBlocks : Finset Bytes}
    {branch : Branch DeployChainIndex}
    (h : input.expandBranch pinned rejectedBlocks resolved branch = .ok resolved') :
    ∃ kept stale : Finset DeployChainIndex, kept ∪ stale = branch.items ∧
      (∀ c ∈ kept, input.isStale pinned rejectedBlocks c = .ok false) ∧
      (∀ c ∈ stale, input.isStale pinned rejectedBlocks c = .ok true) ∧
      resolved' = ⟨if kept = ∅ then resolved.toMerge else resolved.toMerge ++ [⟨kept⟩], resolved.rejected ∪ stale⟩ := by
  obtain ⟨⟨stale, kept⟩, hSplit, hRest⟩ := exists_of_bind_ok h
  obtain rfl := Except.ok.inj hRest
  have hParts := mem_of_partitionFallible hSplit
  refine ⟨kept.toFinset, stale.toFinset, ?_, fun c hc => ?_, fun c hc => ?_, rfl⟩
  · ext c
    rw [Finset.mem_union, List.mem_toFinset, List.mem_toFinset]
    constructor
    · rintro (hc | hc)
      · exact (Finset.mem_sort _).mp ((hParts c).2.mp hc).1
      · exact (Finset.mem_sort _).mp ((hParts c).1.mp hc).1
    · exact fun hc => (mem_or_mem_of_partitionFallible hSplit ((Finset.mem_sort _).mpr hc)).symm
  · exact ((hParts c).2.mp (List.mem_toFinset.mp hc)).2
  · exact ((hParts c).1.mp (List.mem_toFinset.mp hc)).2

/-- Stale chains move to the rejected ones, and the chains that are left are not stale. -/
structure Expands (input : MergeInput) (pinned : Finset DeployChainIndex)
    (before after : ResolvedConflicts DeployChainIndex) (stale : Finset DeployChainIndex) : Prop where
  moves : Moves before after stale
  stale : ∀ c ∈ stale, input.isStale pinned (before.rejected.image DeployChainIndex.sourceBlockHash) c = .ok true
  kept : ∀ c, after.Kept c →
    input.isStale pinned (before.rejected.image DeployChainIndex.sourceBlockHash) c = .ok false

variable {expanded : ResolvedConflicts DeployChainIndex}

theorem exists_expands
    (hFull : ∀ branch ∈ resolved.toMerge, branch.items ≠ ∅)
    (h : input.expandLineage pinned resolved = .ok expanded) :
    ∃ stale, Expands input pinned resolved expanded stale := by
  rw [expandLineage] at h
  set rejectedBlocks := resolved.rejected.image DeployChainIndex.sourceBlockHash with hBlocks
  split_ifs at h with hNone
  · obtain rfl := Except.ok.inj h
    refine ⟨∅, ⟨⟨fun c hc => .inl hc, fun c hc => hc, fun c hc => absurd hc (Finset.notMem_empty c),
      (Finset.union_empty _).symm, fun _ => ?_⟩, fun c hc => absurd hc (Finset.notMem_empty c), fun c hc => ?_⟩⟩
    · exact (List.filter_eq_self.mpr fun branch hBranch => decide_eq_true (hFull branch hBranch)).symm
    · rw [← hBlocks, hNone, isStale, descendsRejected, Finset.sort_empty]
      split_ifs <;> rfl
  · refine foldlM_ok_induction (fun taken (after : ResolvedConflicts DeployChainIndex) => ∃ stale,
      Expands input pinned ⟨taken, resolved.rejected⟩ after stale) h ?_ ?_
    · exact ⟨∅, ⟨by constructor <;> simp [ResolvedConflicts.Kept], by simp, by simp [ResolvedConflicts.Kept]⟩⟩
    · rintro taken branch t t' - ⟨stale, hExpands⟩ hStep
      obtain ⟨kept, newStale, hItems, hKept, hStale, rfl⟩ := expandBranch_spec hStep
      refine ⟨stale ∪ newStale, hExpands.moves.snoc hItems, fun c hc => ?_, fun c hc => ?_⟩
      · exact (Finset.mem_union.mp hc).elim (hExpands.stale c) (hStale c)
      · exact (kept_ite_append.mp hc).elim (hExpands.kept c) (hKept c)

structure Stages (input : MergeInput) (sets : MergeSets) (resolved expanded : ResolvedConflicts DeployChainIndex) :
    Prop where
  prepared : input.prepare = .ok sets
  resolves : input.resolveScope sets = .ok resolved
  expands : input.expandLineage sets.pinned resolved = .ok expanded

theorem exists_stages {outcome : MergeOutcome} (h : input.merge = .ok outcome) :
    ∃ sets resolved expanded, Stages input sets resolved expanded ∧ input.finishMerge sets expanded = .ok outcome := by
  obtain ⟨sets, hPrepared, hNext⟩ := exists_of_bind_ok h
  obtain ⟨resolved, hResolves, hNext⟩ := exists_of_bind_ok hNext
  obtain ⟨expanded, hExpands, hFinish⟩ := exists_of_bind_ok hNext
  exact ⟨sets, resolved, expanded, ⟨hPrepared, hResolves, eq_ok_of_mapError hExpands⟩, hFinish⟩

theorem Stages.unique {sets' : MergeSets} {expanded' : ResolvedConflicts DeployChainIndex}
    (h : Stages input sets resolved expanded) (h' : Stages input sets' resolved' expanded') :
    sets = sets' ∧ resolved = resolved' ∧ expanded = expanded' := by
  obtain rfl := Except.ok.inj (h.prepared.symm.trans h'.prepared)
  obtain rfl := Except.ok.inj (h.resolves.symm.trans h'.resolves)
  exact ⟨rfl, rfl, Except.ok.inj (h.expands.symm.trans h'.expands)⟩

theorem Stages.merge_eq
    (h : Stages input sets resolved expanded) : input.merge = input.finishMerge sets expanded := by
  simp only [merge, h.prepared, h.resolves, h.expands, bind, Except.bind, Except.mapError]

theorem Stages.exists_expands
    (h : Stages input sets resolved expanded) : ∃ stale, Expands input sets.pinned resolved expanded stale :=
  MergeInput.exists_expands (toMerge_ne_empty_of_resolveScope h.resolves) h.expands

end MergeInput

end F1r3Node.Merging
