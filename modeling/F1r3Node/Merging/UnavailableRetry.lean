import F1r3Node.Merging.DagMergerSpec

/-! # The loop of the retries

Chains that turn out to be unavailable are forced out, and the rest is resolved again, until a round forces nothing
new out. Two chains count as one when they carry the same deploys.
-/

namespace F1r3Node.Merging

open Lib

def forcedOut (forced : List DeployChainIndex) (chain : DeployChainIndex) : Bool :=
  forced.any fun other => other.deploysWithCost = chain.deploysWithCost

/-- `insert` into the set of chains that are forced out. -/
def forceOut (forced : List DeployChainIndex) (chain : DeployChainIndex) : List DeployChainIndex :=
  if forcedOut forced chain then forced else forced ++ [chain]

namespace MergeInput

variable (input : MergeInput)

def retryRound (sets : MergeSets) (forced : List DeployChainIndex) : Except HistoryError SplitResult := do
  let resolved ← input.resolveOnce sets.pinned (sets.actualSeqAll.filter fun chain => !forcedOut forced chain)
    (sets.lateSeqAll ++ input.orders.items.iter forced.toFinset)
  input.splitUnavailableFn sets.pinned resolved

def forceAll (forced : List DeployChainIndex) (unavailable : Finset DeployChainIndex) : List DeployChainIndex :=
  (input.orders.items.iter unavailable).foldl forceOut forced

/-- The loop with a number of rounds; `none` when they do not suffice. -/
def retryLoop (sets : MergeSets) : Nat → List DeployChainIndex →
    Option (Except HistoryError (ResolvedConflicts DeployChainIndex × Nat))
  | 0, _ => none
  | rounds + 1, forced =>
    match input.retryRound sets forced with
    | .error e => some (.error e)
    | .ok split =>
      let next := input.forceAll forced split.rejected
      let added := next.length - forced.length
      if added = 0 then some (.ok (split.resolved, next.length)) else retryLoop sets rounds next

/-- The sets of forced chains that the rounds go through. -/
inductive ForcedFrom (sets : MergeSets) : List DeployChainIndex → List DeployChainIndex → Prop
  | here (forced : List DeployChainIndex) : ForcedFrom sets forced forced
  | round {forced later : List DeployChainIndex} {split : SplitResult} (hRound : input.retryRound sets forced = .ok split)
      (hLater : ForcedFrom sets (input.forceAll forced split.rejected) later) : ForcedFrom sets forced later

end MergeInput

section

variable {forced chains : List DeployChainIndex} {chain : DeployChainIndex}

theorem forcedOut_iff : forcedOut forced chain = true ↔ ∃ other ∈ forced, other.deploysWithCost = chain.deploysWithCost := by
  simp [forcedOut]

theorem prefix_foldl_forceOut (chains forced : List DeployChainIndex) : forced <+: chains.foldl forceOut forced := by
  induction chains generalizing forced with
  | nil => exact List.prefix_refl forced
  | cons chain chains ih =>
    refine List.IsPrefix.trans ?_ (ih (forceOut forced chain))
    rw [forceOut]
    split
    · exact List.prefix_refl forced
    · exact List.prefix_append forced [chain]

theorem foldl_forceOut_of_forced (h : ∀ chain ∈ chains, forcedOut forced chain = true) :
    chains.foldl forceOut forced = forced := by
  induction chains with
  | nil => rfl
  | cons chain chains ih =>
    obtain ⟨hHead, hTail⟩ := List.forall_mem_cons.mp h
    rw [List.foldl_cons, forceOut, if_pos hHead]
    exact ih hTail

theorem exists_new_of_length (h : (chains.foldl forceOut forced).length - forced.length ≠ 0) :
    ∃ chain ∈ chains, forcedOut forced chain = false := by
  by_contra hNone
  push Not at hNone
  rw [foldl_forceOut_of_forced fun chain hChain => by simpa using hNone chain hChain] at h
  exact h (Nat.sub_self _)

theorem forcedOut_foldl (hMem : chain ∈ chains) : forcedOut (chains.foldl forceOut forced) chain = true := by
  induction chains generalizing forced with
  | nil => cases hMem
  | cons first chains ih =>
    obtain rfl | hRest := List.mem_cons.mp hMem
    · have hNow : forcedOut (forceOut forced chain) chain = true := by
        rw [forceOut]
        split
        · assumption
        · exact forcedOut_iff.mpr ⟨chain, by simp, rfl⟩
      obtain ⟨other, hOther, hSame⟩ := forcedOut_iff.mp hNow
      exact forcedOut_iff.mpr ⟨other, (prefix_foldl_forceOut chains _).subset hOther, hSame⟩
    · exact ih hRest

end

namespace MergeInput

variable {input : MergeInput} {sets : MergeSets} {forced : List DeployChainIndex} {split : SplitResult}

theorem forcedOut_of_kept (h : input.retryRound sets forced = .ok split) {chain : DeployChainIndex}
    (hKept : split.resolved.Kept chain) : forcedOut forced chain = false := by
  obtain ⟨resolved, hOnce, hSplit⟩ := exists_of_bind_ok h
  have hBefore := (moves_splitUnavailable hSplit).kept_of_kept chain hKept
  have hActual := List.mem_toFinset.mp (Finset.mem_filter.mp (mem_of_kept_resolveOnce hOnce hBefore)).1
  simpa using (List.mem_filter.mp hActual).2

theorem mem_actual_of_rejected (h : input.retryRound sets forced = .ok split) {chain : DeployChainIndex}
    (hMem : chain ∈ split.rejected) : chain ∈ sets.actualSeqAll := by
  obtain ⟨resolved, hOnce, hSplit⟩ := exists_of_bind_ok h
  exact List.mem_of_mem_filter (List.mem_toFinset.mp (subset_of_splitUnavailableFn hOnce hSplit hMem))

def allDeploys (chains : List DeployChainIndex) : Finset (Finset DeployIdWithCost) :=
  (chains.map DeployChainIndex.deploysWithCost).toFinset

def remaining (sets : MergeSets) (forced : List DeployChainIndex) : Nat :=
  (allDeploys sets.actualSeqAll \ allDeploys forced).card

theorem mem_allDeploys {chains : List DeployChainIndex} {deploys : Finset DeployIdWithCost} :
    deploys ∈ allDeploys chains ↔ ∃ chain ∈ chains, chain.deploysWithCost = deploys := by
  simp [allDeploys]

theorem remaining_forceAll (h : input.retryRound sets forced = .ok split)
    (hNew : (input.forceAll forced split.rejected).length - forced.length ≠ 0) :
    remaining sets (input.forceAll forced split.rejected) < remaining sets forced := by
  obtain ⟨chain, hChain, hOut⟩ := exists_new_of_length hNew
  have hActual := mem_actual_of_rejected h (input.orders.items.mem_iter.mp hChain)
  have hNot : chain.deploysWithCost ∉ allDeploys forced := by
    intro hIn
    rw [forcedOut_iff.mpr (mem_allDeploys.mp hIn)] at hOut
    cases hOut
  have hNow : chain.deploysWithCost ∈ allDeploys (input.forceAll forced split.rejected) :=
    mem_allDeploys.mpr (forcedOut_iff.mp (forcedOut_foldl hChain))
  refine Finset.card_lt_card (Finset.ssubset_iff_of_subset ?_ |>.mpr ⟨chain.deploysWithCost, ?_, ?_⟩)
  · refine Finset.sdiff_subset_sdiff subset_rfl fun deploys hIn => ?_
    obtain ⟨other, hOther, hSame⟩ := mem_allDeploys.mp hIn
    exact mem_allDeploys.mpr ⟨other, (prefix_foldl_forceOut _ _).subset hOther, hSame⟩
  · exact Finset.mem_sdiff.mpr ⟨mem_allDeploys.mpr ⟨chain, hActual, rfl⟩, hNot⟩
  · exact fun hIn => (Finset.mem_sdiff.mp hIn).2 hNow

theorem exists_retryLoop (input : MergeInput) (sets : MergeSets) (forced : List DeployChainIndex) :
    ∃ result, input.retryLoop sets (remaining sets forced + 1) forced = some result := by
  suffices hAll : ∀ rounds forced, remaining sets forced < rounds →
      ∃ result, input.retryLoop sets rounds forced = some result from hAll _ forced (Nat.lt_succ_self _)
  intro rounds
  induction rounds with
  | zero => exact fun forced hLt => absurd hLt (Nat.not_lt_zero _)
  | succ rounds ih =>
    intro forced hLt
    rw [retryLoop]
    cases hRound : input.retryRound sets forced with
    | error e => exact ⟨_, rfl⟩
    | ok split =>
      simp only
      split
      · exact ⟨_, rfl⟩
      next hNew =>
        have hDown := remaining_forceAll hRound hNew
        exact ih _ (by omega)

theorem ForcedFrom.eq_of_fixed (hRound : input.retryRound sets forced = .ok split)
    (hSame : input.forceAll forced split.rejected = forced) {later : List DeployChainIndex}
    (h : input.ForcedFrom sets forced later) : later = forced := by
  induction h with
  | here forced => rfl
  | round hRound' hLater ih =>
    obtain rfl := Except.ok.inj (hRound.symm.trans hRound')
    exact (ih (hSame.symm ▸ hRound) (by rw [hSame, hSame])).trans hSame

theorem excluded_of_retryLoop {rounds n : Nat} {resolved : ResolvedConflicts DeployChainIndex}
    (h : input.retryLoop sets rounds forced = some (.ok (resolved, n))) {later : List DeployChainIndex}
    (hLater : input.ForcedFrom sets forced later) {chain kept : DeployChainIndex} (hChain : chain ∈ later)
    (hKept : resolved.Kept kept) : kept.deploysWithCost ≠ chain.deploysWithCost := by
  induction rounds generalizing forced later with
  | zero => cases h
  | succ rounds ih =>
    rw [retryLoop] at h
    cases hRound : input.retryRound sets forced with
    | error e =>
      rw [hRound] at h
      cases h
    | ok split =>
      rw [hRound] at h
      simp only at h
      split at h
      next hAdded =>
        obtain ⟨rfl, -⟩ := Prod.mk.inj (Except.ok.inj (Option.some.inj h))
        have hPrefix := prefix_foldl_forceOut (input.orders.items.iter split.rejected) forced
        have hSame : input.forceAll forced split.rejected = forced :=
          (hPrefix.eq_of_length_le (Nat.le_of_sub_eq_zero hAdded)).symm
        obtain rfl := hLater.eq_of_fixed hRound hSame
        intro hEq
        have hOut := forcedOut_of_kept hRound hKept
        rw [forcedOut_iff.mpr ⟨chain, hChain, hEq.symm⟩] at hOut
        cases hOut
      · cases hLater with
        | here =>
          refine ih h (.here _) ?_
          exact (prefix_foldl_forceOut _ _).subset hChain
        | round hRound' hRest =>
          obtain rfl := Except.ok.inj (hRound.symm.trans hRound')
          exact ih h hRest hChain

/-- The loop ends after at most one round more than there are chains, and no chain that a round forced out is among the
survivors of its result. -/
theorem retryLoop_ends (input : MergeInput) (sets : MergeSets) :
    ∃ rounds ≤ sets.actualSeqAll.length + 1, ∃ result, input.retryLoop sets rounds [] = some result ∧
      ∀ resolved count, result = .ok (resolved, count) → ∀ forced, input.ForcedFrom sets [] forced →
        ∀ chain ∈ forced, ∀ kept, resolved.Kept kept → kept.deploysWithCost ≠ chain.deploysWithCost := by
  obtain ⟨result, hResult⟩ := exists_retryLoop input sets []
  refine ⟨remaining sets [] + 1, ?_, result, hResult, ?_⟩
  · have hCard : (allDeploys sets.actualSeqAll \ allDeploys []).card ≤ sets.actualSeqAll.length := by
      calc (allDeploys sets.actualSeqAll \ allDeploys []).card
          ≤ (allDeploys sets.actualSeqAll).card := Finset.card_le_card Finset.sdiff_subset
        _ ≤ (sets.actualSeqAll.map DeployChainIndex.deploysWithCost).length := List.toFinset_card_le _
        _ = sets.actualSeqAll.length := List.length_map _
    exact Nat.succ_le_succ hCard
  · rintro resolved count rfl forced hForced chain hChain kept hKept
    exact excluded_of_retryLoop hResult hForced hChain hKept

end MergeInput

end F1r3Node.Merging
