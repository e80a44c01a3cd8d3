import F1r3Node.Lib.Fallible
import F1r3Node.Merging.DeployChainIndex

/-! # Survivors that do not fit the base

A chain of a surviving branch may consume what neither the base nor an earlier chain holds, and several chains may
write a cell that holds one number.
-/

namespace F1r3Node.Merging

open Shared Lib

def ResolvedConflicts.Kept {R : Type} (resolved : ResolvedConflicts R) (item : R) : Prop :=
  ∃ branch ∈ resolved.toMerge, item ∈ branch.items

section order

variable (depends : DeployChainIndex → DeployChainIndex → Bool)

def priorityKey (chain : DeployChainIndex) : Natᵒᵈ ×ₗ DeployChainIndex :=
  toLex (.toDual chain.priorRejections, chain)

/-- The first chain by priority that depends on no other, or the first of all in a cycle. -/
def selectPending (pending : List DeployChainIndex) : Option DeployChainIndex :=
  let free := pending.filter fun candidate => !pending.any fun source => source ≠ candidate && depends candidate source
  (free.argmin priorityKey).or (pending.argmin priorityKey)

def takeOrdered : Nat → List DeployChainIndex → List DeployChainIndex
  | 0, _ => []
  | n + 1, pending =>
    match selectPending depends pending with
    | none => []
    | some selected => selected :: takeOrdered n (pending.erase selected)

def dependencyOrderedBranchItems (branch : Branch DeployChainIndex) : List DeployChainIndex :=
  takeOrdered depends branch.items.card (branch.items.sort (· ≤ ·))

variable {depends}

variable {pending : List DeployChainIndex}

theorem mem_of_selectPending {c : DeployChainIndex}
    (h : selectPending depends pending = some c) : c ∈ pending := by
  rw [selectPending, Option.or_eq_some_iff] at h
  obtain h | ⟨-, h⟩ := h
  · exact List.mem_of_mem_filter (List.argmin_mem h)
  · exact List.argmin_mem h

variable (depends) in
theorem exists_selectPending (h : pending ≠ []) :
    ∃ c, selectPending depends pending = some c := by
  have hSome : List.argmin priorityKey pending ≠ none := fun hNone => h (List.argmin_eq_none.mp hNone)
  obtain ⟨c, hAll⟩ := Option.ne_none_iff_exists'.mp hSome
  rw [selectPending, hAll]
  cases List.argmin priorityKey (pending.filter fun candidate =>
      !pending.any fun source => source ≠ candidate && depends candidate source) with
  | some free => exact ⟨free, rfl⟩
  | none => exact ⟨c, rfl⟩

theorem takeOrdered_perm {n : Nat} (h : pending.length = n) :
    (takeOrdered depends n pending).Perm pending := by
  induction n generalizing pending with
  | zero =>
    rw [List.length_eq_zero_iff.mp h]
    exact .refl _
  | succ n ih =>
    obtain ⟨c, hSelect⟩ := exists_selectPending depends (List.ne_nil_of_length_eq_add_one h)
    have hMem := mem_of_selectPending hSelect
    rw [takeOrdered, hSelect]
    have hLength : (pending.erase c).length = n := by
      rw [List.length_erase_of_mem hMem, h]
      rfl
    exact ((ih hLength).cons c).trans (List.perm_cons_erase hMem).symm

theorem mem_dependencyOrderedBranchItems {branch : Branch DeployChainIndex} {c : DeployChainIndex} :
    c ∈ dependencyOrderedBranchItems depends branch ↔ c ∈ branch.items := by
  rw [dependencyOrderedBranchItems, (takeOrdered_perm (Finset.length_sort _)).mem_iff, Finset.mem_sort]

end order

section unavailable

variable (codec : DatumCodec) (base : BaseHistory HotStoreBinaryAction)
  (depends : DeployChainIndex → DeployChainIndex → Bool) (mergeableChannels : DeployChainIndex → NumberChannelsDiff)
  (stateChanges : DeployChainIndex → StateChange)

def removeFromAvailable (available removed : List Bytes) : Option (List Bytes) :=
  removed.foldlM (fun available item => if item ∈ available then some (available.erase item) else none) available

def binaryDataIsSingleNumber (data : List Bytes) : Bool := data.length = 1 ∧ data.all codec.encodedDatumIsNumber

/-- A channel that is empty at the base counts as a cell only once it has another writer. -/
def numericCellWouldOverfill (base current added : List Bytes) : Bool :=
  if added.isEmpty then false
  else if binaryDataIsSingleNumber codec base then current.length + added.length > 1
  else base.isEmpty && !current.isEmpty && decide (current.length + added.length > 1) &&
    (current ++ added).all codec.encodedDatumIsNumber

def branchMergeableChannels (branchItems : List DeployChainIndex) : Except HistoryError NumberChannelsDiff :=
  foldNumberChannels mergeTypeMismatch (fun channel _ _ =>
    .mergeError ("IntegerAdd overflow combining mergeable channel " ++ displayHash channel)) mergeableChannels branchItems

/-- Data and continuations that are left, where they have been read. -/
structure Available where
  data : AList fun _ : Bytes => List Bytes
  continuations : AList fun _ : List Bytes => List Bytes

/-- A chain that does not apply gives `none`; a failed read is an error. -/
abbrev Applicable := OptionT (Except HistoryError)

def readAvailable {κ : Type} [DecidableEq κ] (read : κ → Except HistoryError (List Bytes))
    (available : AList fun _ : κ => List Bytes) (key : κ) : Applicable (List Bytes) :=
  match available.lookup key with
  | some items => pure items
  | none => OptionT.lift (read key)

def removeAvailable {κ : Type} [DecidableEq κ] (read : κ → Except HistoryError (List Bytes))
    (available : AList fun _ : κ => List Bytes) (key : κ) (removed : List Bytes) :
    Applicable (AList fun _ : κ => List Bytes) := do
  if removed.isEmpty then return available
  let items ← readAvailable read available key
  match removeFromAvailable items removed with
  | some left => return available.insert key left
  | none => failure

/-- A channel that only other chains of the branch merge is not available for a plain change. -/
def removeDatums (chainMergeable branchMergeable : NumberChannelsDiff) (data : AList fun _ : Bytes => List Bytes)
    (entry : Sigma fun _ : Bytes => ChannelChange Bytes) : Applicable (AList fun _ : Bytes => List Bytes) :=
  if entry.1 ∈ chainMergeable then pure data
  else if entry.1 ∈ branchMergeable then failure
  else removeAvailable base.getDataProjBinary data entry.1 entry.2.removed

def addDatums (chainMergeable : NumberChannelsDiff) (data : AList fun _ : Bytes => List Bytes)
    (entry : Sigma fun _ : Bytes => ChannelChange Bytes) : Applicable (AList fun _ : Bytes => List Bytes) := do
  if entry.1 ∈ chainMergeable then return data
  if entry.2.added.isEmpty then return data
  let current ← readAvailable base.getDataProjBinary data entry.1
  let atBase ← OptionT.lift (base.getDataProjBinary entry.1)
  if numericCellWouldOverfill codec atBase current entry.2.added then failure
  return data.insert entry.1 (current ++ entry.2.added)

def baseContinuations (consumeChannels : List Bytes) : Except HistoryError (List Bytes) :=
  base.getContinuationsProjBinary (hashFromHashes codec.blake consumeChannels)

def addContinuations (continuations : AList fun _ : List Bytes => List Bytes)
    (entry : Sigma fun _ : List Bytes => ChannelChange Bytes) :
    Applicable (AList fun _ : List Bytes => List Bytes) := do
  if entry.2.added.isEmpty then return continuations
  let current ← readAvailable (baseContinuations codec base) continuations entry.1
  return continuations.insert entry.1 (current ++ entry.2.added)

def applyChain (branchMergeable : NumberChannelsDiff) (available : Available) (chain : DeployChainIndex) :
    Applicable Available := do
  let changes := stateChanges chain
  let chainMergeable := mergeableChannels chain
  let data ← changes.datumsChanges.entries.foldlM (removeDatums base chainMergeable branchMergeable) available.data
  let continuations ← changes.contChanges.entries.foldlM (fun continuations entry =>
    removeAvailable (baseContinuations codec base) continuations entry.1 entry.2.removed) available.continuations
  let data ← changes.datumsChanges.entries.foldlM (addDatums codec base chainMergeable) data
  let continuations ← changes.contChanges.entries.foldlM (addContinuations codec base) continuations
  return ⟨data, continuations⟩

structure BranchSplit where
  available : Available
  accepted : Finset DeployChainIndex
  rejected : Finset DeployChainIndex

def splitChain (branchMergeable : NumberChannelsDiff) (split : BranchSplit) (chain : DeployChainIndex) :
    Except HistoryError BranchSplit := do
  if ∃ rejectedChain ∈ split.rejected, depends chain rejectedChain then
    return { split with rejected := insert chain split.rejected }
  match ← (applyChain codec base mergeableChannels stateChanges branchMergeable split.available chain).run with
  | some available => return { split with available, accepted := insert chain split.accepted }
  | none => return { split with rejected := insert chain split.rejected }

def splitUnavailableBranchConsumes (branch : Branch DeployChainIndex) : Except HistoryError BranchSplit := do
  let branchItems := dependencyOrderedBranchItems depends branch
  let branchMergeable ← branchMergeableChannels mergeableChannels branchItems
  branchItems.foldlM (splitChain codec base depends mergeableChannels stateChanges branchMergeable) ⟨⟨∅, ∅⟩, ∅, ∅⟩

/-- Chains leave `toMerge` for `rejected`, and branches that are left empty go. -/
structure SplitResult where
  resolved : ResolvedConflicts DeployChainIndex
  rejected : Finset DeployChainIndex

def splitBranch (split : SplitResult) (branch : Branch DeployChainIndex) : Except HistoryError SplitResult := do
  let { accepted, rejected, .. } ← splitUnavailableBranchConsumes codec base depends mergeableChannels stateChanges branch
  return {
    resolved := {
      toMerge := if accepted = ∅ then split.resolved.toMerge else split.resolved.toMerge ++ [⟨accepted⟩]
      rejected := split.resolved.rejected ∪ rejected }
    rejected := split.rejected ∪ rejected }

def splitUnavailableResolvedBranches (resolved : ResolvedConflicts DeployChainIndex) :
    Except HistoryError SplitResult :=
  resolved.toMerge.foldlM (splitBranch codec base depends mergeableChannels stateChanges)
    ⟨⟨[], resolved.rejected⟩, ∅⟩

end unavailable

section overfilled

variable (codec : DatumCodec) (base : BaseHistory HotStoreBinaryAction)
  (depends : DeployChainIndex → DeployChainIndex → Bool) (mergeableChannels : DeployChainIndex → NumberChannelsDiff)
  (stateChanges : DeployChainIndex → StateChange) (pinned : Finset DeployChainIndex)

def allChains (toMerge : List (Branch DeployChainIndex)) : List DeployChainIndex :=
  (toMerge.flatMap fun branch => branch.items.sort (· ≤ ·)).insertionSort (· ≤ ·)

/-- The changes of a channel with the chains that add to it, and the chains that change a folded
channel outside the fold. -/
structure CellWriters where
  combined : AList fun _ : Bytes => ChannelChange Bytes
  producers : AList fun _ : Bytes => List DeployChainIndex
  rejectedSeed : Finset DeployChainIndex

def addWriter (folded : Finset Bytes) (chain : DeployChainIndex) (writers : CellWriters)
    (entry : Sigma fun _ : Bytes => ChannelChange Bytes) : CellWriters :=
  if entry.1 ∈ mergeableChannels chain then writers
  else if entry.1 ∈ folded ∧ (entry.2.added ≠ [] ∨ entry.2.removed ≠ []) then
    { writers with rejectedSeed := insert chain writers.rejectedSeed }
  else
    let current := (writers.combined.lookup entry.1).getD ⟨[], []⟩
    { writers with
      combined := writers.combined.insert entry.1
        ⟨current.added ++ entry.2.added, current.removed ++ entry.2.removed⟩
      producers :=
        if entry.2.added = [] then writers.producers
        else writers.producers.insert entry.1 ((writers.producers.lookup entry.1).getD [] ++ [chain]) }

def addWriters (folded : Finset Bytes) (writers : CellWriters) (chain : DeployChainIndex) : CellWriters :=
  (stateChanges chain).datumsChanges.entries.foldl (addWriter mergeableChannels folded chain) writers

def producerKey (chain : DeployChainIndex) : Bool ×ₗ Natᵒᵈ ×ₗ DeployChainIndex :=
  toLex (decide (chain ∉ pinned), priorityKey chain)

def cellLosers (producers : AList fun _ : Bytes => List DeployChainIndex)
    (entry : Sigma fun _ : Bytes => ChannelChange Bytes) : Except HistoryError (List DeployChainIndex) := do
  if entry.2.added.isEmpty then return []
  let baseDatum ← base.getData entry.1
  let isSingleNumber := decide (baseDatum.length = 1) && baseDatum.any fun datum => (tryGetNumberWithRnd datum.a).isSome
  let baseBinary ← base.getDataProjBinary entry.1
  let kept := multisetDiff baseBinary entry.2.removed
  let emptyNumericCell := baseDatum.isEmpty && kept.isEmpty && entry.2.added.all codec.encodedDatumIsNumber
  if !isSingleNumber && !emptyNumericCell then return []
  if kept.length + entry.2.added.length > 1 then
    let ordered := ((producers.lookup entry.1).getD []).insertionSort fun a b => producerKey pinned a ≤ producerKey pinned b
    return ordered.drop 1
  else return []

def splitOverfilledSingleValueCells (resolved : ResolvedConflicts DeployChainIndex) :
    Except HistoryError SplitResult := do
  let chains := allChains resolved.toMerge
  let folded := (chains.flatMap fun chain => (mergeableChannels chain).keys).toFinset
  let writers := chains.foldl (addWriters mergeableChannels stateChanges folded) ⟨∅, ∅, ∅⟩
  let losers ← writers.combined.entries.mapM (cellLosers codec base pinned writers.producers)
  let rejectedSeed := writers.rejectedSeed ∪ losers.flatten.toFinset
  if rejectedSeed = ∅ then return ⟨resolved, ∅⟩
  let rejected := (chains.filter fun chain => chain ∈ rejectedSeed ∨ ∃ seed ∈ rejectedSeed, depends chain seed).toFinset
  return {
    resolved := {
      toMerge := (resolved.toMerge.map fun branch => ⟨branch.items.filter (· ∉ rejected)⟩).filter fun branch =>
        branch.items ≠ ∅
      rejected := resolved.rejected ∪ rejected }
    rejected }

def splitUnavailable (resolved : ResolvedConflicts DeployChainIndex) : Except HistoryError SplitResult := do
  let unavailable ← splitUnavailableResolvedBranches codec base depends mergeableChannels stateChanges resolved
  let overfilled ← splitOverfilledSingleValueCells codec base depends mergeableChannels stateChanges pinned
    unavailable.resolved
  return ⟨overfilled.resolved, unavailable.rejected ∪ overfilled.rejected⟩

end overfilled

structure Moves (before after : ResolvedConflicts DeployChainIndex) (rejected : Finset DeployChainIndex) : Prop where
  kept_or_mem : ∀ c, before.Kept c → after.Kept c ∨ c ∈ rejected
  kept_of_kept : ∀ c, after.Kept c → before.Kept c
  kept_of_mem : ∀ c ∈ rejected, before.Kept c
  rejected_eq : after.rejected = before.rejected ∪ rejected
  toMerge_eq : rejected = ∅ → after.toMerge = before.toMerge.filter fun branch => branch.items ≠ ∅

section moves

variable {codec : DatumCodec} {base : BaseHistory HotStoreBinaryAction}
  {depends : DeployChainIndex → DeployChainIndex → Bool} {mergeableChannels : DeployChainIndex → NumberChannelsDiff}
  {stateChanges : DeployChainIndex → StateChange} {pinned : Finset DeployChainIndex}

theorem Moves.trans {a b c : ResolvedConflicts DeployChainIndex} {r r' : Finset DeployChainIndex} (h : Moves a b r)
    (h' : Moves b c r') : Moves a c (r ∪ r') where
  kept_or_mem item hKept := by
    obtain hKept | hMem := h.kept_or_mem item hKept
    · exact (h'.kept_or_mem item hKept).imp_right (Finset.mem_union_right r)
    · exact .inr (Finset.mem_union_left r' hMem)
  kept_of_kept item hKept := h.kept_of_kept item (h'.kept_of_kept item hKept)
  kept_of_mem item hMem := by
    obtain hMem | hMem := Finset.mem_union.mp hMem
    · exact h.kept_of_mem item hMem
    · exact h.kept_of_kept item (h'.kept_of_mem item hMem)
  rejected_eq := by rw [h'.rejected_eq, h.rejected_eq, Finset.union_assoc]
  toMerge_eq hNone := by
    obtain ⟨hr, hr'⟩ := Finset.union_eq_empty.mp hNone
    rw [h'.toMerge_eq hr', h.toMerge_eq hr, List.filter_filter]
    simp

theorem splitChain_eq_ok {branchMergeable : NumberChannelsDiff} {split split' : BranchSplit} {chain : DeployChainIndex}
    (h : splitChain codec base depends mergeableChannels stateChanges branchMergeable split chain = .ok split') :
    split'.accepted ∪ split'.rejected = insert chain (split.accepted ∪ split.rejected) := by
  rw [splitChain] at h
  split_ifs at h
  · obtain rfl := Except.ok.inj h
    exact Finset.union_insert _ _ _
  · obtain ⟨applied, -, hRest⟩ := exists_of_bind_ok h
    cases applied with
    | some available =>
      obtain rfl := Except.ok.inj hRest
      exact Finset.insert_union _ _ _
    | none =>
      obtain rfl := Except.ok.inj hRest
      exact Finset.union_insert _ _ _

variable {branch : Branch DeployChainIndex}

theorem splitUnavailableBranchConsumes_eq_ok {split : BranchSplit}
    (h : splitUnavailableBranchConsumes codec base depends mergeableChannels stateChanges branch = .ok split) :
    split.accepted ∪ split.rejected = branch.items := by
  obtain ⟨branchMergeable, -, hFold⟩ := exists_of_bind_ok h
  have hTaken : split.accepted ∪ split.rejected = (dependencyOrderedBranchItems depends branch).toFinset := by
    refine foldlM_ok_induction (fun taken split => split.accepted ∪ split.rejected = taken.toFinset) hFold rfl ?_
    intro taken chain t t' _ hTaken hStep
    rw [splitChain_eq_ok hStep, hTaken, List.toFinset_append, Finset.union_comm]
    rfl
  ext c
  rw [hTaken, List.mem_toFinset, mem_dependencyOrderedBranchItems]

variable {toMerge : List (Branch DeployChainIndex)} {rejected : Finset DeployChainIndex} {c : DeployChainIndex}

theorem kept_append_singleton
    :
    (⟨toMerge ++ [branch], rejected⟩ : ResolvedConflicts DeployChainIndex).Kept c ↔
      (⟨toMerge, rejected⟩ : ResolvedConflicts DeployChainIndex).Kept c ∨ c ∈ branch.items := by
  simp [ResolvedConflicts.Kept, or_and_right, exists_or]

theorem kept_ite_append {accepted : Finset DeployChainIndex}
    :
    (⟨if accepted = ∅ then toMerge else toMerge ++ [⟨accepted⟩], rejected⟩ :
        ResolvedConflicts DeployChainIndex).Kept c ↔
      (⟨toMerge, rejected⟩ : ResolvedConflicts DeployChainIndex).Kept c ∨ c ∈ accepted := by
  split_ifs with hNone
  · simp [hNone]
  · exact kept_append_singleton

theorem Moves.snoc {taken : List (Branch DeployChainIndex)}
    {before after moved accepted : Finset DeployChainIndex}
    (h : Moves ⟨taken, before⟩ ⟨toMerge, after⟩ moved) (hItems : accepted ∪ rejected = branch.items) :
    Moves ⟨taken ++ [branch], before⟩
      ⟨if accepted = ∅ then toMerge else toMerge ++ [⟨accepted⟩], after ∪ rejected⟩ (moved ∪ rejected) where
  kept_or_mem c hKept := by
    rw [kept_ite_append]
    obtain hKept | hIn := kept_append_singleton.mp hKept
    · exact (h.kept_or_mem c hKept).imp .inl (Finset.mem_union_left rejected)
    · rw [← hItems, Finset.mem_union] at hIn
      exact hIn.imp .inr (Finset.mem_union_right moved)
  kept_of_kept c hKept := by
    rw [kept_append_singleton, ← hItems]
    exact (kept_ite_append.mp hKept).imp (h.kept_of_kept c) (Finset.mem_union_left rejected)
  kept_of_mem c hMem := by
    rw [kept_append_singleton, ← hItems]
    exact (Finset.mem_union.mp hMem).imp (h.kept_of_mem c) (Finset.mem_union_right accepted)
  rejected_eq := by
    have hEq : after = before ∪ moved := h.rejected_eq
    rw [hEq, Finset.union_assoc]
  toMerge_eq hNone := by
    obtain ⟨hMoved, rfl⟩ := Finset.union_eq_empty.mp hNone
    have hEq : toMerge = taken.filter fun branch => branch.items ≠ ∅ := h.toMerge_eq hMoved
    rw [Finset.union_empty] at hItems
    rw [List.filter_append, ← hEq, hItems]
    split_ifs with hEmpty
    · simp [hEmpty]
    · simp [hEmpty]

variable {resolved : ResolvedConflicts DeployChainIndex} {split : SplitResult}

theorem moves_splitUnavailableResolvedBranches
    (h : splitUnavailableResolvedBranches codec base depends mergeableChannels stateChanges resolved = .ok split) :
    Moves resolved split.resolved split.rejected := by
  refine foldlM_ok_induction (fun taken (split : SplitResult) =>
    Moves ⟨taken, resolved.rejected⟩ split.resolved split.rejected) h ?_ ?_
  · constructor <;> simp [ResolvedConflicts.Kept]
  · intro taken branch t t' _ hTaken hStep
    obtain ⟨⟨available, accepted, rejected⟩, hSplit, hRest⟩ := exists_of_bind_ok hStep
    obtain rfl := Except.ok.inj hRest
    exact hTaken.snoc (splitUnavailableBranchConsumes_eq_ok hSplit)

theorem mem_allChains
    :
    c ∈ allChains toMerge ↔ (⟨toMerge, rejected⟩ : ResolvedConflicts DeployChainIndex).Kept c := by
  simp [allChains, ResolvedConflicts.Kept]

theorem moves_prune
    (hKept : ∀ c ∈ rejected, resolved.Kept c) :
    Moves resolved
      ⟨(resolved.toMerge.map fun branch => ⟨branch.items.filter (· ∉ rejected)⟩).filter fun branch => branch.items ≠ ∅,
        resolved.rejected ∪ rejected⟩ rejected := by
  have hPruned : ∀ c, (⟨(resolved.toMerge.map fun branch => ⟨branch.items.filter (· ∉ rejected)⟩).filter fun branch =>
      branch.items ≠ ∅, resolved.rejected ∪ rejected⟩ : ResolvedConflicts DeployChainIndex).Kept c ↔
        resolved.Kept c ∧ c ∉ rejected := by
    intro c
    constructor
    · rintro ⟨branch, hBranch, hIn⟩
      obtain ⟨original, hOriginal, rfl⟩ := List.mem_map.mp (List.mem_of_mem_filter hBranch)
      obtain ⟨hIn, hNot⟩ := Finset.mem_filter.mp hIn
      exact ⟨⟨original, hOriginal, hIn⟩, hNot⟩
    · rintro ⟨⟨branch, hBranch, hIn⟩, hNot⟩
      have hMem : c ∈ branch.items.filter (· ∉ rejected) := Finset.mem_filter.mpr ⟨hIn, hNot⟩
      refine ⟨⟨_⟩, List.mem_filter.mpr ⟨List.mem_map_of_mem hBranch, ?_⟩, hMem⟩
      exact decide_eq_true (Finset.ne_empty_of_mem hMem)
  constructor
  · intro c hc
    rw [hPruned]
    tauto
  · exact fun c hc => ((hPruned c).mp hc).1
  · exact hKept
  · rfl
  · rintro rfl
    simp

theorem moves_splitOverfilledSingleValueCells
    (h : splitOverfilledSingleValueCells codec base depends mergeableChannels stateChanges pinned resolved =
      .ok split) (hFull : ∀ branch ∈ resolved.toMerge, branch.items ≠ ∅) :
    Moves resolved split.resolved split.rejected := by
  obtain ⟨losers, -, hRest⟩ := exists_of_bind_ok h
  dsimp only at hRest
  split_ifs at hRest
  · obtain rfl := Except.ok.inj hRest
    refine ⟨fun c hc => .inl hc, fun c hc => hc, fun c hc => absurd hc (Finset.notMem_empty c), ?_, fun _ => ?_⟩
    · exact (Finset.union_empty _).symm
    · exact (List.filter_eq_self.mpr fun branch hBranch => decide_eq_true (hFull branch hBranch)).symm
  · obtain rfl := Except.ok.inj hRest
    refine moves_prune fun c hc => ?_
    exact mem_allChains.mp (List.mem_of_mem_filter (List.mem_toFinset.mp hc))

theorem toMerge_ne_empty_of_splitUnavailable
    (h : splitUnavailableResolvedBranches codec base depends mergeableChannels stateChanges resolved = .ok split) :
    ∀ branch ∈ split.resolved.toMerge, branch.items ≠ ∅ := by
  refine foldlM_ok_induction (fun _ (split : SplitResult) => ∀ branch ∈ split.resolved.toMerge, branch.items ≠ ∅) h
    (by simp) ?_
  intro taken branch t t' _ hTaken hStep
  obtain ⟨⟨available, accepted, rejected⟩, -, hRest⟩ := exists_of_bind_ok hStep
  obtain rfl := Except.ok.inj hRest
  dsimp only
  split_ifs with hNone
  · exact hTaken
  · intro other hOther
    obtain hOther | hOther := List.mem_append.mp hOther
    · exact hTaken other hOther
    · rwa [List.mem_singleton.mp hOther]

theorem moves_splitUnavailable
    (h : splitUnavailable codec base depends mergeableChannels stateChanges pinned resolved = .ok split) :
    Moves resolved split.resolved split.rejected := by
  obtain ⟨unavailable, hUnavailable, hNext⟩ := exists_of_bind_ok h
  obtain ⟨overfilled, hOverfilled, hRest⟩ := exists_of_bind_ok hNext
  obtain rfl := Except.ok.inj hRest
  exact (moves_splitUnavailableResolvedBranches hUnavailable).trans
    (moves_splitOverfilledSingleValueCells hOverfilled (toMerge_ne_empty_of_splitUnavailable hUnavailable))

end moves

end F1r3Node.Merging
