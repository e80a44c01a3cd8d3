import F1r3Node.Merging.BranchOrder
import F1r3Node.Merging.MergedBalances

/-! # Sums of accepted branches

The diffs of the accepted branches are added up without the base. At the end of a branch that sum is the distance of
two balances; inside a branch nothing keeps it in bounds.
-/

namespace F1r3Node.Merging

open Shared Lib KeyedFolds PartialSums

def TypesAgree (entries : List (Sigma fun _ : Bytes => Int × MergeType)) : Prop :=
  ∀ entry ∈ entries, ∀ entry' ∈ entries, entry.1 = entry'.1 → entry.2.2 = entry'.2.2

section overflow

variable {ε : Type} {mismatch : Bytes → MergeType → MergeType → ε} {overflow : Bytes → Int → Int → ε}
  {entries taken : List (Sigma fun _ : Bytes => Int × MergeType)} {diffs : NumberChannelsDiff}
  (h : taken.foldlM (foldNumberChannel mismatch overflow) ∅ = .ok diffs)

include h

theorem gather_of_foldlM_ok (k : Bytes) :
    gather combineAlike (valuesAt k taken) = some (diffs.lookup k) := by
  have hOption := @toOption_foldlM_foldNumberChannel ε mismatch overflow taken ∅
  rw [h] at hOption
  exact lookup_foldlM_absorb hOption.symm k

theorem combines_of_foldlM_ok {k : Bytes}
    {existing : Int × MergeType} (hLookup : diffs.lookup k = some existing) : Combines (valuesAt k taken) existing := by
  rw [← gather_combineAlike, gather_of_foldlM_ok h, hLookup]

theorem exists_combines_of_mem {k : Bytes}
    {v : Int × MergeType} (hv : v ∈ valuesAt k taken) : ∃ existing, Combines (valuesAt k taken) existing := by
  have hGather := gather_of_foldlM_ok h k
  cases hLookup : diffs.lookup k with
  | none =>
    rw [hLookup] at hGather
    rw [gather_eq_some_none_iff.mp hGather] at hv
    cases hv
  | some existing => exact ⟨existing, combines_of_foldlM_ok h hLookup⟩

theorem typesAgree_of_foldlM_ok :
    TypesAgree taken := by
  rintro ⟨k, v⟩ hv ⟨k', v'⟩ hv' hk
  obtain rfl : k = k' := hk
  obtain ⟨existing, hCombines⟩ := exists_combines_of_mem h (mem_valuesAt.mpr hv)
  exact (hCombines.types v (mem_valuesAt.mpr hv)).trans (hCombines.types v' (mem_valuesAt.mpr hv')).symm

/-- Some entries up to which the types agree have on a channel two or more diffs to add that sum out of
bounds. -/
def SumsOutOfBounds (taken : List (Sigma fun _ : Bytes => Int × MergeType)) (k : Bytes) : Prop :=
  TypesAgree taken ∧ (∀ v ∈ valuesAt k taken, v.2 = .integerAdd) ∧ 2 ≤ (valuesAt k taken).length ∧
    ¬ ((valuesAt k taken).map Prod.fst).sum.natAbs < 2 ^ integerAddBits

theorem sumsOutOfBounds_of_step {entry : Sigma fun _ : Bytes => Int × MergeType} {existing : Int × MergeType}
    (hLookup : diffs.lookup entry.1 = some existing) (hOld : existing.2 = .integerAdd) (hNew : entry.2.2 = .integerAdd)
    (hBound : ¬ (existing.1 + entry.2.1).natAbs < 2 ^ integerAddBits) : SumsOutOfBounds (taken ++ [entry]) entry.1 := by
  have hCombines := combines_of_foldlM_ok h hLookup
  have hValues : valuesAt entry.1 (taken ++ [entry]) = valuesAt entry.1 taken ++ [entry.2] := by
    rw [valuesAt_append, valuesAt_singleton_self]
  have hAdds : ∀ v ∈ valuesAt entry.1 (taken ++ [entry]), v.2 = .integerAdd := by
    intro v hv
    rw [hValues] at hv
    obtain hv | hv := List.mem_append.mp hv
    · exact (hCombines.types v hv).trans hOld
    · rw [List.mem_singleton.mp hv, hNew]
  refine ⟨?_, hAdds, ?_, ?_⟩
  · intro e he e' he' hKey
    obtain hk | hNe := eq_or_ne e.1 entry.1
    · have hAt : ∀ f ∈ taken ++ [entry], f.1 = entry.1 → f.2.2 = .integerAdd := by
        rintro ⟨k, v⟩ hf rfl
        exact hAdds v (mem_valuesAt.mpr hf)
      rw [hAt e he hk, hAt e' he' (hKey ▸ hk)]
    · -- the new entry is of another channel
      have hOther : ∀ f ∈ taken ++ [entry], f.1 ≠ entry.1 → f ∈ taken := by
        intro f hf hfNe
        obtain hf | hf := List.mem_append.mp hf
        · exact hf
        · rw [List.mem_singleton.mp hf] at hfNe
          exact absurd rfl hfNe
      exact typesAgree_of_foldlM_ok h e (hOther e he hNe) e' (hOther e' he' (hKey ▸ hNe)) hKey
  · rw [hValues, List.length_append, List.length_singleton]
    exact Nat.succ_le_succ (List.length_pos_iff.mpr hCombines.ne_nil)
  · have hSum : ((valuesAt entry.1 taken).map Prod.fst).sum = existing.1 := by
      rw [hCombines.total, hOld, MergeType.total_integerAdd]
    rwa [hValues, List.map_append, List.sum_append, hSum, List.map_singleton, List.sum_singleton]

end overflow

theorem allMergeableChannels_overflow_iff {R : Type} {mergeableChannels : R → NumberChannelsDiff} {items : List R} :
    (∃ k, allMergeableChannels mergeableChannels items = .error (.integerAddOverflow k)) ↔
      ∃ taken k, taken <+: items.flatMap (fun r => (mergeableChannels r).entries) ∧ SumsOutOfBounds taken k := by
  constructor
  · rintro ⟨k, hError⟩
    obtain ⟨taken, entry, diffs, hPrefix, hTaken, hStep⟩ := exists_of_foldlM_error hError
    obtain ⟨existing, hLookup, ⟨hMismatch, -⟩ | ⟨-, hOld, hNew, hBound⟩⟩ := foldNumberChannel_eq_error hStep
    · cases hMismatch
    · exact ⟨_, _, hPrefix, sumsOutOfBounds_of_step hTaken hLookup hOld hNew hBound⟩
  · rintro ⟨taken, k, ⟨rest, hRest⟩, hTypes, hAdds, hLength, hBound⟩
    rw [allMergeableChannels, foldNumberChannels, ← hRest, List.foldlM_append]
    cases hTaken : taken.foldlM (foldNumberChannel (fun channel existing incoming =>
        MergeFailure.history (mergeTypeMismatch channel existing incoming))
        fun channel _ _ => .integerAddOverflow channel) ∅ with
    | ok diffs =>
      -- a fold that got here would have kept the sum in bounds
      obtain ⟨v, hv⟩ := List.exists_mem_of_length_pos (Nat.lt_of_lt_of_le Nat.zero_lt_two hLength)
      obtain ⟨existing, hCombines⟩ := exists_combines_of_mem hTaken hv
      have hType : existing.2 = .integerAdd := (hCombines.types v hv).symm.trans (hAdds v hv)
      refine absurd (hCombines.fits hType _ List.prefix_rfl ?_) hBound
      rwa [List.length_map]
    | error e =>
      obtain ⟨first, entry, diffs, hPrefix, hFirst, hStep⟩ := exists_of_foldlM_error hTaken
      obtain ⟨existing, hLookup, ⟨-, hNe⟩ | ⟨hOverflow, -⟩⟩ := foldNumberChannel_eq_error hStep
      · obtain ⟨v, hv⟩ := List.exists_mem_of_ne_nil _ (combines_of_foldlM_ok hFirst hLookup).ne_nil
        have hType := (combines_of_foldlM_ok hFirst hLookup).types v hv
        refine absurd ?_ hNe
        rw [← hType]
        refine hTypes ⟨entry.1, v⟩ (hPrefix.subset (List.mem_append_left _ (mem_valuesAt.mp hv))) entry ?_ rfl
        exact hPrefix.subset (by simp)
      · exact ⟨entry.1, congrArg Except.error hOverflow⟩

section survivors

variable {R : Type} [LinearOrder R] {orders : HashOrders R} {mergeableChannels : R → NumberChannelsDiff}
  {base : Balances} {survivors : Finset (Branch R)} {resolved : ResolvedConflicts R}

variable (mergeableChannels) in
def branchEntries (branch : Branch R) : List (Sigma fun _ : Bytes => Int × MergeType) :=
  (branch.items.sort (· ≤ ·)).flatMap fun r => (mergeableChannels r).entries

theorem flatMap_branchEntries (branches : List (Branch R)) : branches.flatMap (branchEntries mergeableChannels) =
    (branches.flatMap fun b => b.items.sort (· ≤ ·)).flatMap fun r => (mergeableChannels r).entries := by
  rw [List.flatMap_assoc]
  rfl

theorem sum_valuesAt_branches (branches : List (Branch R)) (k : Bytes) :
    ((valuesAt k (branches.flatMap (branchEntries mergeableChannels))).map Prod.fst).sum =
      (branches.map fun b => branchChange mergeableChannels b k).sum := by
  rw [flatMap_branchEntries, valuesAt_flatMap]
  change ((diffsIn mergeableChannels k _).map Prod.fst).sum = _
  rw [sum_diffsIn, sum_flatMap]
  congr 1
  refine List.map_congr_left fun b _ => ?_
  rw [sum_eq_of_coe_eq (Finset.sort_eq b.items (· ≤ ·)), branchChange]

theorem natAbs_lt_of_accepted (hList : (resolved.toMerge : Multiset (Branch R)) = survivors.val)
    (hAccepted : foldRejection orders mergeableChannels base survivors = ∅) {folded : List (Branch R)}
    (hFolded : folded <+: canonicalOrder resolved.toMerge) {k : Bytes}
    (hAdds : ∀ b ∈ folded, ∀ r ∈ b.items, AddsAt (mergeableChannels r) k) (hBase : InRange (base k)) :
    (folded.map fun b => branchChange mergeableChannels b k).sum.natAbs < 2 ^ integerAddBits := by
  have hKept := @foldlM_kept R _ orders mergeableChannels _ (Finset.sort_nodup survivors (· ≤ ·)) (base, ∅)
    fun b _ => Finset.notMem_empty b
  have hNone : ((survivors.sort (· ≤ ·)).foldl (foldRejectionStep orders mergeableChannels) (base, ∅)).2 = ∅ := hAccepted
  rw [hNone, List.filter_eq_self.mpr fun b _ => by simp, ← canonicalOrder_eq_sort hList] at hKept
  obtain ⟨ba, hba⟩ := exists_foldlM_of_isPrefix hKept hFolded
  obtain ⟨hSum, hRange⟩ := foldlM_calMergedResult_spec hba hAdds
  obtain ⟨hLow, hHigh⟩ := hBase
  obtain ⟨hLow', hHigh'⟩ := hRange (.inl ⟨hLow, hHigh⟩)
  have hCast : (2 ^ integerAddBits : Int) = ((2 ^ integerAddBits : Nat) : Int) := by push_cast; rfl
  rw [hCast] at hHigh hHigh'
  generalize (folded.map fun b => branchChange mergeableChannels b k).sum = total at hSum ⊢
  change ba k = base k + total at hSum
  omega

variable (mergeableChannels base resolved) in
/-- The first diffs of the survivors in canonical order, up to some point inside a branch (up to any
point where the base is out of range): if their types agree, two or more that are added to a channel
stay in bounds. -/
def FitsInsideBranches : Prop :=
  ∀ taken k, taken <+: survivorEntries mergeableChannels resolved.toMerge →
    (InRange (base k) → ∀ folded, folded <+: canonicalOrder resolved.toMerge →
      taken ≠ folded.flatMap (branchEntries mergeableChannels)) →
    TypesAgree taken → (∀ v ∈ valuesAt k taken, v.2 = .integerAdd) → 2 ≤ (valuesAt k taken).length →
      ((valuesAt k taken).map Prod.fst).sum.natAbs < 2 ^ integerAddBits

/-- For accepted survivors the merged state overflows exactly if a sum inside a branch does. -/
theorem computeMergedState_ne_overflow_iff {codec : DatumCodec} {history : BaseHistory HotStoreBinaryAction}
    {stateChanges : R → StateChange} {multiWriterChannels : Finset Bytes}
    (hList : (resolved.toMerge : Multiset (Branch R)) = survivors.val)
    (hAccepted : foldRejection orders mergeableChannels base survivors = ∅) :
    (∀ k, computeMergedState codec history resolved stateChanges mergeableChannels multiWriterChannels ≠
      .error (.integerAddOverflow k)) ↔ FitsInsideBranches mergeableChannels base resolved := by
  have hCombined : (∃ k, computeMergedState codec history resolved stateChanges mergeableChannels multiWriterChannels =
      .error (.integerAddOverflow k)) ↔
        ∃ taken k, taken <+: survivorEntries mergeableChannels resolved.toMerge ∧ SumsOutOfBounds taken k := by
    rw [survivorEntries, ← allMergeableChannels_overflow_iff]
    refine exists_congr fun k => ⟨fun hError => ?_, fun hError => ?_⟩
    · obtain ⟨error, hHistory⟩ | hCombine | ⟨_, _, _, _, _, -, -, -, hRejected, -⟩ := computeMergedState_eq_error hError
      · cases hHistory
      · exact hCombine
      · cases hRejected
    · rw [computeMergedState, hError]
      rfl
  constructor
  · intro h taken k hPrefix _ hTypes hAdds hLength
    by_contra hBound
    obtain ⟨k', hError⟩ := hCombined.mpr ⟨taken, k, hPrefix, hTypes, hAdds, hLength, hBound⟩
    exact h k' hError
  · intro h k hError
    obtain ⟨taken, k', hPrefix, hTypes, hAdds, hLength, hBound⟩ := hCombined.mp ⟨k, hError⟩
    refine hBound (h taken k' hPrefix ?_ hTypes hAdds hLength)
    rintro hBase folded hFolded rfl
    refine hBound ?_
    rw [sum_valuesAt_branches]
    refine natAbs_lt_of_accepted hList hAccepted hFolded (fun b hb r hr entry hEntry => hAdds entry ?_) hBase
    refine mem_valuesAt.mpr (List.mem_flatMap.mpr ⟨b, hb, List.mem_flatMap.mpr ⟨r, (Finset.mem_sort _).mpr hr, ?_⟩⟩)
    exact AList.mem_lookup_iff.mp hEntry

end survivors

def detour (deposit : Int) (item : Nat) : NumberChannelsDiff :=
  AList.singleton [7] (if item = 1 then deposit else if item = 2 then 10 else -10, .integerAdd)

def detourSurvivors : Finset (Branch Nat) := {⟨{1}⟩, ⟨{2, 3}⟩}

theorem sort_two_three : ({2, 3} : Finset Nat).sort (· ≤ ·) = [2, 3] :=
  (List.toFinset_sort (· ≤ ·) (l := [2, 3]) (by decide)).mpr (by decide)

theorem sort_detourSurvivors : detourSurvivors.sort (· ≤ ·) = [⟨{1}⟩, ⟨{2, 3}⟩] := by
  have hLess : (⟨{1}⟩ : Branch Nat) ≤ ⟨{2, 3}⟩ := Prod.Lex.left _ _ (by decide)
  exact (List.toFinset_sort (· ≤ ·) (by decide)).mpr (List.pairwise_pair.mpr hLess)

theorem foldRejection_detour {deposit : Int} {ba ba' : Balances}
    (h : mergedInOrder (detour deposit) [1] (fun _ => 0) = some ba)
    (h' : mergedInOrder (detour deposit) [2, 3] ba = some ba') :
    foldRejection ⟨.ascending Nat, .ascending (Branch Nat)⟩ (detour deposit) (fun _ => 0) detourSurvivors = ∅ := by
  have hFirst : calMergedResult ⟨.ascending Nat, .ascending (Branch Nat)⟩ (detour deposit) ⟨{1}⟩ (fun _ => 0) = some ba := by
    rw [calMergedResult, branchDiff]
    dsimp only [HashOrder.ascending]
    rw [Finset.sort_singleton]
    exact h
  have hSecond : calMergedResult ⟨.ascending Nat, .ascending (Branch Nat)⟩ (detour deposit) ⟨{2, 3}⟩ ba = some ba' := by
    rw [calMergedResult, branchDiff]
    dsimp only [HashOrder.ascending]
    rw [sort_two_three]
    exact h'
  have hStep : foldRejectionStep ⟨.ascending Nat, .ascending (Branch Nat)⟩ (detour deposit) (fun _ => 0, ∅) ⟨{1}⟩ =
      (ba, ∅) := by rw [foldRejectionStep, hFirst]
  rw [foldRejection, sort_detourSurvivors, List.foldl_cons, hStep, List.foldl_cons, foldRejectionStep, hSecond]
  rfl

/-- With a small deposit the detour stays in bounds. -/
theorem computeMergedState_ne_overflow_iff_detour :
    foldRejection ⟨.ascending Nat, .ascending (Branch Nat)⟩ (detour 5) (fun _ => 0) detourSurvivors = ∅ ∧
      ((∀ k, computeMergedState MergeInput.transferInput.codec MergeInput.transferInput.history ⟨[⟨{1}⟩, ⟨{2, 3}⟩], ∅⟩ (fun _ => .empty) (detour 5) ∅ ≠
        .error (.integerAddOverflow k)) ↔ FitsInsideBranches (detour 5) (fun _ => 0) ⟨[⟨{1}⟩, ⟨{2, 3}⟩], ∅⟩) := by
  have hAccepted := @foldRejection_detour 5 _ _ rfl rfl
  exact ⟨hAccepted, computeMergedState_ne_overflow_iff rfl hAccepted⟩

/-- A deposit near the highest balance: both branches are accepted, and adding up their diffs
overflows. -/
theorem computeMergedState_overflow_detour :
    foldRejection ⟨.ascending Nat, .ascending (Branch Nat)⟩ (detour (2 ^ 256 - 6)) (fun _ => 0) detourSurvivors = ∅ ∧
      computeMergedState MergeInput.transferInput.codec MergeInput.transferInput.history ⟨[⟨{1}⟩, ⟨{2, 3}⟩], ∅⟩ (fun _ => .empty) (detour (2 ^ 256 - 6)) ∅ =
        .error (.integerAddOverflow [7]) := by
  refine ⟨foldRejection_detour rfl rfl, ?_⟩
  have hItems : toMergeItems [(⟨{1}⟩ : Branch Nat), ⟨{2, 3}⟩] = [1, 2, 3] := by
    have hList : ((([⟨{1}⟩, ⟨{2, 3}⟩] : List (Branch Nat)) : Multiset (Branch Nat))) = detourSurvivors.val := rfl
    rw [toMergeItems, canonicalOrder_eq_sort hList, sort_detourSurvivors]
    simp only [List.flatMap_cons, List.flatMap_nil, Finset.sort_singleton, sort_two_three]
    rfl
  rw [computeMergedState, hItems]
  rfl

end F1r3Node.Merging
