import F1r3Node.Merging.RejectionProduct

/-! # What a branch does to the number channels

On a channel whose diffs are all added, an accepted branch moves the balance by the sum of the diffs of its items and
leaves it in range.
-/

namespace F1r3Node.Merging

open Shared

theorem combineMergeableValue_integerAdd {a b c : Int} :
    combineMergeableValue a b .integerAdd = some c ↔ a + b = c ∧ c.natAbs < 2 ^ integerAddBits := by
  rw [combineMergeableValue, Option.filter_eq_some_iff, Option.some_inj, withinIntegerAddBound, decide_eq_true_eq]

theorem applyMergeableValue_integerAdd {base diff v : Int} :
    applyMergeableValue base diff .integerAdd = some v ↔ base + diff = v ∧ 0 ≤ v ∧ v < 2 ^ integerAddBits := by
  rw [applyMergeableValue, Option.filter_eq_some_iff, Option.some_inj, Bool.and_eq_true, decide_eq_true_eq,
    withinIntegerAddBound, decide_eq_true_eq]
  have hCast : (2 ^ integerAddBits : Int) = ((2 ^ integerAddBits : Nat) : Int) := by push_cast; rfl
  rw [hCast]
  omega

section apply

variable {entries : List (Sigma fun _ : Bytes => Int × MergeType)} {ba ba' : Balances}

def appliedAt (value : Int) : Option (Int × MergeType) → Option Int
  | none => some value
  | some entry => applyMergeableValue value entry.1 entry.2

theorem foldlM_applyEntry_iff (hNodup : entries.NodupKeys) :
    entries.foldlM applyEntry ba = some ba' ↔ ∀ k, appliedAt (ba k) (entries.dlookup k) = some (ba' k) := by
  induction entries generalizing ba with
  | nil =>
    rw [List.foldlM_nil]
    constructor
    · rintro h k
      rw [← Option.some.inj h]
      rfl
    · intro h
      exact congrArg some (funext fun k => Option.some.inj (h k))
  | cons entry entries ih =>
    obtain ⟨hFresh, hRest⟩ := List.nodupKeys_cons.mp hNodup
    have hNone : entries.dlookup entry.1 = none := List.dlookup_eq_none.mpr hFresh
    rw [List.foldlM_cons]
    constructor
    · intro h k
      obtain ⟨next, hNext, hFold⟩ := Option.bind_eq_some_iff.mp h
      obtain ⟨v, hv, rfl⟩ := Option.map_eq_some_iff.mp hNext
      have hAt := (ih hRest).mp hFold k
      obtain rfl | hNe := eq_or_ne k entry.1
      · rw [List.dlookup_cons_eq]
        rw [hNone, Function.update_self] at hAt
        exact hv.trans hAt
      · rw [List.dlookup_cons_ne _ _ hNe]
        rwa [Function.update_of_ne hNe] at hAt
    · intro h
      have hv := h entry.1
      rw [List.dlookup_cons_eq] at hv
      have hNext : applyEntry ba entry = some (Function.update ba entry.1 (ba' entry.1)) := by
        rw [applyEntry, show applyMergeableValue _ _ _ = _ from hv]
        rfl
      rw [hNext]
      refine (ih hRest).mpr fun k => ?_
      obtain rfl | hNe := eq_or_ne k entry.1
      · rw [hNone, Function.update_self]
        rfl
      · rw [Function.update_of_ne hNe, ← List.dlookup_cons_ne _ entry hNe]
        exact h k

end apply

section combine

def channelDiff (diff : NumberChannelsDiff) (k : Bytes) : Int := ((diff.lookup k).map Prod.fst).getD 0

def AddsAt (diff : NumberChannelsDiff) (k : Bytes) : Prop := ∀ entry, diff.lookup k = some entry → entry.2 = .integerAdd

theorem combineInto_spec {diff diff' : NumberChannelsDiff} {entry : Sigma fun _ : Bytes => Int × MergeType}
    (h : combineInto diff entry = some diff') {k : Bytes} (hAdds : AddsAt diff k)
    (hEntry : entry.1 = k → entry.2.2 = .integerAdd) :
    AddsAt diff' k ∧ (k ∈ diff' ↔ k ∈ diff ∨ k = entry.1) ∧
      channelDiff diff' k = channelDiff diff k + if entry.1 = k then entry.2.1 else 0 := by
  unfold combineInto at h
  cases hLookup : diff.lookup entry.1 with
  | none =>
    rw [hLookup] at h
    obtain rfl := Option.some.inj h
    obtain rfl | hNe := eq_or_ne k entry.1
    · simp only [AddsAt, channelDiff, AList.lookup_insert, AList.mem_insert, hLookup]
      exact ⟨fun e he => Option.some.inj he ▸ hEntry rfl, by simp, by simp⟩
    · simp only [AddsAt, channelDiff, AList.lookup_insert_ne hNe, AList.mem_insert, if_neg hNe.symm, add_zero]
      exact ⟨hAdds, or_comm, trivial⟩
  | some existing =>
    rw [hLookup] at h
    obtain ⟨combined, hCombined, rfl⟩ := Option.map_eq_some_iff.mp h
    obtain rfl | hNe := eq_or_ne k entry.1
    · simp only [AddsAt, channelDiff, AList.lookup_insert, AList.mem_insert, hLookup]
      rw [hEntry rfl] at hCombined
      obtain ⟨hSum, -⟩ := combineMergeableValue_integerAdd.mp hCombined
      refine ⟨fun e he => Option.some.inj he ▸ hAdds existing hLookup, by simp, ?_⟩
      simp only [Option.map_some, Option.getD_some, if_true]
      exact hSum.symm
    · simp only [AddsAt, channelDiff, AList.lookup_insert_ne hNe, AList.mem_insert, if_neg hNe.symm, add_zero]
      exact ⟨hAdds, or_comm, trivial⟩

theorem foldlM_combineInto_spec {entries : List (Sigma fun _ : Bytes => Int × MergeType)}
    {diff diff' : NumberChannelsDiff} (h : entries.foldlM combineInto diff = some diff') {k : Bytes}
    (hAdds : AddsAt diff k) (hEntries : ∀ entry ∈ entries, entry.1 = k → entry.2.2 = .integerAdd) :
    AddsAt diff' k ∧ (k ∈ diff' ↔ k ∈ diff ∨ k ∈ entries.keys) ∧
      channelDiff diff' k = channelDiff diff k + (entries.map fun entry => if entry.1 = k then entry.2.1 else 0).sum := by
  induction entries generalizing diff with
  | nil =>
    rw [List.foldlM_nil] at h
    obtain rfl := Option.some.inj h
    exact ⟨hAdds, by simp, by simp⟩
  | cons entry entries ih =>
    rw [List.foldlM_cons] at h
    obtain ⟨next, hNext, hRest⟩ := Option.bind_eq_some_iff.mp h
    obtain ⟨hHead, hTail⟩ := List.forall_mem_cons.mp hEntries
    obtain ⟨hAddsNext, hMemNext, hNextDiff⟩ := combineInto_spec hNext hAdds hHead
    obtain ⟨hAdds', hMem', hDiff'⟩ := ih hRest hAddsNext hTail
    refine ⟨hAdds', ?_, ?_⟩
    · rw [hMem', hMemNext, List.keys_cons, List.mem_cons, or_assoc]
    · rw [hDiff', hNextDiff, List.map_cons, List.sum_cons, add_assoc]

theorem sum_entries_eq_channelDiff (diff : NumberChannelsDiff) (k : Bytes) :
    (diff.entries.map fun entry => if entry.1 = k then entry.2.1 else 0).sum = channelDiff diff k := by
  have hList : ∀ {entries : List (Sigma fun _ : Bytes => Int × MergeType)}, entries.NodupKeys →
      (entries.map fun entry => if entry.1 = k then entry.2.1 else 0).sum =
        ((entries.dlookup k).map Prod.fst).getD 0 := by
    intro entries hNodup
    induction entries with
    | nil => rfl
    | cons entry entries ih =>
      obtain ⟨hFresh, hRest⟩ := List.nodupKeys_cons.mp hNodup
      rw [List.map_cons, List.sum_cons, ih hRest]
      obtain rfl | hNe := eq_or_ne k entry.1
      · rw [List.dlookup_cons_eq, List.dlookup_eq_none.mpr hFresh, if_pos rfl]
        exact add_zero _
      · rw [List.dlookup_cons_ne _ _ hNe, if_neg hNe.symm, zero_add]
  exact hList diff.nodupKeys

end combine

section branch

variable {R : Type} (orders : HashOrders R) (mergeableChannels : R → NumberChannelsDiff)

def branchChange (branch : Branch R) (k : Bytes) : Int := ∑ r ∈ branch.items, channelDiff (mergeableChannels r) k

variable {orders mergeableChannels} {branch : Branch R} {k : Bytes}

theorem branchDiff_spec {diff : NumberChannelsDiff} (h : branchDiff orders mergeableChannels branch = some diff)
    (hAdds : ∀ r ∈ branch.items, AddsAt (mergeableChannels r) k) :
    AddsAt diff k ∧ (k ∈ diff ↔ Touches mergeableChannels branch k) ∧
      channelDiff diff k = branchChange mergeableChannels branch k := by
  have hEntries : ∀ entry ∈ (orders.items.iter branch.items).flatMap fun r => (mergeableChannels r).entries,
      entry.1 = k → entry.2.2 = .integerAdd := by
    rintro ⟨k', entry⟩ hMem rfl
    obtain ⟨r, hr, hIn⟩ := List.mem_flatMap.mp hMem
    exact hAdds r (orders.items.mem_iter.mp hr) entry (AList.mem_lookup_iff.mpr hIn)
  obtain ⟨hAdds', hMem, hDiff⟩ := foldlM_combineInto_spec h (fun _ he => absurd he (by simp)) hEntries
  refine ⟨hAdds', ?_, ?_⟩
  · constructor
    · exact touches_of_mem_branchDiff orders mergeableChannels h
    · rintro ⟨r, hr, hk⟩
      obtain ⟨entry, hEntry, rfl⟩ := List.mem_map.mp (AList.mem_keys.mp hk)
      refine hMem.mpr (.inr (List.mem_map.mpr ⟨entry, List.mem_flatMap.mpr ⟨r, ?_, hEntry⟩, rfl⟩))
      exact orders.items.mem_iter.mpr hr
  · have hZero : channelDiff ∅ k = 0 := rfl
    rw [hDiff, hZero, zero_add, List.map_flatMap, List.flatMap_def, List.sum_flatten, List.map_map, branchChange, Finset.sum,
      ← orders.items.iter_val branch.items, Multiset.map_coe, Multiset.sum_coe]
    congr 1
    exact List.map_congr_left fun r _ => sum_entries_eq_channelDiff (mergeableChannels r) k

theorem calMergedResult_spec {ba ba' : Balances} (h : calMergedResult orders mergeableChannels branch ba = some ba')
    (hAdds : ∀ r ∈ branch.items, AddsAt (mergeableChannels r) k) :
    ba' k = ba k + branchChange mergeableChannels branch k ∧
      (Touches mergeableChannels branch k → 0 ≤ ba' k ∧ ba' k < 2 ^ integerAddBits) := by
  obtain ⟨diff, hDiff, hApply⟩ := Option.bind_eq_some_iff.mp h
  obtain ⟨hAddsAt, hMem, hChange⟩ := branchDiff_spec hDiff hAdds
  have hAt := (foldlM_applyEntry_iff diff.nodupKeys).mp hApply k
  rw [← hMem, ← hChange, channelDiff]
  change appliedAt (ba k) (diff.lookup k) = some (ba' k) at hAt
  cases hLookup : diff.lookup k with
  | none =>
    rw [hLookup] at hAt
    refine ⟨?_, fun hIn => absurd hIn (AList.lookup_eq_none.mp hLookup)⟩
    rw [← Option.some.inj hAt]
    exact (add_zero _).symm
  | some entry =>
    rw [hLookup, appliedAt, hAddsAt entry hLookup] at hAt
    obtain ⟨hSum, hRange⟩ := applyMergeableValue_integerAdd.mp hAt
    exact ⟨hSum.symm, fun _ => hRange⟩

variable (mergeableChannels) in
def combineItems (items : List R) : Option NumberChannelsDiff :=
  (items.flatMap fun r => (mergeableChannels r).entries).foldlM combineInto ∅

variable (mergeableChannels branch) in
/-- In every order of its items the diffs of the branch are combined to the same ones, or leave the
range. -/
def OrderFree : Prop := ∀ items items' : List R, (items : Multiset R) = branch.items.val →
  (items' : Multiset R) = branch.items.val →
    (combineItems mergeableChannels items).map (fun diff k => diff.lookup k) =
      (combineItems mergeableChannels items').map (fun diff k => diff.lookup k)

theorem calMergedResult_eq_of_orderFree (h : OrderFree mergeableChannels branch) (orders' : HashOrders R)
    (ba : Balances) :
    calMergedResult orders mergeableChannels branch ba = calMergedResult orders' mergeableChannels branch ba := by
  have hSame := h _ _ (orders.items.iter_val branch.items) (orders'.items.iter_val branch.items)
  change (branchDiff orders mergeableChannels branch).map _ = (branchDiff orders' mergeableChannels branch).map _
    at hSame
  rw [calMergedResult, calMergedResult]
  cases hDiff : branchDiff orders mergeableChannels branch with
  | none =>
    rw [hDiff, Option.map_none, eq_comm, Option.map_eq_none_iff] at hSame
    rw [hSame]
  | some diff =>
    rw [hDiff, Option.map_some, eq_comm, Option.map_eq_some_iff] at hSame
    obtain ⟨diff', hDiff', hLookup⟩ := hSame
    rw [hDiff', Option.bind_some, Option.bind_some]
    ext ba'
    rw [foldlM_applyEntry_iff diff.nodupKeys, foldlM_applyEntry_iff diff'.nodupKeys]
    refine forall_congr' fun k => ?_
    have hk : diff'.entries.dlookup k = diff.entries.dlookup k := congrFun hLookup k
    rw [hk]

end branch

end F1r3Node.Merging
