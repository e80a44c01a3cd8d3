import F1r3Node.Lib.PartialSums
import F1r3Node.Merging.LineageExpansion

/-! # Number channels of the merged state

The resolution accepts branches against the balances of the base. The survivors are checked again when their diffs are
combined and when the sum is written.
-/

namespace F1r3Node.Merging

open Shared Lib PartialSums

section fold

variable {ε : Type} {mismatch : Bytes → MergeType → MergeType → ε} {overflow : Bytes → Int → Int → ε}

def entryValue (k : Bytes) (entry : Sigma fun _ : Bytes => Int × MergeType) : Int := if entry.1 = k then entry.2.1 else 0

variable {diffs : NumberChannelsDiff}

variable {entry : Sigma fun _ : Bytes => Int × MergeType}

theorem combineInto_of_foldNumberChannel {diffs' : NumberChannelsDiff}
    (h : foldNumberChannel mismatch overflow diffs entry = .ok diffs') : combineInto diffs entry = some diffs' := by
  rw [foldNumberChannel] at h
  rw [combineInto]
  cases hLookup : diffs.lookup entry.1 with
  | none =>
    rw [hLookup] at h
    rw [← Except.ok.inj h]
  | some existing =>
    rw [hLookup] at h
    dsimp only at h
    split_ifs at h
    cases hCombined : combineMergeableValue existing.1 entry.2.1 entry.2.2 with
    | none =>
      rw [hCombined] at h
      cases h
    | some combined =>
      rw [hCombined] at h
      rw [← Except.ok.inj h]
      simp only [hCombined, Option.map_some]

variable {entries : List (Sigma fun _ : Bytes => Int × MergeType)}

theorem foldlM_combineInto_of_ok
    {diffs' : NumberChannelsDiff} (h : entries.foldlM (foldNumberChannel mismatch overflow) diffs = .ok diffs') :
    entries.foldlM combineInto diffs = some diffs' := by
  induction entries generalizing diffs with
  | nil => exact congrArg some (Except.ok.inj h)
  | cons entry entries ih =>
    rw [List.foldlM_cons] at h
    obtain ⟨next, hNext, hRest⟩ := exists_of_bind_ok h
    rw [List.foldlM_cons, combineInto_of_foldNumberChannel hNext]
    exact ih hRest

theorem exists_entry_of_lookup (h : entries.foldlM combineInto ∅ = some diffs) {k : Bytes} {existing : Int × MergeType}
    (hLookup : diffs.lookup k = some existing) : ∃ entry ∈ entries, entry.1 = k ∧ entry.2.2 = existing.2 := by
  induction entries using List.reverseRecOn generalizing diffs existing with
  | nil =>
    obtain rfl := Option.some.inj h
    cases hLookup
  | append_singleton entries entry ih =>
    rw [List.foldlM_append] at h
    obtain ⟨before, hBefore, hLast⟩ := Option.bind_eq_some_iff.mp h
    have hStep : combineInto before entry = some diffs := by simpa using hLast
    have hEarlier : ∀ {value}, before.lookup k = some value → value.2 = existing.2 →
        ∃ entry' ∈ entries ++ [entry], entry'.1 = k ∧ entry'.2.2 = existing.2 := by
      intro value hValue hType
      obtain ⟨entry', hMem, hKey, hSame⟩ := ih hBefore hValue
      exact ⟨entry', List.mem_append_left _ hMem, hKey, hSame.trans hType⟩
    rw [combineInto] at hStep
    cases hAt : before.lookup entry.1 with
    | none =>
      rw [hAt] at hStep
      obtain rfl := Option.some.inj hStep
      obtain rfl | hNe := eq_or_ne k entry.1
      · rw [AList.lookup_insert] at hLookup
        exact ⟨entry, by simp, rfl, by rw [← Option.some.inj hLookup]⟩
      · rw [AList.lookup_insert_ne hNe] at hLookup
        exact hEarlier hLookup rfl
    | some value =>
      rw [hAt] at hStep
      obtain ⟨combined, -, rfl⟩ := Option.map_eq_some_iff.mp hStep
      obtain rfl | hNe := eq_or_ne k entry.1
      · rw [AList.lookup_insert] at hLookup
        refine hEarlier hAt ?_
        rw [← Option.some.inj hLookup]
      · rw [AList.lookup_insert_ne hNe] at hLookup
        exact hEarlier hLookup rfl

theorem foldNumberChannel_eq_error {e : ε} (h : foldNumberChannel mismatch overflow diffs entry = .error e) :
    ∃ existing, diffs.lookup entry.1 = some existing ∧
      (e = mismatch entry.1 existing.2 entry.2.2 ∧ existing.2 ≠ entry.2.2 ∨
        e = overflow entry.1 existing.1 entry.2.1 ∧ existing.2 = .integerAdd ∧ entry.2.2 = .integerAdd ∧
          ¬ (existing.1 + entry.2.1).natAbs < 2 ^ integerAddBits) := by
  rw [foldNumberChannel] at h
  cases hLookup : diffs.lookup entry.1 with
  | none =>
    rw [hLookup] at h
    cases h
  | some existing =>
    rw [hLookup] at h
    refine ⟨existing, rfl, ?_⟩
    dsimp only at h
    split_ifs at h with hType
    · exact .inl ⟨(Except.error.inj h).symm, hType⟩
    · cases hCombined : combineMergeableValue existing.1 entry.2.1 entry.2.2 with
      | some combined =>
        rw [hCombined] at h
        cases h
      | none =>
        rw [hCombined] at h
        rw [not_not] at hType
        cases hAdd : entry.2.2 with
        | bitmaskOr =>
          rw [hAdd] at hCombined
          cases hCombined
        | integerAdd =>
          rw [hAdd] at hCombined hType
          refine .inr ⟨(Except.error.inj h).symm, hType, rfl, fun hBound => ?_⟩
          rw [combineMergeableValue_integerAdd.mpr ⟨rfl, hBound⟩] at hCombined
          cases hCombined

end fold

section survivors

variable {R : Type} [LinearOrder R] (mergeableChannels : R → NumberChannelsDiff)

def OneType (toMerge : List (Branch R)) : Prop :=
  ∀ b ∈ toMerge, ∀ r ∈ b.items, ∀ b' ∈ toMerge, ∀ r' ∈ b'.items, ∀ k entry entry',
    (mergeableChannels r).lookup k = some entry → (mergeableChannels r').lookup k = some entry' → entry.2 = entry'.2

/-- On the way through its chains in canonical order, a branch does not overshoot its total. -/
def KeepsTotal (branch : Branch R) (k : Bytes) : Prop :=
  NoOvershoot ((branch.items.sort (· ≤ ·)).map fun r => channelDiff (mergeableChannels r) k)

def branchValues (k : Bytes) (branch : Branch R) : List Int :=
  (branch.items.sort (· ≤ ·)).flatMap fun r => (mergeableChannels r).entries.map (entryValue k)

variable {mergeableChannels} {toMerge : List (Branch R)} {k : Bytes}

theorem noOvershoot_entries (diff : NumberChannelsDiff) (k : Bytes) : NoOvershoot (diff.entries.map (entryValue k)) := by
  refine noOvershoot_of_atMostOne (List.pairwise_map.mpr ?_)
  refine (List.nodupKeys_iff_pairwise.mp diff.nodupKeys).imp fun {a b} hNe => ?_
  by_cases ha : a.1 = k
  · exact .inr (if_neg fun hb => hNe (ha.trans hb.symm))
  · exact .inl (if_neg ha)

theorem sum_branchValues (branch : Branch R) : (branchValues mergeableChannels k branch).sum =
    branchChange mergeableChannels branch k := by
  have hFlat := sum_flatMap (fun r => (mergeableChannels r).entries.map (entryValue k)) id (branch.items.sort (· ≤ ·))
  rw [List.map_id] at hFlat
  rw [branchValues, hFlat, branchChange, Finset.sum, ← Finset.sort_eq branch.items (· ≤ ·), Multiset.map_coe,
    Multiset.sum_coe]
  congr 1
  refine List.map_congr_left fun r _ => ?_
  rw [List.map_id]
  exact sum_entries_eq_channelDiff (mergeableChannels r) k

theorem noOvershoot_branchValues {branch : Branch R} (h : KeepsTotal mergeableChannels branch k) :
    NoOvershoot (branchValues mergeableChannels k branch) := by
  refine noOvershoot_flatMap (fun r _ => noOvershoot_entries (mergeableChannels r) k) ?_
  have hSums : (fun r => ((mergeableChannels r).entries.map (entryValue k)).sum) =
      fun r => channelDiff (mergeableChannels r) k :=
    funext fun r => sum_entries_eq_channelDiff (mergeableChannels r) k
  rw [hSums]
  exact h

def survivorEntries (mergeableChannels : R → NumberChannelsDiff) (toMerge : List (Branch R)) :
    List (Sigma fun _ : Bytes => Int × MergeType) :=
  (toMergeItems toMerge).flatMap fun r => (mergeableChannels r).entries

variable {entry : Sigma fun _ : Bytes => Int × MergeType}

theorem mem_survivorEntries :
    entry ∈ survivorEntries mergeableChannels toMerge ↔
      ∃ b ∈ toMerge, ∃ r ∈ b.items, (mergeableChannels r).lookup entry.1 = some entry.2 := by
  simp only [survivorEntries, toMergeItems, canonicalOrder, List.mem_flatMap, List.mem_insertionSort, Finset.mem_sort]
  constructor
  · rintro ⟨r, ⟨b, hb, hr⟩, hEntry⟩
    exact ⟨b, hb, r, hr, AList.mem_lookup_iff.mpr hEntry⟩
  · rintro ⟨b, hb, r, hr, hLookup⟩
    exact ⟨r, ⟨b, hb, hr⟩, AList.mem_lookup_iff.mp hLookup⟩

theorem map_survivorEntries : (survivorEntries mergeableChannels toMerge).map (entryValue k) =
    (canonicalOrder toMerge).flatMap (branchValues mergeableChannels k) := by
  rw [survivorEntries, toMergeItems, List.flatMap_assoc, List.map_flatMap]
  congr 1
  funext b
  rw [List.map_flatMap]
  rfl

theorem addsAt_of_mem (hTypes : OneType mergeableChannels toMerge)
    (hEntry : entry ∈ survivorEntries mergeableChannels toMerge) (hAdd : entry.2.2 = .integerAdd) :
    ∀ b ∈ toMerge, ∀ r ∈ b.items, AddsAt (mergeableChannels r) entry.1 := by
  obtain ⟨b, hb, r, hr, hLookup⟩ := mem_survivorEntries.mp hEntry
  intro b' hb' r' hr' entry' hLookup'
  rw [← hAdd]
  exact hTypes b' hb' r' hr' b hb r hr entry.1 entry' entry.2 hLookup' hLookup

variable {entries : List (Sigma fun _ : Bytes => Int × MergeType)}

theorem channelDiff_of_prefix (hAdds : ∀ b ∈ toMerge, ∀ r ∈ b.items, AddsAt (mergeableChannels r) k)
    (hPrefix : entries <+: survivorEntries mergeableChannels toMerge) {diffs : NumberChannelsDiff}
    (h : entries.foldlM combineInto ∅ = some diffs) : channelDiff diffs k = (entries.map (entryValue k)).sum := by
  have hEntries : ∀ entry ∈ entries, entry.1 = k → entry.2.2 = .integerAdd := by
    rintro entry hEntry rfl
    obtain ⟨b, hb, r, hr, hLookup⟩ := mem_survivorEntries.mp (hPrefix.subset hEntry)
    exact hAdds b hb r hr entry.2 hLookup
  obtain ⟨-, -, hSum⟩ := foldlM_combineInto_spec h (fun _ he => absurd he (by simp)) hEntries
  rw [hSum]
  exact zero_add _

def FoldsInRange (mergeableChannels : R → NumberChannelsDiff) (toMerge : List (Branch R)) (value : Int) (k : Bytes) :
    Prop :=
  ∀ folded, folded <+: canonicalOrder toMerge →
    InRange (value + (folded.map fun b => branchChange mergeableChannels b k).sum)

theorem FoldsInRange.natAbs_lt {value : Int} (h : FoldsInRange mergeableChannels toMerge value k)
    (hTotals : ∀ b ∈ toMerge, KeepsTotal mergeableChannels b k)
    (hPrefix : entries <+: survivorEntries mergeableChannels toMerge) :
    (entries.map (entryValue k)).sum.natAbs < 2 ^ integerAddBits := by
  have hValues := hPrefix.map (entryValue k)
  rw [map_survivorEntries] at hValues
  have hKeeps : ∀ b ∈ canonicalOrder toMerge, NoOvershoot (branchValues mergeableChannels k b) := fun b hb =>
    noOvershoot_branchValues (hTotals b ((List.mem_insertionSort _).mp hb))
  obtain ⟨lower, upper, hLower, hUpper, hLow, hHigh⟩ := exists_between hKeeps hValues
  simp only [sum_branchValues] at hLow hHigh
  obtain ⟨hNonneg, -⟩ := h lower hLower
  obtain ⟨-, hBelow⟩ := h upper hUpper
  obtain ⟨hStart, hStartBelow⟩ := h [] List.nil_prefix
  rw [List.map_nil, List.sum_nil, add_zero] at hStart hStartBelow
  have hCast : (2 ^ integerAddBits : Int) = ((2 ^ integerAddBits : Nat) : Int) := by push_cast; rfl
  rw [hCast] at hBelow hStartBelow
  omega

theorem allMergeableChannels_ne_overflow (hTypes : OneType mergeableChannels toMerge)
    (hTotals : ∀ b ∈ toMerge, KeepsTotal mergeableChannels b k)
    (hRange : (∀ b ∈ toMerge, ∀ r ∈ b.items, AddsAt (mergeableChannels r) k) →
      (∃ b ∈ toMerge, Touches mergeableChannels b k) → ∃ value, FoldsInRange mergeableChannels toMerge value k) :
    allMergeableChannels mergeableChannels (toMergeItems toMerge) ≠ .error (.integerAddOverflow k) := by
  intro hError
  obtain ⟨taken, entry, diffs, hPrefix, hTaken, hStep⟩ := exists_of_foldlM_error hError
  obtain ⟨existing, hLookup, ⟨hMismatch, -⟩ | ⟨hOverflow, -, hAdd, hBound⟩⟩ := foldNumberChannel_eq_error hStep
  · cases hMismatch
  · obtain rfl : k = entry.1 := MergeFailure.integerAddOverflow.inj hOverflow
    have hMem : entry ∈ survivorEntries mergeableChannels toMerge := hPrefix.subset (by simp)
    have hAdds := addsAt_of_mem hTypes hMem hAdd
    obtain ⟨b, hb, r, hr, hAt⟩ := mem_survivorEntries.mp hMem
    obtain ⟨value, hFolds⟩ := hRange hAdds ⟨b, hb, r, hr, AList.lookup_isSome.mp (by rw [hAt]; rfl)⟩
    have hBefore := channelDiff_of_prefix hAdds ((List.prefix_append taken [entry]).trans hPrefix)
      (foldlM_combineInto_of_ok hTaken)
    rw [channelDiff, hLookup] at hBefore
    have hSum := hFolds.natAbs_lt hTotals hPrefix
    rw [List.map_append, List.sum_append, ← hBefore] at hSum
    simp only [List.map_cons, List.map_nil, List.sum_cons, List.sum_nil, add_zero, entryValue, if_true] at hSum
    exact hBound hSum

theorem lookup_allMergeableChannels (hTypes : OneType mergeableChannels toMerge) {mergeable : NumberChannelsDiff}
    (h : allMergeableChannels mergeableChannels (toMergeItems toMerge) = .ok mergeable) {diff : Int}
    (hLookup : mergeable.lookup k = some (diff, .integerAdd)) :
    (∀ b ∈ toMerge, ∀ r ∈ b.items, AddsAt (mergeableChannels r) k) ∧ (∃ b ∈ toMerge, Touches mergeableChannels b k) ∧
      diff = ((canonicalOrder toMerge).map fun b => branchChange mergeableChannels b k).sum := by
  have hFold := foldlM_combineInto_of_ok h
  obtain ⟨entry, hMem, rfl, hAdd⟩ := exists_entry_of_lookup hFold hLookup
  have hAdds := addsAt_of_mem hTypes hMem hAdd
  obtain ⟨b, hb, r, hr, hAt⟩ := mem_survivorEntries.mp hMem
  refine ⟨hAdds, ⟨b, hb, r, hr, AList.lookup_isSome.mp (by rw [hAt]; rfl)⟩, ?_⟩
  have hSum := channelDiff_of_prefix hAdds List.prefix_rfl hFold
  have hFlat := sum_flatMap (branchValues mergeableChannels entry.1) id (canonicalOrder toMerge)
  rw [List.map_id] at hFlat
  rw [channelDiff, hLookup, map_survivorEntries, hFlat] at hSum
  simp only [List.map_id, sum_branchValues] at hSum
  exact hSum

end survivors

section failures

variable {R : Type} [LinearOrder R] {codec : DatumCodec} {base : BaseHistory HotStoreBinaryAction}

variable {e : MergeFailure}

theorem exists_of_ofHistory_error {α : Type} {result : Except HistoryError α}
    (h : ofHistory result = .error e) : ∃ error, e = .history error := by
  cases result with
  | error error => exact ⟨error, (Except.error.inj h).symm⟩
  | ok value => cases h

theorem calculateNumberChannelMerge_eq_error {channel : Bytes} {diff : Int} {mergeType : MergeType}
    {changes : ChannelChange Bytes}
    (h : calculateNumberChannelMerge codec base channel diff mergeType changes = .error e) :
    (∃ error, e = .history error) ∨ ∃ value, convertToReadNumber base.getData channel = .ok value ∧
      e = .numberChannelRejected channel (value.getD 0) diff mergeType ∧
        applyMergeableValue (value.getD 0) diff mergeType = none := by
  obtain hRead | ⟨value, hRead, hNext⟩ := error_of_bind h
  · exact .inl (exists_of_ofHistory_error hRead)
  · dsimp only at hNext
    cases hApply : applyMergeableValue (value.getD 0) diff mergeType with
    | none =>
      rw [hApply] at hNext
      exact .inr ⟨value, eq_ok_of_mapError hRead, (Except.error.inj hNext).symm, hApply⟩
    | some newVal =>
      rw [hApply] at hNext
      obtain hEncode | ⟨datum, -, hLast⟩ := error_of_bind hNext
      · exact .inl (exists_of_ofHistory_error hEncode)
      · cases hLast

theorem handleChannelChange_eq_error {multiWriterChannels : Finset Bytes} {channel : Bytes}
    {changes : ChannelChange Bytes} {numberChs : NumberChannelsDiff}
    (h : handleChannelChange codec base multiWriterChannels channel changes numberChs = .error e) :
    (∃ error, e = .history error) ∨ ∃ diff mergeType, numberChs.lookup channel = some (diff, mergeType) ∧
      calculateNumberChannelMerge codec base channel diff mergeType changes = .error e := by
  rw [handleChannelChange] at h
  cases hLookup : numberChs.lookup channel with
  | some entry =>
    rw [hLookup] at h
    obtain ⟨diff, mergeType⟩ := entry
    refine .inr ⟨diff, mergeType, rfl, ?_⟩
    cases hCalculate : calculateNumberChannelMerge codec base channel diff mergeType changes with
    | error e' =>
      simp only [hCalculate] at h
      rw [Except.error.inj h]
    | ok action =>
      simp only [hCalculate] at h
      cases h
  | none =>
    rw [hLookup] at h
    dsimp only at h
    split_ifs at h
    · obtain hData | ⟨baseData, -, hNext⟩ := error_of_bind h
      · exact .inl (exists_of_ofHistory_error hData)
      · split_ifs at hNext
        · obtain hBinary | ⟨baseBinary, -, hNext⟩ := error_of_bind hNext
          · exact .inl (exists_of_ofHistory_error hBinary)
          · obtain hCheck | ⟨-, -, hLast⟩ := error_of_bind hNext
            · exact .inl (exists_of_ofHistory_error hCheck)
            · cases hLast
        · cases hNext
    · cases h

theorem computeMergedState_eq_error {resolved : ResolvedConflicts R} {stateChanges : R → StateChange}
    {mergeableChannels : R → NumberChannelsDiff} {multiWriterChannels : Finset Bytes}
    (h : computeMergedState codec base resolved stateChanges mergeableChannels multiWriterChannels = .error e) :
    (∃ error, e = .history error) ∨
      allMergeableChannels mergeableChannels (toMergeItems resolved.toMerge) = .error e ∨
      ∃ mergeable channel diff mergeType value,
        allMergeableChannels mergeableChannels (toMergeItems resolved.toMerge) = .ok mergeable ∧
        mergeable.lookup channel = some (diff, mergeType) ∧
        convertToReadNumber base.getData channel = .ok value ∧
        e = .numberChannelRejected channel (value.getD 0) diff mergeType ∧
        applyMergeableValue (value.getD 0) diff mergeType = none := by
  obtain hCombine | ⟨mergeable, hMergeable, hNext⟩ := error_of_bind h
  · exact .inr (.inl hCombine)
  · obtain hActions | ⟨actions, -, hApply⟩ := error_of_bind hNext
    · obtain hConsumes | ⟨consumes, -, hNext⟩ := error_of_bind hActions
      · exact .inl (exists_of_ofHistory_error hConsumes)
      · obtain hProduces | ⟨produces, -, hNext⟩ := error_of_bind hNext
        · obtain ⟨⟨channel, changes⟩, -, hProduce⟩ := exists_of_mapM_error hProduces
          obtain hHandle | ⟨handled, -, hRest⟩ := error_of_bind hProduce
          · obtain hHistory | ⟨diff, mergeType, hLookup, hCalculate⟩ := handleChannelChange_eq_error hHandle
            · exact .inl hHistory
            · obtain hHistory | ⟨value, hRest⟩ := calculateNumberChannelMerge_eq_error hCalculate
              · exact .inl hHistory
              · exact .inr (.inr ⟨mergeable, channel, diff, mergeType, value, hMergeable, hLookup, hRest⟩)
          · cases handled with
            | some action => cases hRest
            | none =>
              dsimp only at hRest
              split_ifs at hRest
              · cases hRest
              · obtain hMake | ⟨action, -, hLast⟩ := error_of_bind hRest
                · exact .inl (exists_of_ofHistory_error hMake)
                · cases hLast
        · obtain hJoins | ⟨joins, -, hNext⟩ := error_of_bind hNext
          · exact .inl (exists_of_ofHistory_error hJoins)
          · obtain hJoinActions | ⟨joinActions, -, hLast⟩ := error_of_bind hNext
            · exact .inl (exists_of_ofHistory_error hJoinActions)
            · cases hLast
    · exact .inl (exists_of_ofHistory_error hApply)

end failures

namespace MergeInput

variable {input : MergeInput}

def baseBalance (input : MergeInput) (k : Bytes) : Int :=
  match convertToReadNumber input.history.getData k with
  | .ok value => value.getD 0
  | .error _ => 0

theorem eq_baseBalance {branches : Finset (Branch DeployChainIndex)} {base : Balances}
    (h : baseMergeableChRes input.mergeableChannelsFn input.history.getData branches = .ok base) {k : Bytes}
    {b : Branch DeployChainIndex} (hb : b ∈ branches) (hTouches : Touches input.mergeableChannelsFn b k) :
    base k = input.baseBalance k := by
  have hKeys : ∀ k ∈ allChannelKeys input.mergeableChannelsFn branches, base k = input.baseBalance k := by
    refine foldlM_ok_induction (fun taken (balances : Balances) => ∀ k ∈ taken, balances k = input.baseBalance k) h
      (by simp) ?_
    intro taken channel balances balances' _ hTaken hStep k hk
    rw [readBase] at hStep
    cases hRead : convertToReadNumber input.history.getData channel with
    | error e =>
      rw [hRead] at hStep
      cases hStep
    | ok value =>
      rw [hRead] at hStep
      obtain rfl := Except.ok.inj hStep
      dsimp only
      obtain rfl | hNe := eq_or_ne k channel
      · rw [Function.update_self, baseBalance, hRead]
      · rw [Function.update_of_ne hNe]
        refine hTaken k ((List.mem_append.mp hk).resolve_right fun hLast => hNe ?_)
        exact List.mem_singleton.mp hLast
  obtain ⟨r, hr, hk⟩ := hTouches
  refine hKeys k ((Finset.mem_sort _).mpr (Finset.mem_biUnion.mpr ⟨b, hb, Finset.mem_biUnion.mpr ⟨r, hr, ?_⟩⟩))
  exact List.mem_toFinset.mpr (AList.mem_keys.mp hk)

def HasDiff (input : MergeInput) (branch : Branch DeployChainIndex) : Prop :=
  ∃ chain ∈ branch.items, input.mergeableChannelsFn chain ≠ ∅

instance (branch : Branch DeployChainIndex) : Decidable (input.HasDiff branch) :=
  inferInstanceAs (Decidable (∃ chain ∈ branch.items, input.mergeableChannelsFn chain ≠ ∅))

theorem hasDiff_of_touches {branch : Branch DeployChainIndex} {k : Bytes}
    (h : Touches input.mergeableChannelsFn branch k) : input.HasDiff branch := by
  obtain ⟨chain, hChain, hk⟩ := h
  refine ⟨chain, hChain, fun hEmpty => ?_⟩
  rw [hEmpty] at hk
  exact AList.notMem_empty k hk

theorem filter_expandLineage {pinned : Finset DeployChainIndex} {resolved expanded : ResolvedConflicts DeployChainIndex}
    (h : input.expandLineage pinned resolved = .ok expanded)
    (hUnpruned : ∀ branch ∈ resolved.toMerge, input.HasDiff branch → ∀ chain ∈ branch.items, chain ∉ pinned →
      ∀ rejected ∈ resolved.rejected, ¬ input.dag.StrictAncestor rejected.sourceBlockHash chain.sourceBlockHash) :
    expanded.toMerge.filter input.HasDiff = resolved.toMerge.filter input.HasDiff := by
  rw [expandLineage] at h
  split_ifs at h with hNone
  · rw [Except.ok.inj h]
  · refine foldlM_ok_induction (fun taken (after : ResolvedConflicts DeployChainIndex) =>
      after.toMerge.filter input.HasDiff = taken.filter input.HasDiff) h rfl ?_
    intro taken branch before after hBranch hTaken hStep
    obtain ⟨kept, stale, hItems, -, hStale, rfl⟩ := expandBranch_spec hStep
    by_cases hDiff : input.HasDiff branch
    · have hNothing : stale = ∅ := by
        refine Finset.eq_empty_of_forall_notMem fun chain hChain => ?_
        obtain ⟨hUnpinned, block, hBlock, hBelow⟩ := (isStale_eq_ok (hStale chain hChain)).mp rfl
        obtain ⟨rejected, hRejected, rfl⟩ := Finset.mem_image.mp hBlock
        have hMem : chain ∈ branch.items := hItems ▸ Finset.mem_union_right _ hChain
        exact hUnpruned branch hBranch hDiff chain hMem hUnpinned rejected hRejected hBelow
      have hAll : (⟨kept⟩ : Branch DeployChainIndex) = branch := by
        obtain ⟨items⟩ := branch
        rw [hNothing, Finset.union_empty] at hItems
        rw [hItems]
      have hSome : kept ≠ ∅ := by
        obtain ⟨chain, hChain, -⟩ := hDiff
        rw [← hAll] at hChain
        exact Finset.ne_empty_of_mem hChain
      dsimp only
      rw [if_neg hSome, hAll, List.filter_append, List.filter_append, hTaken]
    · have hKeptNone : ¬ input.HasDiff ⟨kept⟩ := by
        rintro ⟨chain, hChain, hNe⟩
        exact hDiff ⟨chain, hItems ▸ Finset.mem_union_left _ hChain, hNe⟩
      rw [List.filter_append, List.filter_singleton, decide_eq_false hDiff, cond_false, List.append_nil,
        ← hTaken]
      dsimp only
      split_ifs
      · rfl
      · rw [List.filter_append, List.filter_singleton, decide_eq_false hKeptNone, cond_false, List.append_nil]

theorem filter_canonicalOrder (p : Branch DeployChainIndex → Bool) (toMerge : List (Branch DeployChainIndex)) :
    (canonicalOrder toMerge).filter p = canonicalOrder (toMerge.filter p) := by
  refine List.Perm.eq_of_pairwise (fun a b _ _ hab hba => le_antisymm hab hba)
    ((List.pairwise_insertionSort _ _).filter _) (List.pairwise_insertionSort _ _) ?_
  exact ((List.perm_insertionSort _ _).filter p).trans (List.perm_insertionSort _ _).symm

theorem exists_resolves {sets : MergeSets} {resolved : ResolvedConflicts DeployChainIndex}
    {retained : List DeployChainIndex} (hSplits : SplitsRetained input retained sets)
    (h : input.resolveScope sets = .ok resolved) :
    ∃ branches base, (∀ b ∈ resolved.toMerge, b ∈ branches) ∧
      baseMergeableChRes input.mergeableChannelsFn input.history.getData branches = .ok base ∧
      ∀ k, (∀ b ∈ resolved.toMerge, ∀ r ∈ b.items, AddsAt (input.mergeableChannelsFn r) k) →
        ∀ folded, folded <+: canonicalOrder resolved.toMerge →
          (InRange (base k) ∨ ∃ b ∈ folded, Touches input.mergeableChannelsFn b k) →
            InRange (base k + (folded.map fun b => branchChange input.mergeableChannelsFn b k).sum) := by
  obtain ⟨once, forced, -, hOnce, rfl⟩ := exists_of_resolveScope h
  obtain ⟨conflictMap, base, hMap, hBase⟩ := exists_of_resolveConflicts_ok hOnce
  rw [resolveOnce, resolveConflicts_eq_ok hMap hBase] at hOnce
  have hDisjoint : ∀ item ∈ sets.actualSeqAll.filter (· ∉ forced),
      item ∉ sets.lateSeqAll ++ forced.sort (· ≤ ·) := by
    intro item hItem hLate
    obtain ⟨hActual, hForced⟩ := List.mem_filter.mp hItem
    obtain hLate | hSorted := List.mem_append.mp hLate
    · exact hSplits.disjoint item hActual hLate
    · exact of_decide_eq_true hForced ((Finset.mem_sort _).mp hSorted)
  have hOn := conflictMapOn_computeConflictMapFn hMap
  have hResolves := resolves_of_mem_rejectionCandidates (input.partitions_computeBranchesFn _) hOn hDisjoint
    (selectRejection_mem_rejectionCandidates input.orders base input.mergeableChannelsFn input.rejectionCostF
      DeployChainIndex.priorRejections hOn sets.pinned)
  obtain rfl := Except.ok.inj hOnce
  refine ⟨_, base, fun b hb => ?_, hBase, hResolves.inRange⟩
  exact input.orders.branches.mem_iter.mp (List.mem_of_mem_filter hb)

/-- The chains that are applied keep every number channel whose diffs are added in range, and the merged
state does not fail over one. -/
structure KeepsBalances (input : MergeInput) (expanded : ResolvedConflicts DeployChainIndex) : Prop where
  inRange : ∀ k, (∀ b ∈ expanded.toMerge, ∀ r ∈ b.items, AddsAt (input.mergeableChannelsFn r) k) →
    ∀ folded, folded <+: canonicalOrder expanded.toMerge → (∃ b ∈ folded, Touches input.mergeableChannelsFn b k) →
      InRange (input.baseBalance k + (folded.map fun b => branchChange input.mergeableChannelsFn b k).sum)
  noOverflow : ∀ k, input.mergedState expanded ≠ .error (.integerAddOverflow k)
  notRejected : ∀ k base diff, input.mergedState expanded ≠ .error (.numberChannelRejected k base diff .integerAdd)

/-- The pass over the lineage takes no chain from a branch with diffs, the base is in range, and the
chains of a branch agree with what was checked for the branch as a whole. -/
structure BalancesSafe (input : MergeInput) (sets : MergeSets) (resolved : ResolvedConflicts DeployChainIndex) :
    Prop where
  unpruned : ∀ branch ∈ resolved.toMerge, input.HasDiff branch → ∀ chain ∈ branch.items, chain ∉ sets.pinned →
    ∀ rejected ∈ resolved.rejected, ¬ input.dag.StrictAncestor rejected.sourceBlockHash chain.sourceBlockHash
  base : ∀ branch ∈ resolved.toMerge, ∀ k, Touches input.mergeableChannelsFn branch k → InRange (input.baseBalance k)
  oneType : OneType input.mergeableChannelsFn resolved.toMerge
  keepsTotal : ∀ branch ∈ resolved.toMerge, ∀ k, KeepsTotal input.mergeableChannelsFn branch k

section failures

theorem mergedState_eq_error {resolved : ResolvedConflicts DeployChainIndex} {e : MergeFailure}
    (h : input.mergedState resolved = .error e) : (∃ error, e = .history error) ∨
      allMergeableChannels input.mergeableChannelsFn (toMergeItems resolved.toMerge) = .error e ∨
      ∃ mergeable channel diff mergeType,
        allMergeableChannels input.mergeableChannelsFn (toMergeItems resolved.toMerge) = .ok mergeable ∧
        mergeable.lookup channel = some (diff, mergeType) ∧
        e = .numberChannelRejected channel (input.baseBalance channel) diff mergeType ∧
        applyMergeableValue (input.baseBalance channel) diff mergeType = none := by
  refine (computeMergedState_eq_error h).imp_right (.imp_right ?_)
  rintro ⟨mergeable, channel, diff, mergeType, value, hMergeable, hLookup, hRead, hError, hNone⟩
  have hBase : input.baseBalance channel = value.getD 0 := by rw [baseBalance, hRead]
  rw [← hBase] at hError hNone
  exact ⟨mergeable, channel, diff, mergeType, hMergeable, hLookup, hError, hNone⟩

theorem allMergeableChannels_ne_rejected {items : List DeployChainIndex} {k : Bytes} {base diff : Int}
    {mergeType : MergeType} :
    allMergeableChannels input.mergeableChannelsFn items ≠ .error (.numberChannelRejected k base diff mergeType) := by
  intro hError
  obtain ⟨taken, entry, diffs, -, -, hStep⟩ := exists_of_foldlM_error hError
  obtain ⟨existing, -, ⟨hMismatch, -⟩ | ⟨hOverflow, -⟩⟩ := foldNumberChannel_eq_error hStep
  · cases hMismatch
  · cases hOverflow

end failures

section safe

variable {sets : MergeSets} {resolved expanded : ResolvedConflicts DeployChainIndex}

theorem addsAt_of_not_hasDiff {branch : Branch DeployChainIndex} (h : ¬ input.HasDiff branch) {r : DeployChainIndex}
    (hr : r ∈ branch.items) (k : Bytes) : AddsAt (input.mergeableChannelsFn r) k := by
  have hEmpty : input.mergeableChannelsFn r = ∅ := by
    by_contra hNe
    exact h ⟨r, hr, hNe⟩
  intro entry hLookup
  rw [hEmpty] at hLookup
  cases hLookup

theorem keepsTotal_of_not_hasDiff {branch : Branch DeployChainIndex} (h : ¬ input.HasDiff branch) (k : Bytes) :
    KeepsTotal input.mergeableChannelsFn branch k := by
  have hZero : ∀ value ∈ (branch.items.sort (· ≤ ·)).map fun r => channelDiff (input.mergeableChannelsFn r) k,
      value = 0 := by
    intro value hValue
    obtain ⟨r, hr, rfl⟩ := List.mem_map.mp hValue
    have hEmpty : input.mergeableChannelsFn r = ∅ := by
      by_contra hNe
      exact h ⟨r, (Finset.mem_sort _).mp hr, hNe⟩
    rw [hEmpty]
    rfl
  exact noOvershoot_of_atMostOne (List.pairwise_of_forall_mem_list fun a ha _ _ => .inl (hZero a ha))

theorem BalancesSafe.mem_toMerge_iff (hSafe : BalancesSafe input sets resolved)
    (h : Stages input sets resolved expanded) {b : Branch DeployChainIndex} (hb : input.HasDiff b) :
    b ∈ expanded.toMerge ↔ b ∈ resolved.toMerge := by
  have hMem : b ∈ expanded.toMerge.filter input.HasDiff ↔ b ∈ resolved.toMerge.filter input.HasDiff := by
    rw [filter_expandLineage h.expands hSafe.unpruned]
  simpa [List.mem_filter, hb] using hMem

theorem inRange_of_safe (h : Stages input sets resolved expanded) (hSafe : BalancesSafe input sets resolved) {k : Bytes}
    (hAdds : ∀ b ∈ expanded.toMerge, ∀ r ∈ b.items, AddsAt (input.mergeableChannelsFn r) k)
    {folded : List (Branch DeployChainIndex)} (hFolded : folded <+: canonicalOrder expanded.toMerge)
    (hTouched : ∃ b ∈ expanded.toMerge, Touches input.mergeableChannelsFn b k) :
    InRange (input.baseBalance k + (folded.map fun b => branchChange input.mergeableChannelsFn b k).sum) := by
  obtain ⟨chains, settled, -, -, hSplits, -⟩ := prepare_spec h.prepared
  obtain ⟨branches, base, hBranches, hBase, hRange⟩ := exists_resolves hSplits h.resolves
  have hFilter := filter_expandLineage h.expands hSafe.unpruned
  obtain ⟨b, hb, hTouches⟩ := hTouched
  have hbResolved := (hSafe.mem_toMerge_iff h (hasDiff_of_touches hTouches)).mp hb
  have hAddsBefore : ∀ b ∈ resolved.toMerge, ∀ r ∈ b.items, AddsAt (input.mergeableChannelsFn r) k := by
    intro b' hb' r hr
    by_cases hDiff : input.HasDiff b'
    · exact hAdds b' ((hSafe.mem_toMerge_iff h hDiff).mpr hb') r hr
    · exact addsAt_of_not_hasDiff hDiff hr k
  -- the branches with diffs come in the same order, the others add nothing
  have hOrder : (canonicalOrder expanded.toMerge).filter input.HasDiff =
      (canonicalOrder resolved.toMerge).filter input.HasDiff := by
    rw [filter_canonicalOrder, filter_canonicalOrder, hFilter]
  have hPart := hFolded.filter input.HasDiff
  rw [hOrder] at hPart
  obtain ⟨before, hBefore, hEq⟩ := List.prefix_filter_iff.mp hPart
  have hZero : ∀ b, decide (input.HasDiff b) = false → branchChange input.mergeableChannelsFn b k = 0 := by
    intro b' hb'
    exact branchChange_eq_zero fun hTouch => of_decide_eq_false hb' (hasDiff_of_touches hTouch)
  rw [← sum_filter hZero folded, hEq, sum_filter hZero before, ← eq_baseBalance hBase (hBranches b hbResolved) hTouches]
  refine hRange k hAddsBefore before hBefore (.inl ?_)
  rw [eq_baseBalance hBase (hBranches b hbResolved) hTouches]
  exact hSafe.base b hbResolved k hTouches

end safe

end MergeInput

end F1r3Node.Merging
