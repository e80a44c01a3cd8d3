import F1r3Node.Merging.NumberChannelFolds

/-! # The order of the items of a branch

The diffs of a branch are combined in the iteration order of a hash set.
-/

namespace F1r3Node.Merging

open Shared Lib KeyedFolds

def combineFirst (existing incoming : Int × MergeType) : Option (Int × MergeType) :=
  (combineMergeableValue existing.1 incoming.1 incoming.2).map fun combined => (combined, existing.2)

theorem combineInto_eq_absorb : combineInto = absorb combineFirst := by
  funext diff entry
  unfold combineInto absorb combineFirst
  cases diff.lookup entry.1 with
  | none => rfl
  | some existing =>
    dsimp only
    rw [Option.map_map]
    rfl

theorem gather_combineFirst {values : List (Int × MergeType)} {t : MergeType} (h : ∀ v ∈ values, v.2 = t) :
    gather combineFirst values = gather combineAlike values := by
  induction values using List.reverseRecOn with
  | nil => rfl
  | append_singleton values v ih =>
    have hValues : ∀ w ∈ values, w.2 = t := fun w hw => h w (List.mem_append_left _ hw)
    rw [gather_append_singleton, gather_append_singleton, ih hValues]
    refine Option.bind_congr fun r hr => ?_
    cases r with
    | none => rfl
    | some existing =>
      have hCombines := (gather_combineAlike _ _).mp hr
      obtain ⟨w, hw⟩ := List.exists_mem_of_ne_nil values hCombines.ne_nil
      have hType : existing.2 = v.2 := by
        rw [← hCombines.types w hw, hValues w hw, h v (by simp)]
      rw [gatherNext, gatherNext, combineFirst, combineAlike, if_neg (not_not.mpr hType)]

theorem gather_ne_none_iff {values : List (Int × MergeType)} {t : MergeType} (h : ∀ v ∈ values, v.2 = t) :
    gather combineAlike values ≠ none ↔ (t = .integerAdd → PrefixesFit (values.map Prod.fst)) := by
  obtain rfl | hNe := eq_or_ne values []
  · refine iff_of_true (Option.some_ne_none none) fun _ p hp hLength => ?_
    rw [List.map_nil, List.prefix_nil] at hp
    rw [hp] at hLength
    cases hLength
  · constructor
    · intro hSome hAdd
      obtain ⟨r, hr⟩ := Option.ne_none_iff_exists'.mp hSome
      cases r with
      | none => exact absurd (gather_eq_some_none_iff.mp hr) hNe
      | some result =>
        have hCombines := (gather_combineAlike _ _).mp hr
        obtain ⟨w, hw⟩ := List.exists_mem_of_ne_nil values hNe
        exact hCombines.fits ((hCombines.types w hw).symm.trans ((h w hw).trans hAdd))
    · intro hFits
      rw [(gather_combineAlike values (t.total (values.map Prod.fst), t)).mpr ⟨hNe, h, rfl, hFits⟩]
      exact Option.some_ne_none _

section branch

variable {R : Type} [LinearOrder R] (mergeableChannels : R → NumberChannelsDiff)

def diffsIn (k : Bytes) (items : List R) : List (Int × MergeType) := items.filterMap fun r => (mergeableChannels r).lookup k

def mergedInOrder (items : List R) (base : Balances) : Option Balances :=
  (combineItems mergeableChannels items).bind fun diff => diff.entries.foldlM applyEntry base

variable {mergeableChannels} {branch : Branch R} {base : Balances}

variable {items : List R} {ba : Balances}

omit [LinearOrder R] in
theorem mergedInOrder_eq_some_iff :
    mergedInOrder mergeableChannels items base = some ba ↔
      ∀ k, ∃ entry, gather combineFirst (diffsIn mergeableChannels k items) = some entry ∧
        appliedAt (base k) entry = some (ba k) := by
  rw [mergedInOrder, combineItems, combineInto_eq_absorb, Option.bind_eq_some_iff]
  constructor
  · rintro ⟨diff, hDiff, hApply⟩ k
    refine ⟨diff.lookup k, ?_, (foldlM_applyEntry_iff diff.nodupKeys).mp hApply k⟩
    rw [diffsIn, ← valuesAt_flatMap]
    exact lookup_foldlM_absorb hDiff k
  · intro h
    cases hDiff : (items.flatMap fun r => (mergeableChannels r).entries).foldlM (absorb combineFirst) ∅ with
    | none =>
      obtain ⟨k, hk⟩ := foldlM_absorb_eq_none_iff.mp hDiff
      obtain ⟨entry, hEntry, -⟩ := h k
      rw [valuesAt_flatMap] at hk
      rw [diffsIn, hk] at hEntry
      cases hEntry
    | some diff =>
      refine ⟨diff, rfl, (foldlM_applyEntry_iff diff.nodupKeys).mpr fun k => ?_⟩
      obtain ⟨entry, hEntry, hApplied⟩ := h k
      have hLookup := lookup_foldlM_absorb hDiff k
      rw [valuesAt_flatMap] at hLookup
      rw [diffsIn, hLookup] at hEntry
      obtain rfl := Option.some.inj hEntry
      exact hApplied

variable (mergeableChannels branch) in
def OneMergeType (k : Bytes) : Prop :=
  ∃ t, ∀ r ∈ branch.items, ∀ entry, (mergeableChannels r).lookup k = some entry → entry.2 = t

variable (mergeableChannels branch base) in
/-- Channels have one merge type; where diffs are added, any two or more of them stay in bounds and the
balance stays in range. -/
structure FitsInEveryOrder : Prop where
  types : ∀ k, OneMergeType mergeableChannels branch k
  sums : ∀ k, (∀ r ∈ branch.items, AddsAt (mergeableChannels r) k) → ∀ part ⊆ branch.items,
    (∀ r ∈ part, k ∈ mergeableChannels r) → 2 ≤ part.card →
      (∑ r ∈ part, channelDiff (mergeableChannels r) k).natAbs < 2 ^ integerAddBits
  range : ∀ k, (∀ r ∈ branch.items, AddsAt (mergeableChannels r) k) → Touches mergeableChannels branch k →
    0 ≤ base k + branchChange mergeableChannels branch k ∧
      base k + branchChange mergeableChannels branch k < 2 ^ integerAddBits

variable (mergeableChannels branch base) in
/-- On a channel whose diffs are added the balance leaves its range, or every order of the items has
a partial sum out of bounds. -/
def FitsInNoOrder : Prop :=
  (∃ k, (∀ r ∈ branch.items, AddsAt (mergeableChannels r) k) ∧ Touches mergeableChannels branch k ∧
    ¬ (0 ≤ base k + branchChange mergeableChannels branch k ∧
      base k + branchChange mergeableChannels branch k < 2 ^ integerAddBits)) ∨
  ∀ items : List R, (items : Multiset R) = branch.items.val →
    ∃ k, (∀ r ∈ branch.items, AddsAt (mergeableChannels r) k) ∧
      ¬ PrefixesFit ((diffsIn mergeableChannels k items).map Prod.fst)

variable (mergeableChannels branch base) in
def AcceptsAlike : Prop := ∀ orders orders' : HashOrders R,
  calMergedResult orders mergeableChannels branch base = calMergedResult orders' mergeableChannels branch base

omit [LinearOrder R] in
theorem sum_diffsIn (k : Bytes) (items : List R) : ((diffsIn mergeableChannels k items).map Prod.fst).sum =
    (items.map fun r => channelDiff (mergeableChannels r) k).sum := by
  induction items with
  | nil => rfl
  | cons r items ih =>
    rw [List.map_cons, List.sum_cons, ← ih, diffsIn, List.filterMap_cons, channelDiff]
    cases (mergeableChannels r).lookup k with
    | none => exact (zero_add _).symm
    | some entry => rfl

omit [LinearOrder R] in
theorem sum_eq_of_coe_eq {part : Finset R} (h : (items : Multiset R) = part.val) (f : R → Int) :
    (items.map f).sum = ∑ r ∈ part, f r := by
  rw [Finset.sum, ← h, Multiset.map_coe, Multiset.sum_coe]

variable {k : Bytes}

omit [LinearOrder R] in
theorem type_of_mem_diffsIn (hItems : (items : Multiset R) = branch.items.val)
    {t : MergeType} (h : ∀ r ∈ branch.items, ∀ entry, (mergeableChannels r).lookup k = some entry → entry.2 = t) :
    ∀ v ∈ diffsIn mergeableChannels k items, v.2 = t := by
  intro v hv
  obtain ⟨r, hr, hLookup⟩ := List.mem_filterMap.mp hv
  refine h r ?_ v hLookup
  rwa [← Finset.mem_val, ← hItems]

omit [LinearOrder R] in
theorem touches_iff_diffsIn (hItems : (items : Multiset R) = branch.items.val) :
    Touches mergeableChannels branch k ↔ diffsIn mergeableChannels k items ≠ [] := by
  have hMem : ∀ r, r ∈ items ↔ r ∈ branch.items := fun r => by rw [← Finset.mem_val, ← hItems, Multiset.mem_coe]
  constructor
  · rintro ⟨r, hr, hk⟩ hNil
    obtain ⟨entry, hEntry⟩ := Option.isSome_iff_exists.mp (AList.lookup_isSome.mpr hk)
    have : entry ∈ diffsIn mergeableChannels k items := List.mem_filterMap.mpr ⟨r, (hMem r).mpr hr, hEntry⟩
    rw [hNil] at this
    cases this
  · intro hSome
    obtain ⟨v, hv⟩ := List.exists_mem_of_ne_nil _ hSome
    obtain ⟨r, hr, hLookup⟩ := List.mem_filterMap.mp hv
    exact ⟨r, (hMem r).mp hr, AList.lookup_isSome.mp (Option.isSome_iff_exists.mpr ⟨v, hLookup⟩)⟩

theorem prefixesFit_of_sums (h : ∀ part ⊆ branch.items, (∀ r ∈ part, k ∈ mergeableChannels r) →
      2 ≤ part.card → (∑ r ∈ part, channelDiff (mergeableChannels r) k).natAbs < 2 ^ integerAddBits)
    (hItems : (items : Multiset R) = branch.items.val) :
    PrefixesFit ((diffsIn mergeableChannels k items).map Prod.fst) := by
  intro p hp hLength
  obtain ⟨values, hValues, rfl⟩ := List.prefix_map_iff.mp hp
  obtain ⟨first, hFirst, rfl⟩ := List.prefix_filterMap_iff.mp hValues
  have hNodup : first.Nodup := hFirst.sublist.nodup (by rw [← Multiset.coe_nodup, hItems]; exact branch.items.nodup)
  -- the items up to here that have a diff
  let touching := first.filter fun r => k ∈ mergeableChannels r
  have hDiffs : diffsIn mergeableChannels k first = diffsIn mergeableChannels k touching := by
    rw [diffsIn, diffsIn, List.filterMap_filter]
    refine List.filterMap_congr fun r _ => ?_
    split_ifs with hk
    · rfl
    · exact AList.lookup_eq_none.mpr (by simpa using hk)
  have hCoe : (touching : Multiset R) = touching.toFinset.val := by
    rw [List.toFinset_val, List.Nodup.dedup (hNodup.filter _)]
  change 2 ≤ ((diffsIn mergeableChannels k first).map Prod.fst).length at hLength
  change ((diffsIn mergeableChannels k first).map Prod.fst).sum.natAbs < _
  rw [hDiffs] at hLength ⊢
  rw [sum_diffsIn, sum_eq_of_coe_eq hCoe]
  refine h _ ?_ ?_ ?_
  · intro r hr
    have hMem := hFirst.subset (List.mem_of_mem_filter (List.mem_toFinset.mp hr))
    rwa [← Finset.mem_val, ← hItems]
  · intro r hr
    simpa using (List.mem_filter.mp (List.mem_toFinset.mp hr)).2
  · rw [List.toFinset_card_of_nodup (hNodup.filter _)]
    rw [List.length_map] at hLength
    exact hLength.trans (List.length_filterMap_le _ _)

theorem sums_of_prefixesFit (h : ∀ items : List R, (items : Multiset R) = branch.items.val →
      PrefixesFit ((diffsIn mergeableChannels k items).map Prod.fst))
    {part : Finset R} (hPart : part ⊆ branch.items) (hTouch : ∀ r ∈ part, k ∈ mergeableChannels r) (hCard : 2 ≤ part.card) :
    (∑ r ∈ part, channelDiff (mergeableChannels r) k).natAbs < 2 ^ integerAddBits := by
  have hItems : ((part.sort (· ≤ ·) ++ (branch.items \ part).sort (· ≤ ·) : List R) : Multiset R) = branch.items.val := by
    rw [← Multiset.coe_add, Finset.sort_eq, Finset.sort_eq, ← Finset.disjUnion_val _ _ Finset.disjoint_sdiff,
      Finset.disjUnion_eq_union, Finset.union_sdiff_of_subset hPart]
  have hFits := h _ hItems ((diffsIn mergeableChannels k (part.sort (· ≤ ·))).map Prod.fst) ?_ ?_
  · rwa [sum_diffsIn, sum_eq_of_coe_eq (Finset.sort_eq part (· ≤ ·))] at hFits
  · rw [diffsIn, diffsIn, List.filterMap_append, List.map_append]
    exact List.prefix_append _ _
  · have hAll : ∀ items : List R, (∀ r ∈ items, k ∈ mergeableChannels r) →
        (diffsIn mergeableChannels k items).length = items.length := by
      intro items hItems
      induction items with
      | nil => rfl
      | cons r items ih =>
        obtain ⟨hr, hRest⟩ := List.forall_mem_cons.mp hItems
        obtain ⟨entry, hEntry⟩ := Option.isSome_iff_exists.mp (AList.lookup_isSome.mpr hr)
        rw [diffsIn, List.filterMap_cons, hEntry]
        exact congrArg (· + 1) (ih hRest)
    rw [List.length_map, hAll _ fun r hr => hTouch r ((Finset.mem_sort _).mp hr), Finset.length_sort]
    exact hCard

omit [LinearOrder R] in
theorem fits_of_mergedInOrder (hItems : (items : Multiset R) = branch.items.val)
    (h : mergedInOrder mergeableChannels items base = some ba)
    (hAdds : ∀ r ∈ branch.items, AddsAt (mergeableChannels r) k) :
    PrefixesFit ((diffsIn mergeableChannels k items).map Prod.fst) ∧ (Touches mergeableChannels branch k →
      0 ≤ base k + branchChange mergeableChannels branch k ∧
        base k + branchChange mergeableChannels branch k < 2 ^ integerAddBits) := by
  have hTypes := type_of_mem_diffsIn hItems hAdds
  obtain ⟨r, hr, hApplied⟩ := mergedInOrder_eq_some_iff.mp h k
  rw [gather_combineFirst hTypes] at hr
  have hSome : gather combineAlike (diffsIn mergeableChannels k items) ≠ none := by
    rw [hr]
    exact Option.some_ne_none r
  refine ⟨(gather_ne_none_iff hTypes).mp hSome rfl, fun hTouches => ?_⟩
  have hNe := (touches_iff_diffsIn hItems).mp hTouches
  cases r with
  | none => exact absurd (gather_eq_some_none_iff.mp hr) hNe
  | some result =>
    have hCombines := (gather_combineAlike _ _).mp hr
    obtain ⟨v, hv⟩ := List.exists_mem_of_ne_nil _ hNe
    have hType : result.2 = .integerAdd := (hCombines.types v hv).symm.trans (hTypes v hv)
    have hSum : result.1 = branchChange mergeableChannels branch k := by
      rw [hCombines.total, hType, MergeType.total_integerAdd, sum_diffsIn, sum_eq_of_coe_eq hItems, branchChange]
    rw [appliedAt, hType, hSum] at hApplied
    obtain ⟨hValue, hRange⟩ := applyMergeableValue_integerAdd.mp hApplied
    rwa [← hValue] at hRange

omit [LinearOrder R] in
theorem exists_mergedInOrder (hItems : (items : Multiset R) = branch.items.val)
    (hTypes : ∀ k, OneMergeType mergeableChannels branch k)
    (hFits : ∀ k, (∀ r ∈ branch.items, AddsAt (mergeableChannels r) k) →
      PrefixesFit ((diffsIn mergeableChannels k items).map Prod.fst) ∧ (Touches mergeableChannels branch k →
        0 ≤ base k + branchChange mergeableChannels branch k ∧
          base k + branchChange mergeableChannels branch k < 2 ^ integerAddBits)) :
    ∃ ba, mergedInOrder mergeableChannels items base = some ba := by
  have hAt : ∀ k, ∃ value entry, gather combineFirst (diffsIn mergeableChannels k items) = some entry ∧
      appliedAt (base k) entry = some value := by
    intro k
    obtain ⟨t, ht⟩ := hTypes k
    have hType := type_of_mem_diffsIn hItems ht
    rw [gather_combineFirst hType]
    have hSome : gather combineAlike (diffsIn mergeableChannels k items) ≠ none := by
      refine (gather_ne_none_iff hType).mpr ?_
      rintro rfl
      exact (hFits k ht).1
    obtain ⟨r, hr⟩ := Option.ne_none_iff_exists'.mp hSome
    cases r with
    | none => exact ⟨base k, none, hr, rfl⟩
    | some result =>
      have hCombines := (gather_combineAlike _ _).mp hr
      obtain ⟨v, hv⟩ := List.exists_mem_of_ne_nil _ hCombines.ne_nil
      obtain rfl : result.2 = t := (hCombines.types v hv).symm.trans (hType v hv)
      cases hResult : result.2 with
      | bitmaskOr =>
        refine ⟨(base k).lor result.1, some result, hr, ?_⟩
        rw [appliedAt, hResult]
        rfl
      | integerAdd =>
        rw [hResult] at ht
        have hRange := (hFits k ht).2 ((touches_iff_diffsIn hItems).mpr hCombines.ne_nil)
        have hSum : result.1 = branchChange mergeableChannels branch k := by
          rw [hCombines.total, hResult, MergeType.total_integerAdd, sum_diffsIn, sum_eq_of_coe_eq hItems, branchChange]
        refine ⟨base k + result.1, some result, hr, ?_⟩
        rw [appliedAt, hResult]
        exact applyMergeableValue_integerAdd.mpr ⟨rfl, hSum ▸ hRange⟩
  choose value entry hEntry hValue using hAt
  exact ⟨value, mergedInOrder_eq_some_iff.mpr fun k => ⟨entry k, hEntry k, hValue k⟩⟩

omit [LinearOrder R] in
theorem mergedInOrder_unique {items' : List R} (hItems : (items : Multiset R) = branch.items.val)
    (hItems' : (items' : Multiset R) = branch.items.val) (hTypes : ∀ k, OneMergeType mergeableChannels branch k)
    {ba' : Balances} (h : mergedInOrder mergeableChannels items base = some ba)
    (h' : mergedInOrder mergeableChannels items' base = some ba') : ba = ba' := by
  funext k
  obtain ⟨t, ht⟩ := hTypes k
  obtain ⟨r, hr, hApplied⟩ := mergedInOrder_eq_some_iff.mp h k
  obtain ⟨r', hr', hApplied'⟩ := mergedInOrder_eq_some_iff.mp h' k
  rw [gather_combineFirst (type_of_mem_diffsIn hItems ht)] at hr
  rw [gather_combineFirst (type_of_mem_diffsIn hItems' ht)] at hr'
  have hPerm : items.Perm items' := Multiset.coe_eq_coe.mp (hItems.trans hItems'.symm)
  obtain rfl := eq_of_gather_perm (hPerm.filterMap _) hr hr'
  exact Option.some.inj (hApplied.symm.trans hApplied')

theorem exists_hashOrders (hItems : (items : Multiset R) = branch.items.val) :
    ∃ orders : HashOrders R, ∀ base, calMergedResult orders mergeableChannels branch base =
      mergedInOrder mergeableChannels items base := by
  refine ⟨⟨⟨fun s => if s = branch.items then items else s.sort (· ≤ ·), fun s => ?_⟩, .ascending _⟩, fun base => ?_⟩
  · split_ifs with hs
    · rw [hItems, hs]
    · exact Finset.sort_eq s _
  · rw [calMergedResult, branchDiff]
    dsimp only
    rw [if_pos rfl]
    rfl

theorem acceptsAlike_of_fitsInEveryOrder (h : FitsInEveryOrder mergeableChannels branch base) :
    AcceptsAlike mergeableChannels branch base := by
  have hSome : ∀ orders : HashOrders R, ∃ ba, calMergedResult orders mergeableChannels branch base = some ba := by
    intro orders
    have hItems := orders.items.iter_val branch.items
    exact exists_mergedInOrder hItems h.types fun k hAdds => ⟨prefixesFit_of_sums (h.sums k hAdds) hItems, h.range k hAdds⟩
  intro orders orders'
  obtain ⟨ba, hba⟩ := hSome orders
  obtain ⟨ba', hba'⟩ := hSome orders'
  have hSame : ba = ba' :=
    mergedInOrder_unique (orders.items.iter_val _) (orders'.items.iter_val _) h.types hba hba'
  rw [hba, hba', hSame]

omit [LinearOrder R] in
theorem acceptsAlike_of_fitsInNoOrder (h : FitsInNoOrder mergeableChannels branch base) :
    AcceptsAlike mergeableChannels branch base := by
  have hNone : ∀ orders : HashOrders R, calMergedResult orders mergeableChannels branch base = none := by
    intro orders
    have hItems := orders.items.iter_val branch.items
    rw [Option.eq_none_iff_forall_ne_some]
    intro ba hba
    obtain ⟨k, hAdds, hTouches, hRange⟩ | hOrders := h
    · exact hRange ((fits_of_mergedInOrder hItems hba hAdds).2 hTouches)
    · obtain ⟨k, hAdds, hFits⟩ := hOrders _ hItems
      exact hFits (fits_of_mergedInOrder hItems hba hAdds).1
  intro orders orders'
  rw [hNone, hNone]

theorem fits_of_acceptsAlike (hTypes : ∀ k, OneMergeType mergeableChannels branch k)
    (h : AcceptsAlike mergeableChannels branch base) :
    FitsInEveryOrder mergeableChannels branch base ∨ FitsInNoOrder mergeableChannels branch base := by
  refine or_iff_not_imp_right.mpr fun hSome => ?_
  unfold FitsInNoOrder at hSome
  push Not at hSome
  obtain ⟨hRange, items, hItems, hFits⟩ := hSome
  -- one order is accepted, so all are
  obtain ⟨ba, hba⟩ := exists_mergedInOrder hItems hTypes fun k hAdds =>
    ⟨hFits k hAdds, fun hTouches => ⟨(hRange k hAdds hTouches).1, (hRange k hAdds hTouches).2⟩⟩
  have hAll : ∀ items' : List R, (items' : Multiset R) = branch.items.val →
      mergedInOrder mergeableChannels items' base = some ba := by
    intro items' hItems'
    obtain ⟨orders, hOrders⟩ := exists_hashOrders hItems
    obtain ⟨orders', hOrders'⟩ := exists_hashOrders hItems'
    rw [← hOrders', h orders' orders, hOrders, hba]
  refine ⟨hTypes, fun k hAdds part hPart hTouch hCard => ?_, fun k hAdds hTouches => ?_⟩
  · exact sums_of_prefixesFit (fun items' hItems' => (fits_of_mergedInOrder hItems' (hAll items' hItems') hAdds).1)
      hPart hTouch hCard
  · exact (fits_of_mergedInOrder hItems hba hAdds).2 hTouches

/-- The order of the items is immaterial if every order stays in bounds or none does. With one merge
type on every channel that is the only way. -/
theorem acceptsAlike_iff_fits :
    (FitsInEveryOrder mergeableChannels branch base ∨ FitsInNoOrder mergeableChannels branch base →
      AcceptsAlike mergeableChannels branch base) ∧
    ((∀ k, OneMergeType mergeableChannels branch k) → AcceptsAlike mergeableChannels branch base →
      FitsInEveryOrder mergeableChannels branch base ∨ FitsInNoOrder mergeableChannels branch base) := by
  refine ⟨?_, fits_of_acceptsAlike⟩
  rintro (hEvery | hNo)
  · exact acceptsAlike_of_fitsInEveryOrder hEvery
  · exact acceptsAlike_of_fitsInNoOrder hNo

end branch

/-- A deposit of the highest balance with one unit in and one out overflows in one order only. -/
theorem not_acceptsAlike_fullDeposit : ¬ AcceptsAlike fullDeposit ⟨{1, 2, 3}⟩ fun _ => 0 := by
  intro h
  have hSame := congrArg Option.isSome
    (h ⟨.ascending Nat, .ascending (Branch Nat)⟩ ⟨.descending Nat, .ascending (Branch Nat)⟩)
  rw [calMergedResult_fullDeposit_ascending, calMergedResult_fullDeposit_descending] at hSame
  cases hSame

end F1r3Node.Merging
