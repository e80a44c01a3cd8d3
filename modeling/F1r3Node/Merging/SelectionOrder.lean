import F1r3Node.Merging.BranchBalances
import F1r3Node.Merging.SelectRejection

/-! # Iteration order of the selection

Each order of iteration leads to the same groups, and where the diffs of every branch are combined
alike in every order, to the same rejection.
-/

namespace F1r3Node.Merging

open Lib

variable {R : Type} [LinearOrder R] (orders orders' : HashOrders R) {mergeableChannels : R → NumberChannelsDiff}
  {m : RelationMap (Branch R)} {V : Finset (Branch R)} (base : Balances) (cost priorLosses : R → Nat)

theorem foldRejection_eq_of_orderFree (hFree : ∀ b ∈ V, OrderFree mergeableChannels b) :
    foldRejection orders mergeableChannels base V = foldRejection orders' mergeableChannels base V := by
  rw [foldRejection, foldRejection]
  congr 1
  refine List.foldl_ext _ _ _ fun st b hb => ?_
  rw [foldRejectionStep, foldRejectionStep,
    calMergedResult_eq_of_orderFree (hFree b ((Finset.mem_sort _).mp hb)) orders']

theorem rejectionCandidates_eq_of_orderFree (hFree : ∀ b ∈ V, OrderFree mergeableChannels b) :
    rejectionCandidates orders mergeableChannels V m base = rejectionCandidates orders' mergeableChannels V m base := by
  rw [rejectionCandidates, rejectionCandidates, getMergedResultRejection, getMergedResultRejection,
    foldRejection_eq_of_orderFree orders orders' base hFree]
  congr 1
  refine Finset.image_congr fun S _ => ?_
  rw [foldRejection_eq_of_orderFree orders orders' base fun b hb => hFree b (Finset.sdiff_subset hb)]

theorem subset_of_mem_branchGroups (hm : ConflictMapOn m V) {g g' : List (Branch R)}
    (hg : g ∈ branchGroups orders mergeableChannels m (orders.branches.iter V))
    (hg' : g' ∈ branchGroups orders' mergeableChannels m (orders'.branches.iter V)) {b : Branch R} (hb : b ∈ g)
    (hb' : b ∈ g') : g.toFinset ⊆ g'.toFinset := by
  have hGrouping := grouping_branchGroups orders' mergeableChannels hm
  intro a ha
  have hIff : a ∈ g' ↔ b ∈ g' := by
    refine related_of_mem_branchGroups orders mergeableChannels m (orders.branches.iter V)
      (P := fun a b => a ∈ g' ↔ b ∈ g') ⟨fun _ => Iff.rfl, Iff.symm, Iff.trans⟩ ?_ ?_ hg (List.mem_toFinset.mp ha) hb
    · intro a b hab
      exact ⟨fun h => hGrouping.conflicts g' hg' a h b (RelationMap.mem_neighbours.mpr hab),
        fun h => hGrouping.conflicts g' hg' b h a (RelationMap.mem_neighbours.mpr (hm.symm a b hab))⟩
    · intro a ha b hb k hTouchA hTouchB
      have haV := orders.branches.mem_iter.mp ha
      have hbV := orders.branches.mem_iter.mp hb
      exact ⟨hGrouping.channels g' hg' a haV b hbV k hTouchA hTouchB,
        hGrouping.channels g' hg' b hbV a haV k hTouchB hTouchA⟩
  exact List.mem_toFinset.mpr (hIff.mpr hb')

theorem exists_same_group (hm : ConflictMapOn m V) {g : List (Branch R)}
    (hg : g ∈ branchGroups orders mergeableChannels m (orders.branches.iter V)) {b : Branch R} (hb : b ∈ g) :
    ∃ g' ∈ branchGroups orders' mergeableChannels m (orders'.branches.iter V), g'.toFinset = g.toFinset := by
  have hbV : b ∈ V := ((grouping_branchGroups orders mergeableChannels hm).cover b).mpr ⟨g, hg, hb⟩
  obtain ⟨g', hg', hb'⟩ := ((grouping_branchGroups orders' mergeableChannels hm).cover b).mp hbV
  refine ⟨g', hg', ?_⟩
  exact (subset_of_mem_branchGroups orders' orders hm hg' hg hb' hb).antisymm
    (subset_of_mem_branchGroups orders orders' hm hg hg' hb hb')

theorem groupCandidates_eq_of_orderFree {g g' : List (Branch R)} (hSame : g'.toFinset = g.toFinset)
    (hm : ConflictMapOn (groupMap m g) g.toFinset) (hm' : ConflictMapOn (groupMap m g') g'.toFinset)
    (hFree : ∀ b ∈ g, OrderFree mergeableChannels b) :
    groupCandidates orders' mergeableChannels m base g' = groupCandidates orders mergeableChannels m base g := by
  have hNeighbours : (groupMap m g').neighbours = (groupMap m g).neighbours := by
    funext b
    have hb : b ∈ g' ↔ b ∈ g := by rw [← List.mem_toFinset, hSame, List.mem_toFinset]
    rw [neighbours_groupMap, neighbours_groupMap, Rejections.within, Rejections.within]
    simp only [hb]
  ext o
  rw [groupCandidates, groupCandidates, mem_rejectionCandidates _ _ hm', mem_rejectionCandidates _ _ hm, hNeighbours,
    hSame]
  refine exists_congr fun S => and_congr_right fun _ => ?_
  rw [foldRejection_eq_of_orderFree orders' orders base fun b hb =>
    hFree b (List.mem_toFinset.mp (Finset.sdiff_subset hb))]

section

variable (hm : ConflictMapOn m V) (hFree : ∀ b ∈ V, OrderFree mergeableChannels b)

include hm hFree

theorem highestLeast_le_of_orderFree :
    highestLeast orders mergeableChannels m base priorLosses
        (branchGroups orders mergeableChannels m (orders.branches.iter V)) ≤
      highestLeast orders' mergeableChannels m base priorLosses
        (branchGroups orders' mergeableChannels m (orders'.branches.iter V)) := by
  have hGrouping := grouping_branchGroups orders mergeableChannels hm
  have hGrouping' := grouping_branchGroups orders' mergeableChannels hm
  refine foldl_max_le fun a ha => ?_
  simp only [List.map_map, List.mem_map, Function.comp_apply] at ha
  obtain ⟨g, hg, rfl⟩ := ha
  cases g with
  | nil =>
    obtain ⟨o, ho⟩ := rejectionCandidates_nonempty orders mergeableChannels (hGrouping.conflictMapOn hm hg) base
    have hEmpty : o = ∅ := Finset.subset_empty.mp (hGrouping.subset_of_mem_groupCandidates hm hg ho)
    refine ((leastMaxLosses_spec priorLosses ⟨o, ho⟩).2 o ho).trans ?_
    rw [hEmpty]
    exact Nat.zero_le _
  | cons b g =>
    obtain ⟨g', hg', hSame⟩ := exists_same_group orders orders' hm hg List.mem_cons_self
    rw [← groupCandidates_eq_of_orderFree orders orders' base hSame (hGrouping.conflictMapOn hm hg)
      (hGrouping'.conflictMapOn hm hg') fun b hb => hFree b (hGrouping.toFinset_subset hg (List.mem_toFinset.mpr hb))]
    exact le_highestLeast orders' mergeableChannels m base priorLosses hg'

theorem selectRejection_subset_of_orderFree :
    selectRejection orders V m base mergeableChannels cost priorLosses ∅ ⊆
      selectRejection orders' V m base mergeableChannels cost priorLosses ∅ := by
  have hGrouping := grouping_branchGroups orders mergeableChannels hm
  have hGrouping' := grouping_branchGroups orders' mergeableChannels hm
  rw [selectRejection_eq_unionOf, selectRejection_eq_unionOf,
    (highestLeast_le_of_orderFree orders orders' base priorLosses hm hFree).antisymm
      (highestLeast_le_of_orderFree orders' orders base priorLosses hm hFree)]
  intro b hb
  obtain ⟨g, hg, hbg⟩ := mem_unionOf.mp hb
  have hLeast := (le_highestLeast orders mergeableChannels m base priorLosses hg).trans
    (highestLeast_le_of_orderFree orders orders' base priorLosses hm hFree)
  have hCand := (bestWithin_spec orders mergeableChannels base cost priorLosses (hGrouping.conflictMapOn hm hg)
    hLeast).1
  have hIn : b ∈ g := List.mem_toFinset.mp (hGrouping.subset_of_mem_groupCandidates hm hg hCand hbg)
  obtain ⟨g', hg', hSame⟩ := exists_same_group orders orders' hm hg hIn
  refine mem_unionOf.mpr ⟨g', hg', ?_⟩
  rw [bestWithin, groupCandidates_eq_of_orderFree orders orders' base hSame (hGrouping.conflictMapOn hm hg)
    (hGrouping'.conflictMapOn hm hg') fun b hb => hFree b (hGrouping.toFinset_subset hg (List.mem_toFinset.mpr hb))]
  exact hbg

theorem selectRejection_eq_of_orderFree (pinned : Finset R) :
    selectRejection orders V m base mergeableChannels cost priorLosses pinned =
      selectRejection orders' V m base mergeableChannels cost priorLosses pinned := by
  obtain rfl | hPinned := eq_or_ne pinned ∅
  · exact (selectRejection_subset_of_orderFree orders orders' base cost priorLosses hm hFree).antisymm
      (selectRejection_subset_of_orderFree orders' orders base cost priorLosses hm hFree)
  · rw [selectRejection, selectRejection, if_pos hPinned, if_pos hPinned, selectRejectionExhaustive,
      selectRejectionExhaustive, rejectionCandidates_eq_of_orderFree orders orders' base hFree]

end

end F1r3Node.Merging
