import F1r3Node.Lib.SortedLex
import F1r3Node.Merging.RejectionGroups
import Mathlib.Algebra.Order.BigOperators.Group.Finset
import Mathlib.Data.List.Fold

/-! # Selecting a rejection group by group

The objective is additive over groups once the highest loss is fixed, and its tie-break on the sorted branches
survives adding the branches of other groups.
-/

namespace F1r3Node.Merging

open Lib

section sums

variable {α : Type} [DecidableEq α]

theorem fold_wrappingAdd (s : Finset α) (f : α → Nat) : s.fold wrappingAdd 0 f = (∑ x ∈ s, f x) % 2 ^ 64 := by
  induction s using Finset.induction_on with
  | empty => rfl
  | insert a s ha ih =>
    rw [Finset.fold_insert ha, ih, Finset.sum_insert ha, wrappingAdd, Nat.add_mod_mod]

theorem fold_lossProfile (s : Finset α) (f : α → LossProfile) :
    s.fold LossProfile.fold ⟨0, 0⟩ f = ⟨s.sup fun x => (f x).max, min (∑ x ∈ s, (f x).sum) (2 ^ 64 - 1)⟩ := by
  induction s using Finset.induction_on with
  | empty => rfl
  | insert a s ha ih =>
    rw [Finset.fold_insert ha, ih, Finset.sum_insert ha, Finset.sup_insert, LossProfile.fold, saturatingAdd]
    dsimp only
    congr 1
    omega

end sums

section objective

variable {R : Type} [LinearOrder R]

def total (f : R → Nat) (option : Finset (Branch R)) : Nat := ∑ branch ∈ option, ∑ item ∈ branch.items, f item

def totalSize (option : Finset (Branch R)) : Nat := ∑ branch ∈ option, branch.items.card

omit [LinearOrder R] in
theorem total_mono (f : R → Nat) {s t : Finset (Branch R)} (h : s ⊆ t) : total f s ≤ total f t :=
  Finset.sum_le_sum_of_subset h

omit [LinearOrder R] in
theorem branch_le_total (f : R → Nat) {s : Finset (Branch R)} {b : Branch R} (hb : b ∈ s) :
    ∑ item ∈ b.items, f item ≤ total f s :=
  Finset.single_le_sum (f := fun b : Branch R => ∑ item ∈ b.items, f item) (fun _ _ => Nat.zero_le _) hb

variable {option : Finset (Branch R)}

theorem cost_eq_total {cost : R → Nat} (h : total cost option < 2 ^ 64) :
    option.fold wrappingAdd 0 (branchCost cost) = total cost option := by
  have hBranch : ∀ b ∈ option, branchCost cost b = ∑ item ∈ b.items, cost item := fun b hb => by
    rw [branchCost, fold_wrappingAdd, Nat.mod_eq_of_lt ((branch_le_total cost hb).trans_lt h)]
  rw [fold_wrappingAdd, Finset.sum_congr rfl hBranch]
  exact Nat.mod_eq_of_lt h

theorem branchLosses_sum {priorLosses : R → Nat} (h : total priorLosses option < 2 ^ 64)
    {b : Branch R} (hb : b ∈ option) : (branchLosses priorLosses b).sum = ∑ item ∈ b.items, priorLosses item := by
  have hLe := branch_le_total priorLosses hb
  rw [branchLosses, fold_lossProfile]
  dsimp only
  omega

theorem lossSum_eq_total {priorLosses : R → Nat} (h : total priorLosses option < 2 ^ 64) :
    min (∑ b ∈ option, (branchLosses priorLosses b).sum) (2 ^ 64 - 1) = total priorLosses option := by
  rw [Finset.sum_congr rfl fun b hb => branchLosses_sum h hb]
  unfold total at h ⊢
  omega

def restKey (cost priorLosses : R → Nat) (option : Finset (Branch R)) : Nat ×ₗ Nat ×ₗ Nat ×ₗ List (Branch R) :=
  toLex (total priorLosses option, toLex (total cost option, toLex (totalSize option, option.sort (· ≤ ·))))

variable {cost priorLosses : R → Nat}

theorem rejectionKey_whole (hCost : total cost option < 2 ^ 64)
    (hLosses : total priorLosses option < 2 ^ 64) :
    rejectionKey (branchCost cost) (branchLosses priorLosses) option =
      toLex (optionMaxLosses priorLosses option, restKey cost priorLosses option) := by
  rw [rejectionKey, fold_lossProfile, cost_eq_total hCost, lossSum_eq_total hLosses]
  rfl

theorem rejectionKey_group (hCost : total cost option < 2 ^ 64)
    (hLosses : total priorLosses option < 2 ^ 64) :
    rejectionKey (branchCost cost) (fun b => ⟨0, (branchLosses priorLosses b).sum⟩) option =
      toLex (0, restKey cost priorLosses option) := by
  rw [rejectionKey, fold_lossProfile, cost_eq_total hCost, lossSum_eq_total hLosses]
  have hZero : (option.sup fun _ => 0) = 0 := Finset.sup_bot option
  dsimp only
  rw [hZero]
  rfl

variable {options : Finset (Finset (Branch R))}

theorem getOptimalRejection_spec (hNe : options.Nonempty)
    (targetF : Branch R → Nat) (lossesF : Branch R → LossProfile) :
    getOptimalRejection options targetF lossesF ∈ options ∧ ∀ o ∈ options,
      rejectionKey targetF lossesF (getOptimalRejection options targetF lossesF) ≤ rejectionKey targetF lossesF o := by
  have hSorted := options.pairwise_sort (rejectionLE targetF lossesF)
  have hMem : ∀ o, o ∈ options.sort (rejectionLE targetF lossesF) ↔ o ∈ options := fun o => Finset.mem_sort _
  unfold getOptimalRejection
  cases hSort : options.sort (rejectionLE targetF lossesF) with
  | nil =>
    obtain ⟨o, ho⟩ := hNe
    rw [← hMem, hSort] at ho
    cases ho
  | cons best rest =>
    rw [hSort] at hSorted hMem
    refine ⟨(hMem best).mp List.mem_cons_self, fun o ho => ?_⟩
    obtain rfl | hRest := List.mem_cons.mp ((hMem o).mpr ho)
    · exact le_rfl
    · exact (List.pairwise_cons.mp hSorted).1 o hRest

theorem getOptimalRejection_eq {targetF : Branch R → Nat}
    {lossesF : Branch R → LossProfile} {o : Finset (Branch R)} (ho : o ∈ options)
    (hLeast : ∀ o' ∈ options, rejectionKey targetF lossesF o ≤ rejectionKey targetF lossesF o') :
    getOptimalRejection options targetF lossesF = o := by
  obtain ⟨hMem, hLe⟩ := getOptimalRejection_spec ⟨o, ho⟩ targetF lossesF
  exact rejectionKey_injective (le_antisymm (hLe o ho) (hLeast _ hMem))

theorem restKey_union_le {x y d : Finset (Branch R)} (hx : Disjoint x d) (hy : Disjoint y d)
    (hNested : totalSize x = totalSize y → x.sort (· ≤ ·) < y.sort (· ≤ ·) → ¬ x ⊆ y)
    (hLe : restKey cost priorLosses x ≤ restKey cost priorLosses y) :
    restKey cost priorLosses (x ∪ d) ≤ restKey cost priorLosses (y ∪ d) := by
  simp only [restKey, Prod.Lex.toLex_le_toLex] at hLe ⊢
  have hTotal : ∀ (f : R → Nat) {s : Finset (Branch R)}, Disjoint s d → total f (s ∪ d) = total f s + total f d :=
    fun f s hs => Finset.sum_union hs
  have hSize : ∀ {s : Finset (Branch R)}, Disjoint s d → totalSize (s ∪ d) = totalSize s + totalSize d :=
    fun hs => Finset.sum_union hs
  rw [hTotal _ hx, hTotal _ hy, hTotal _ hx, hTotal _ hy, hSize hx, hSize hy]
  obtain hLt | ⟨hEq, hLt | ⟨hEq', hLt | ⟨hEq'', hSort⟩⟩⟩ := hLe
  · exact .inl (by omega)
  · exact .inr ⟨by omega, .inl (by omega)⟩
  · exact .inr ⟨by omega, .inr ⟨by omega, .inl (by omega)⟩⟩
  · refine .inr ⟨by omega, .inr ⟨by omega, .inr ⟨by omega, ?_⟩⟩⟩
    obtain hSame | hLt := hSort.eq_or_lt
    · have hxy : x = y := by rw [← Finset.sort_toFinset x (· ≤ ·), hSame, Finset.sort_toFinset]
      rw [hxy]
    · exact (SortedLex.sort_union_lt hx hLt (hNested hEq'' hLt)).le

theorem emptyBranch_le (b : Branch R) : (⟨∅⟩ : Branch R) ≤ b := by
  change toLex ((∅ : Finset R).card, (∅ : Finset R).sort (· ≤ ·)) ≤ toLex (b.items.card, b.items.sort (· ≤ ·))
  rw [Prod.Lex.toLex_le_toLex, Finset.card_empty, Finset.sort_empty]
  obtain hZero | hPos := Nat.eq_zero_or_pos b.items.card
  · rw [Finset.card_eq_zero.mp hZero, Finset.sort_empty]
    exact .inr ⟨rfl, le_rfl⟩
  · exact .inl hPos

theorem eq_empty_of_nested {x y : Finset (Branch R)} (hSize : totalSize x = totalSize y)
    (hLt : x.sort (· ≤ ·) < y.sort (· ≤ ·)) (hSub : x ⊆ y) : x = ∅ := by
  have hDiff : ∀ b ∈ y \ x, b = ⟨∅⟩ := by
    have hSum : totalSize (y \ x) + totalSize x = totalSize y := Finset.sum_sdiff hSub
    intro b hb
    have hZero : b.items.card ≤ 0 :=
      (Finset.single_le_sum (f := fun b : Branch R => b.items.card) (fun _ _ => Nat.zero_le _) hb).trans
        (by unfold totalSize at hSize hSum; omega)
    exact congrArg Branch.mk (Finset.card_eq_zero.mp (Nat.le_zero.mp hZero))
  have hNe : x ≠ y := by
    rintro rfl
    exact lt_irrefl _ hLt
  obtain ⟨b, hb⟩ := Finset.sdiff_nonempty.mpr fun h => hNe (hSub.antisymm h)
  have hEmpty := hDiff b hb
  have hFresh : (⟨∅⟩ : Branch R) ∉ x := hEmpty ▸ (Finset.mem_sdiff.mp hb).2
  have hInsert : y = insert ⟨∅⟩ x := by
    rw [← Finset.union_sdiff_of_subset hSub, Finset.union_comm, Finset.insert_eq]
    congr 1
    exact Finset.eq_singleton_iff_unique_mem.mpr ⟨hEmpty ▸ hb, hDiff⟩
  rw [hInsert, Finset.sort_insert _ (fun b _ => emptyBranch_le b) hFresh] at hLt
  cases hSort : x.sort (· ≤ ·) with
  | nil => rw [← Finset.sort_toFinset x (· ≤ ·), hSort, List.toFinset_nil]
  | cons c rest =>
    have hc : c ∈ x := (Finset.mem_sort _).mp (hSort ▸ List.mem_cons_self)
    rw [hSort] at hLt
    obtain hBelow | ⟨rfl, -⟩ := List.cons_lt_cons_iff.mp hLt
    · exact absurd (emptyBranch_le c) (not_le.mpr hBelow)
    · exact absurd hc hFresh

end objective

section best

variable {R : Type} [LinearOrder R] {orders : HashOrders R} {mergeableChannels : R → NumberChannelsDiff}
  {m : RelationMap (Branch R)} {V : Finset (Branch R)} {base : Balances} {cost priorLosses : R → Nat}

theorem not_nested_of_candidates (hm : ConflictMapOn m V) {U x y : Finset (Branch R)}
    (hx : x ∈ rejectionCandidates orders mergeableChannels U m base)
    (hy : y ∈ rejectionCandidates orders mergeableChannels U m base) (hSize : totalSize x = totalSize y)
    (hLt : x.sort (· ≤ ·) < y.sort (· ≤ ·)) : ¬ x ⊆ y := by
  intro hSub
  have hEmpty := eq_empty_of_nested hSize hLt hSub
  rw [mem_rejectionCandidates orders mergeableChannels hm] at hx hy
  obtain ⟨S, hS, hxS⟩ := hx
  obtain ⟨S', hS', hyS⟩ := hy
  have hSEmpty : S = ∅ := by
    rw [hEmpty] at hxS
    exact Finset.subset_empty.mp (hxS ▸ Finset.subset_union_left)
  have hS'Empty : S' = ∅ := hS'.eq_empty (hSEmpty ▸ hS.1)
  have hxy : x = y := by rw [hxS, hyS, hSEmpty, hS'Empty]
  rw [hxy] at hLt
  exact lt_irrefl _ hLt

def unionOf (f : List (Branch R) → Finset (Branch R)) : List (List (Branch R)) → Finset (Branch R)
  | [] => ∅
  | g :: groups => f g ∪ unionOf f groups

variable {f : List (Branch R) → Finset (Branch R)}

theorem mem_unionOf {groups : List (List (Branch R))} {b : Branch R} :
    b ∈ unionOf f groups ↔ ∃ g ∈ groups, b ∈ f g := by
  induction groups with
  | nil => simp [unionOf]
  | cons g groups ih => simp [unionOf, ih]

theorem disjoint_unionOf {groups : List (List (Branch R))}
    {s : Finset (Branch R)} (h : ∀ g ∈ groups, Disjoint s (f g)) : Disjoint s (unionOf f groups) := by
  rw [Finset.disjoint_left]
  intro b hb hMem
  obtain ⟨g, hg, hbg⟩ := mem_unionOf.mp hMem
  exact Finset.disjoint_left.mp (h g hg) hb hbg

variable (cost priorLosses) in
theorem restKey_unionOf_le (best other : List (Branch R) → Finset (Branch R)) {groups : List (List (Branch R))}
    (hDisjoint : groups.Pairwise List.Disjoint) (hBest : ∀ g ∈ groups, best g ⊆ g.toFinset)
    (hOther : ∀ g ∈ groups, other g ⊆ g.toFinset)
    (hNested : ∀ g ∈ groups, totalSize (best g) = totalSize (other g) →
      (best g).sort (· ≤ ·) < (other g).sort (· ≤ ·) → ¬ best g ⊆ other g)
    (hLe : ∀ g ∈ groups, restKey cost priorLosses (best g) ≤ restKey cost priorLosses (other g))
    (d : Finset (Branch R)) (hd : ∀ g ∈ groups, Disjoint g.toFinset d) :
    restKey cost priorLosses (unionOf best groups ∪ d) ≤ restKey cost priorLosses (unionOf other groups ∪ d) := by
  induction groups generalizing d with
  | nil => exact le_rfl
  | cons g groups ih =>
    obtain ⟨hApart, hRest⟩ := List.pairwise_cons.mp hDisjoint
    simp only [List.forall_mem_cons] at hBest hOther hNested hLe hd
    have hApart' : ∀ g' ∈ groups, Disjoint g.toFinset g'.toFinset := fun g' hg' =>
      List.disjoint_toFinset_iff_disjoint.mpr (hApart g' hg')
    have hRestOf : ∀ (f : List (Branch R) → Finset (Branch R)), (∀ g' ∈ groups, f g' ⊆ g'.toFinset) →
        Disjoint g.toFinset (unionOf f groups) := fun f hf =>
      disjoint_unionOf fun g' hg' => (hApart' g' hg').mono_right (hf g' hg')
    have hOthers : Disjoint g.toFinset (unionOf other groups ∪ d) :=
      Finset.disjoint_union_right.mpr ⟨hRestOf other hOther.2, hd.1⟩
    calc restKey cost priorLosses (unionOf best (g :: groups) ∪ d)
        = restKey cost priorLosses (unionOf best groups ∪ (best g ∪ d)) := by
          rw [unionOf, Finset.union_comm (best g), Finset.union_assoc]
      _ ≤ restKey cost priorLosses (unionOf other groups ∪ (best g ∪ d)) := by
          refine ih hRest hBest.2 hOther.2 hNested.2 hLe.2 _ fun g' hg' => ?_
          exact Finset.disjoint_union_right.mpr ⟨(hApart' g' hg').symm.mono_right hBest.1, hd.2 g' hg'⟩
      _ = restKey cost priorLosses (best g ∪ (unionOf other groups ∪ d)) := by
          rw [Finset.union_left_comm]
      _ ≤ restKey cost priorLosses (other g ∪ (unionOf other groups ∪ d)) :=
          restKey_union_le (hOthers.mono_left hBest.1) (hOthers.mono_left hOther.1) hNested.1 hLe.1
      _ = restKey cost priorLosses (unionOf other (g :: groups) ∪ d) := by
          rw [unionOf, Finset.union_assoc]

omit [LinearOrder R] in
variable (priorLosses) in
theorem leastMaxLosses_spec {options : Finset (Finset (Branch R))} (hNe : options.Nonempty) :
    (∃ o ∈ options, optionMaxLosses priorLosses o = leastMaxLosses priorLosses options) ∧
      ∀ o ∈ options, leastMaxLosses priorLosses options ≤ optionMaxLosses priorLosses o := by
  obtain ⟨least, hLeast⟩ := Finset.min_of_nonempty (hNe.image (optionMaxLosses priorLosses))
  rw [leastMaxLosses, hLeast]
  constructor
  · exact Finset.mem_image.mp (Finset.mem_of_min hLeast)
  · exact fun o ho => Finset.min_le_of_eq (Finset.mem_image_of_mem _ ho) hLeast

theorem foldl_max_le {l : List Nat} {n : Nat} (h : ∀ a ∈ l, a ≤ n) : l.foldl max 0 ≤ n := by
  rw [List.foldl_eq_foldr]
  exact List.max_le_of_forall_le l n h

theorem le_foldl_max {l : List Nat} {a : Nat} (ha : a ∈ l) : a ≤ l.foldl max 0 := by
  rw [List.foldl_eq_foldr]
  exact List.le_max_of_le ha le_rfl

omit [LinearOrder R] in
theorem optionMaxLosses_mono {s t : Finset (Branch R)} (h : s ⊆ t) :
    optionMaxLosses priorLosses s ≤ optionMaxLosses priorLosses t :=
  Finset.sup_mono h

variable (orders mergeableChannels m base cost priorLosses) in
def bestWithin (maxLosses : Nat) (g : List (Branch R)) : Finset (Branch R) :=
  getOptimalRejection ((groupCandidates orders mergeableChannels m base g).filter fun option =>
    optionMaxLosses priorLosses option ≤ maxLosses) (branchCost cost)
    fun branch => ⟨0, (branchLosses priorLosses branch).sum⟩

variable (orders mergeableChannels base cost priorLosses) in
theorem bestWithin_spec {g : List (Branch R)} (hm : ConflictMapOn (groupMap m g) g.toFinset) {maxLosses : Nat}
    (hLeast : leastMaxLosses priorLosses (groupCandidates orders mergeableChannels m base g) ≤ maxLosses) :
    bestWithin orders mergeableChannels m base cost priorLosses maxLosses g ∈
        groupCandidates orders mergeableChannels m base g ∧
      optionMaxLosses priorLosses (bestWithin orders mergeableChannels m base cost priorLosses maxLosses g) ≤
        maxLosses ∧
      ∀ o ∈ groupCandidates orders mergeableChannels m base g, optionMaxLosses priorLosses o ≤ maxLosses →
        rejectionKey (branchCost cost) (fun b => ⟨0, (branchLosses priorLosses b).sum⟩)
          (bestWithin orders mergeableChannels m base cost priorLosses maxLosses g) ≤
        rejectionKey (branchCost cost) (fun b => ⟨0, (branchLosses priorLosses b).sum⟩) o := by
  obtain ⟨⟨o, ho, hEq⟩, -⟩ := leastMaxLosses_spec priorLosses
    (rejectionCandidates_nonempty orders mergeableChannels hm base)
  have hNe : ((groupCandidates orders mergeableChannels m base g).filter fun option =>
      optionMaxLosses priorLosses option ≤ maxLosses).Nonempty :=
    ⟨o, Finset.mem_filter.mpr ⟨ho, hEq.trans_le hLeast⟩⟩
  obtain ⟨hMem, hLe⟩ := getOptimalRejection_spec hNe (branchCost cost)
    fun branch => ⟨0, (branchLosses priorLosses branch).sum⟩
  obtain ⟨hCand, hMax⟩ := Finset.mem_filter.mp hMem
  exact ⟨hCand, hMax, fun o ho hoMax => hLe o (Finset.mem_filter.mpr ⟨ho, hoMax⟩)⟩

section unionOf

variable {groups : List (List (Branch R))} (h : Grouping mergeableChannels m V groups) (hm : ConflictMapOn m V)

include h

variable {g : List (Branch R)}

theorem Grouping.toFinset_subset (hg : g ∈ groups) : g.toFinset ⊆ V := fun b hb =>
  (h.cover b).mpr ⟨g, hg, List.mem_toFinset.mp hb⟩

variable {f : List (Branch R) → Finset (Branch R)}

theorem Grouping.filter_unionOf (hf : ∀ g ∈ groups, f g ⊆ g.toFinset)
    (hg : g ∈ groups) : (unionOf f groups).filter (· ∈ g) = f g := by
  ext b
  rw [Finset.mem_filter, mem_unionOf]
  constructor
  · rintro ⟨⟨g', hg', hb⟩, hbg⟩
    rwa [h.group_unique hg hg' hbg (List.mem_toFinset.mp (hf g' hg' hb))]
  · intro hb
    exact ⟨⟨g, hg, hb⟩, List.mem_toFinset.mp (hf g hg hb)⟩

theorem Grouping.unionOf_filter {o : Finset (Branch R)} (ho : o ⊆ V) :
    unionOf (fun g => o.filter (· ∈ g)) groups = o := by
  ext b
  rw [mem_unionOf]
  constructor
  · rintro ⟨g, -, hb⟩
    exact (Finset.mem_filter.mp hb).1
  · intro hb
    obtain ⟨g, hg, hbg⟩ := (h.cover b).mp (ho hb)
    exact ⟨g, hg, Finset.mem_filter.mpr ⟨hb, hbg⟩⟩

include hm

theorem Grouping.subset_of_mem_groupCandidates (hg : g ∈ groups) {o : Finset (Branch R)}
    (ho : o ∈ groupCandidates orders mergeableChannels m base g) : o ⊆ g.toFinset :=
  subset_of_mem_rejectionCandidates orders mergeableChannels (h.conflictMapOn hm hg) ho

theorem Grouping.unionOf_mem_rejectionCandidates
    (hf : ∀ g ∈ groups, f g ∈ groupCandidates orders mergeableChannels m base g) :
    unionOf f groups ∈ rejectionCandidates orders mergeableChannels V m base := by
  have hSubset : ∀ g ∈ groups, f g ⊆ g.toFinset := fun g hg => h.subset_of_mem_groupCandidates hm hg (hf g hg)
  refine (h.mem_rejectionCandidates_iff hm base).mpr ⟨?_, fun g hg => ?_⟩
  · intro b hb
    obtain ⟨g, hg, hbg⟩ := mem_unionOf.mp hb
    exact h.toFinset_subset hg (hSubset g hg hbg)
  · rw [h.filter_unionOf hSubset hg]
    exact hf g hg

end unionOf

variable (orders mergeableChannels m base priorLosses) in
def highestLeast (groups : List (List (Branch R))) : Nat :=
  ((groups.map (groupCandidates orders mergeableChannels m base)).map (leastMaxLosses priorLosses)).foldl max 0

variable (orders mergeableChannels m base priorLosses) in
theorem le_highestLeast {groups : List (List (Branch R))} {g : List (Branch R)} (hg : g ∈ groups) :
    leastMaxLosses priorLosses (groupCandidates orders mergeableChannels m base g) ≤
      highestLeast orders mergeableChannels m base priorLosses groups :=
  le_foldl_max (List.mem_map_of_mem (List.mem_map_of_mem hg))

theorem highestLeast_le {groups : List (List (Branch R))} {o : Finset (Branch R)}
    (ho : ∀ g ∈ groups, o.filter (· ∈ g) ∈ groupCandidates orders mergeableChannels m base g) :
    highestLeast orders mergeableChannels m base priorLosses groups ≤ optionMaxLosses priorLosses o := by
  refine foldl_max_le fun a ha => ?_
  simp only [List.map_map, List.mem_map, Function.comp_apply] at ha
  obtain ⟨g, hg, rfl⟩ := ha
  exact ((leastMaxLosses_spec priorLosses ⟨_, ho g hg⟩).2 _ (ho g hg)).trans
    (optionMaxLosses_mono (Finset.filter_subset _ o))

theorem optimal_eq_unionOf {groups : List (List (Branch R))} (h : Grouping mergeableChannels m V groups)
    (hm : ConflictMapOn m V) (hCost : total cost V < 2 ^ 64) (hLosses : total priorLosses V < 2 ^ 64) :
    getOptimalRejection (rejectionCandidates orders mergeableChannels V m base) (branchCost cost)
        (branchLosses priorLosses) =
      unionOf (bestWithin orders mergeableChannels m base cost priorLosses
        (highestLeast orders mergeableChannels m base priorLosses groups)) groups := by
  have hSmall : ∀ {s : Finset (Branch R)}, s ⊆ V → total cost s < 2 ^ 64 ∧ total priorLosses s < 2 ^ 64 := fun hs =>
    ⟨(total_mono cost hs).trans_lt hCost, (total_mono priorLosses hs).trans_lt hLosses⟩
  have hBest := fun g (hg : g ∈ groups) => bestWithin_spec orders mergeableChannels base cost priorLosses
    (h.conflictMapOn hm hg) (le_highestLeast orders mergeableChannels m base priorLosses hg)
  have hSubset : ∀ g ∈ groups, ∀ o ∈ groupCandidates orders mergeableChannels m base g, o ⊆ g.toFinset :=
    fun g hg o ho => h.subset_of_mem_groupCandidates hm hg ho
  generalize bestWithin orders mergeableChannels m base cost priorLosses
    (highestLeast orders mergeableChannels m base priorLosses groups) = best at hBest
  have hUnion := h.unionOf_mem_rejectionCandidates hm fun g hg => (hBest g hg).1
  refine getOptimalRejection_eq hUnion fun o ho => ?_
  obtain ⟨hoSub, hoParts⟩ := (h.mem_rejectionCandidates_iff hm base).mp ho
  have hMaxLe : optionMaxLosses priorLosses (unionOf best groups) ≤
      highestLeast orders mergeableChannels m base priorLosses groups := by
    refine Finset.sup_le fun b hb => ?_
    obtain ⟨g, hg, hbg⟩ := mem_unionOf.mp hb
    exact (Finset.le_sup (f := fun b => (branchLosses priorLosses b).max) hbg).trans (hBest g hg).2.1
  have hU := hSmall (subset_of_mem_rejectionCandidates orders mergeableChannels hm hUnion)
  have hO := hSmall hoSub
  rw [rejectionKey_whole hU.1 hU.2, rejectionKey_whole hO.1 hO.2, Prod.Lex.toLex_le_toLex]
  obtain hLt | hEq := (hMaxLe.trans (highestLeast_le hoParts)).lt_or_eq
  · exact .inl hLt
  · refine .inr ⟨hEq, ?_⟩
    have hRest : ∀ g ∈ groups, restKey cost priorLosses (best g) ≤ restKey cost priorLosses (o.filter (· ∈ g)) := by
      intro g hg
      have hKey := (hBest g hg).2.2 _ (hoParts g hg) ((optionMaxLosses_mono (Finset.filter_subset _ o)).trans
        (hEq ▸ hMaxLe))
      have hb := hSmall ((hSubset g hg _ (hBest g hg).1).trans (h.toFinset_subset hg))
      have ho' := hSmall ((hSubset g hg _ (hoParts g hg)).trans (h.toFinset_subset hg))
      rw [rejectionKey_group hb.1 hb.2, rejectionKey_group ho'.1 ho'.2, Prod.Lex.toLex_le_toLex] at hKey
      exact hKey.resolve_left (lt_irrefl _) |>.2
    have hLe := restKey_unionOf_le cost priorLosses best (fun g => o.filter (· ∈ g)) h.disjoint
      (fun g hg => hSubset g hg _ (hBest g hg).1) (fun g hg => hSubset g hg _ (hoParts g hg))
      (fun g hg => not_nested_of_candidates (h.conflictMapOn hm hg) (hBest g hg).1 (hoParts g hg))
      hRest ∅ fun g _ => Finset.disjoint_empty_right _
    rwa [Finset.union_empty, Finset.union_empty, h.unionOf_filter hoSub] at hLe

end best

section select

variable {R : Type} [LinearOrder R]

theorem foldl_union_eq_unionOf (f : List (Branch R) → Finset (Branch R)) (groups : List (List (Branch R)))
    (s : Finset (Branch R)) : groups.foldl (fun acc g => acc ∪ f g) s = s ∪ unionOf f groups := by
  induction groups generalizing s with
  | nil => rw [unionOf, Finset.union_empty, List.foldl_nil]
  | cons g groups ih => rw [List.foldl_cons, ih, unionOf, Finset.union_assoc]

section

variable (orders : HashOrders R) {branches : Finset (Branch R)} {conflictMap : RelationMap (Branch R)}
  (base : Balances) (mergeableChannels : R → NumberChannelsDiff) (cost priorLosses : R → Nat)

theorem selectRejection_eq_unionOf :
    selectRejection orders branches conflictMap base mergeableChannels cost priorLosses ∅ =
      unionOf (bestWithin orders mergeableChannels conflictMap base cost priorLosses
        (highestLeast orders mergeableChannels conflictMap base priorLosses
          (branchGroups orders mergeableChannels conflictMap (orders.branches.iter branches))))
        (branchGroups orders mergeableChannels conflictMap (orders.branches.iter branches)) := by
  have hOptions : groupOptions orders branches conflictMap base mergeableChannels =
      (branchGroups orders mergeableChannels conflictMap (orders.branches.iter branches)).map
        (groupCandidates orders mergeableChannels conflictMap base) := by
    rw [groupOptions, branchGroups, List.map_map]
    rfl
  rw [selectRejection, if_neg (not_not.mpr rfl)]
  dsimp only
  rw [hOptions, List.foldl_map]
  exact (foldl_union_eq_unionOf _ _ ∅).trans (Finset.empty_union _)

theorem selectRejection_mem_rejectionCandidates (hMap : ConflictMapOn conflictMap branches) (pinned : Finset R) :
    selectRejection orders branches conflictMap base mergeableChannels cost priorLosses pinned ∈
      rejectionCandidates orders mergeableChannels branches conflictMap base := by
  obtain rfl | hPinned := eq_or_ne pinned ∅
  · rw [selectRejection_eq_unionOf]
    have hGrouping := grouping_branchGroups orders mergeableChannels hMap
    exact hGrouping.unionOf_mem_rejectionCandidates hMap fun g hg =>
      (bestWithin_spec _ _ _ _ _ (hGrouping.conflictMapOn hMap hg) (le_highestLeast _ _ _ _ _ hg)).1
  · rw [selectRejection, if_pos hPinned, selectRejectionExhaustive]
    have hCandidates := rejectionCandidates_nonempty orders mergeableChannels hMap base
    have hSub : preferPinnedDisjoint (rejectionCandidates orders mergeableChannels branches conflictMap base) pinned ⊆
        rejectionCandidates orders mergeableChannels branches conflictMap base := by
      rw [preferPinnedDisjoint, if_neg hPinned]
      dsimp only
      split_ifs
      · exact subset_rfl
      · exact Finset.filter_subset _ _
    have hNe : (preferPinnedDisjoint (rejectionCandidates orders mergeableChannels branches conflictMap base)
        pinned).Nonempty := by
      rw [preferPinnedDisjoint, if_neg hPinned]
      dsimp only
      split_ifs with hAdmissible
      · exact hCandidates
      · exact Finset.nonempty_iff_ne_empty.mpr fun hEmpty => hAdmissible ⟨hEmpty, hCandidates.ne_empty⟩
    exact hSub (getOptimalRejection_spec hNe _ _).1

end

/-- Deciding group by group rejects what deciding over the whole graph does. -/
theorem selectRejection_eq_exhaustive (orders : HashOrders R) (branches : Finset (Branch R))
    (conflictMap : RelationMap (Branch R)) (base : Balances) (mergeableChannels : R → NumberChannelsDiff)
    (cost priorLosses : R → Nat) (hMap : ConflictMapOn conflictMap branches) (hCost : total cost branches < 2 ^ 64)
    (hLosses : total priorLosses branches < 2 ^ 64) :
    selectRejection orders branches conflictMap base mergeableChannels cost priorLosses ∅ =
      selectRejectionExhaustive orders branches conflictMap base mergeableChannels cost priorLosses ∅ := by
  rw [selectRejection_eq_unionOf, selectRejectionExhaustive, preferPinnedDisjoint, if_pos rfl,
    optimal_eq_unionOf (grouping_branchGroups orders mergeableChannels hMap) hMap hCost hLosses]

theorem conflictMapOn_relationMap {branches : List (Branch R)} (hNodup : branches.Nodup)
    {pairs : List (Nat × Nat)} (hNe : ∀ pair ∈ pairs, pair.1 ≠ pair.2) :
    ConflictMapOn (relationMap branches pairs) branches.toFinset := by
  obtain ⟨hKeys, hRelated⟩ := relationMap_spec branches pairs
  constructor
  · exact fun b hb => List.mem_toFinset.mpr ((hKeys b).mp hb)
  · intro a b hab
    obtain ⟨i, j, hi, hj, hLinked⟩ := (hRelated a b).mp hab
    exact (hRelated b a).mpr ⟨j, i, hj, hi, hLinked.symm⟩
  · intro a haa
    obtain ⟨i, j, hi, hj, hLinked⟩ := (hRelated a a).mp haa
    have hij : i = j := (List.getElem?_inj (List.getElem?_eq_some_iff.mp hi).1 hNodup).mp (hi.trans hj.symm)
    subst hij
    exact hLinked.elim (fun h => hNe _ h rfl) fun h => hNe _ h rfl

end select

/-- Two of three branches conflict, and the third one takes a channel below zero. -/
theorem selectRejection_conflict_and_overdraft :
    let branches : List (Branch Nat) := [⟨{1}⟩, ⟨{2}⟩, ⟨{3}⟩]
    selectRejection ⟨.ascending Nat, .ascending (Branch Nat)⟩ branches.toFinset (relationMap branches [(0, 1)])
        (fun _ => 5) (fun r => if r = 3 then AList.singleton [7] (-6, .integerAdd) else ∅) id (fun _ => 0) ∅ =
      selectRejectionExhaustive ⟨.ascending Nat, .ascending (Branch Nat)⟩ branches.toFinset
        (relationMap branches [(0, 1)]) (fun _ => 5)
        (fun r => if r = 3 then AList.singleton [7] (-6, .integerAdd) else ∅) id (fun _ => 0) ∅ :=
  selectRejection_eq_exhaustive _ _ _ _ _ _ _ (conflictMapOn_relationMap (by decide) (by decide)) (by decide)
    (by decide)

end F1r3Node.Merging
