import F1r3Node.Merging.SelectionOrder

/-! # Resolving conflicts

Every item is kept or rejected, the kept branches do not conflict, and folding them in canonical order keeps the
number channels in range.
-/

namespace F1r3Node.Merging

open Shared Space

section fold

variable {R : Type} [LinearOrder R] {orders : HashOrders R} {mergeableChannels : R → NumberChannelsDiff}

theorem mem_foldl_foldRejectionStep (branches : List (Branch R)) (st : Balances × Finset (Branch R)) (b : Branch R) :
    (b ∈ st.2 → b ∈ (branches.foldl (foldRejectionStep orders mergeableChannels) st).2) ∧
      (b ∈ (branches.foldl (foldRejectionStep orders mergeableChannels) st).2 → b ∈ st.2 ∨ b ∈ branches) := by
  induction branches generalizing st with
  | nil => exact ⟨id, .inl⟩
  | cons c branches ih =>
    obtain ⟨hKeep, hFrom⟩ := ih (foldRejectionStep orders mergeableChannels st c)
    have hStep : (b ∈ st.2 → b ∈ (foldRejectionStep orders mergeableChannels st c).2) ∧
        (b ∈ (foldRejectionStep orders mergeableChannels st c).2 → b ∈ st.2 ∨ b = c) := by
      unfold foldRejectionStep
      split
      · exact ⟨id, .inl⟩
      · exact ⟨Finset.mem_insert_of_mem, fun h => (Finset.mem_insert.mp h).symm⟩
    refine ⟨fun h => hKeep (hStep.1 h), fun h => ?_⟩
    rw [List.mem_cons, ← or_assoc]
    exact (hFrom h).imp_left hStep.2

theorem foldlM_kept {branches : List (Branch R)} (hNodup : branches.Nodup) {st : Balances × Finset (Branch R)}
    (hFresh : ∀ b ∈ branches, b ∉ st.2) :
    (branches.filter (· ∉ (branches.foldl (foldRejectionStep orders mergeableChannels) st).2)).foldlM
        (fun ba b => calMergedResult orders mergeableChannels b ba) st.1 =
      some (branches.foldl (foldRejectionStep orders mergeableChannels) st).1 := by
  induction branches generalizing st with
  | nil => rfl
  | cons b branches ih =>
    obtain ⟨hOut, hRest⟩ := List.nodup_cons.mp hNodup
    obtain ⟨hbFresh, hRestFresh⟩ := List.forall_mem_cons.mp hFresh
    rw [List.foldl_cons]
    cases hMerged : calMergedResult orders mergeableChannels b st.1 with
    | some ba =>
      have hStep : foldRejectionStep orders mergeableChannels st b = (ba, st.2) := by rw [foldRejectionStep, hMerged]
      rw [hStep]
      have hKept : b ∉ (branches.foldl (foldRejectionStep orders mergeableChannels) (ba, st.2)).2 := fun hMem =>
        ((mem_foldl_foldRejectionStep branches (ba, st.2) b).2 hMem).elim hbFresh hOut
      rw [List.filter_cons_of_pos (by simpa using hKept), List.foldlM_cons, hMerged]
      exact @ih hRest (ba, st.2) hRestFresh
    | none =>
      have hStep : foldRejectionStep orders mergeableChannels st b = (st.1, insert b st.2) := by
        rw [foldRejectionStep, hMerged]
      rw [hStep]
      have hRejected : b ∈ (branches.foldl (foldRejectionStep orders mergeableChannels) (st.1, insert b st.2)).2 :=
        (mem_foldl_foldRejectionStep branches _ b).1 (Finset.mem_insert_self b st.2)
      rw [List.filter_cons_of_neg (by simpa using hRejected)]
      refine @ih hRest (st.1, insert b st.2) fun c hc hMem => ?_
      obtain rfl | hMem := Finset.mem_insert.mp hMem
      · exact hOut hc
      · exact hRestFresh c hc hMem

omit [LinearOrder R] in
theorem branchChange_eq_zero {branch : Branch R} {k : Bytes} (h : ¬ Touches mergeableChannels branch k) :
    branchChange mergeableChannels branch k = 0 := by
  refine Finset.sum_eq_zero fun r hr => ?_
  have hNone : (mergeableChannels r).lookup k = none := AList.lookup_eq_none.mpr fun hk => h ⟨r, hr, hk⟩
  rw [channelDiff, hNone]
  rfl

def InRange (value : Int) : Prop := 0 ≤ value ∧ value < 2 ^ integerAddBits

omit [LinearOrder R] in
theorem foldlM_calMergedResult_spec {branches : List (Branch R)} {ba ba' : Balances} {k : Bytes}
    (h : branches.foldlM (fun ba b => calMergedResult orders mergeableChannels b ba) ba = some ba')
    (hAdds : ∀ b ∈ branches, ∀ r ∈ b.items, AddsAt (mergeableChannels r) k) :
    ba' k = ba k + (branches.map fun b => branchChange mergeableChannels b k).sum ∧
      (InRange (ba k) ∨ (∃ b ∈ branches, Touches mergeableChannels b k) → InRange (ba' k)) := by
  induction branches generalizing ba with
  | nil =>
    rw [List.foldlM_nil] at h
    obtain rfl := Option.some.inj h
    simp
  | cons b branches ih =>
    rw [List.foldlM_cons] at h
    obtain ⟨next, hNext, hFold⟩ := Option.bind_eq_some_iff.mp h
    obtain ⟨hHead, hTail⟩ := List.forall_mem_cons.mp hAdds
    obtain ⟨hChange, hTouched⟩ := calMergedResult_spec hNext hHead
    obtain ⟨hSum, hRange⟩ := ih hFold hTail
    refine ⟨?_, fun hStart => hRange ?_⟩
    · rw [hSum, hChange, List.map_cons, List.sum_cons, add_assoc]
    · by_cases hTouch : Touches mergeableChannels b k
      · exact .inl (hTouched hTouch)
      · rw [hChange, branchChange_eq_zero hTouch, add_zero]
        refine hStart.imp_right fun ⟨c, hc, hTouchC⟩ => ⟨c, ?_, hTouchC⟩
        exact (List.mem_cons.mp hc).resolve_left fun hEq => hTouch (hEq ▸ hTouchC)

theorem exists_foldlM_of_isPrefix {α σ : Type} {step : σ → α → Option σ} {s s' : σ} {l p : List α}
    (h : l.foldlM step s = some s') (hp : p <+: l) : ∃ s'', p.foldlM step s = some s'' := by
  obtain ⟨rest, rfl⟩ := hp
  rw [List.foldlM_append] at h
  obtain ⟨s'', hs'', -⟩ := Option.bind_eq_some_iff.mp h
  exact ⟨s'', hs''⟩

end fold

section resolves

variable {R : Type} [LinearOrder R]

def canonicalOrder (toMerge : List (Branch R)) : List (Branch R) := toMerge.insertionSort (· ≤ ·)

theorem canonicalOrder_eq_sort {toMerge : List (Branch R)} {s : Finset (Branch R)}
    (h : (toMerge : Multiset (Branch R)) = s.val) : canonicalOrder toMerge = s.sort (· ≤ ·) := by
  refine List.Perm.eq_of_pairwise (fun a b _ _ hab hba => le_antisymm hab hba) (List.pairwise_insertionSort _ _)
    (Finset.pairwise_sort _ _) ?_
  refine (List.perm_insertionSort _ _).trans (Multiset.coe_eq_coe.mp ?_)
  rw [h, Finset.sort_eq]

structure Partitions (branches : Finset (Branch R)) (items : Finset R) : Prop where
  cover : ∀ item, item ∈ items ↔ ∃ branch ∈ branches, item ∈ branch.items
  disjoint : ∀ b ∈ branches, ∀ b' ∈ branches, ∀ item ∈ b.items, item ∈ b'.items → b = b'

structure Resolves (actualSeq : List R) (mergeableChannels : R → NumberChannelsDiff)
    (conflictMap : RelationMap (Branch R)) (base : Balances) (res : ResolvedConflicts R) : Prop where
  exactlyOne : ∀ item ∈ actualSeq, Xor (∃ branch ∈ res.toMerge, item ∈ branch.items) (item ∈ res.rejected)
  conflictFree : ∀ a ∈ res.toMerge, ∀ b ∈ res.toMerge, ¬ conflictMap.Related a b
  inRange : ∀ k, (∀ b ∈ res.toMerge, ∀ r ∈ b.items, AddsAt (mergeableChannels r) k) →
    ∀ folded, folded <+: canonicalOrder res.toMerge →
      (InRange (base k) ∨ ∃ b ∈ folded, Touches mergeableChannels b k) →
        InRange (base k + (folded.map fun b => branchChange mergeableChannels b k).sum)

/-- The kept branches come in the order of iteration, and whoever reads them sorts them. -/
def SameResolution : Except HistoryError (ResolvedConflicts R) → Except HistoryError (ResolvedConflicts R) → Prop
  | .ok res, .ok res' => res.toMerge.Perm res'.toMerge ∧ res.rejected = res'.rejected
  | .error e, .error e' => e = e'
  | _, _ => False

variable (actualSeq lateSeq : List R) (depends : R → R → Bool) (cost priorLosses : R → Nat)
  (mergeableChannels : R → NumberChannelsDiff)
  (getData : Bytes → Except HistoryError (List (Datum ListParWithRandom)))
  (computeBranches : Finset R → Finset (Branch R))
  (computeConflictMap : Finset (Branch R) → Except HistoryError (RelationMap (Branch R))) (pinned : Finset R)

/-- The result keeps its promises in every order of iteration, and is the same in each. -/
def ResolvesInEveryOrder : Prop :=
  (∀ orders res, resolveConflicts orders actualSeq lateSeq depends cost priorLosses mergeableChannels getData
      computeBranches computeConflictMap pinned = .ok res →
    ∃ conflictMap base, computeConflictMap (computeBranches (mergeSet actualSeq lateSeq depends)) = .ok conflictMap ∧
      baseMergeableChRes mergeableChannels getData (computeBranches (mergeSet actualSeq lateSeq depends)) = .ok base ∧
      Resolves actualSeq mergeableChannels conflictMap base res) ∧
  ∀ orders orders', SameResolution
    (resolveConflicts orders actualSeq lateSeq depends cost priorLosses mergeableChannels getData
      computeBranches computeConflictMap pinned)
    (resolveConflicts orders' actualSeq lateSeq depends cost priorLosses mergeableChannels getData
      computeBranches computeConflictMap pinned)

variable {actualSeq lateSeq depends cost priorLosses mergeableChannels getData computeBranches computeConflictMap
  pinned}

theorem resolveConflicts_eq_ok {orders : HashOrders R} {conflictMap : RelationMap (Branch R)} {base : Balances}
    (hMap : computeConflictMap (computeBranches (mergeSet actualSeq lateSeq depends)) = .ok conflictMap)
    (hBase : baseMergeableChRes mergeableChannels getData (computeBranches (mergeSet actualSeq lateSeq depends)) =
      .ok base) :
    resolveConflicts orders actualSeq lateSeq depends cost priorLosses mergeableChannels getData computeBranches
        computeConflictMap pinned =
      let branches := computeBranches (mergeSet actualSeq lateSeq depends)
      let optimal := selectRejection orders branches conflictMap base mergeableChannels cost priorLosses pinned
      .ok ⟨(orders.branches.iter branches).filter (· ∉ optimal),
        lateSeq.toFinset ∪ rejectedAsDependents actualSeq lateSeq depends ∪ optimal.biUnion Branch.items⟩ := by
  simp only [resolveConflicts, hMap, hBase, bind, Except.bind, pure, Except.pure]

theorem exists_of_resolveConflicts_ok {orders : HashOrders R} {res : ResolvedConflicts R}
    (h : resolveConflicts orders actualSeq lateSeq depends cost priorLosses mergeableChannels getData computeBranches
      computeConflictMap pinned = .ok res) :
    ∃ conflictMap base, computeConflictMap (computeBranches (mergeSet actualSeq lateSeq depends)) = .ok conflictMap ∧
      baseMergeableChRes mergeableChannels getData (computeBranches (mergeSet actualSeq lateSeq depends)) =
        .ok base := by
  cases hMap : computeConflictMap (computeBranches (mergeSet actualSeq lateSeq depends)) with
  | error e =>
    simp only [resolveConflicts, hMap, bind, Except.bind] at h
    cases h
  | ok conflictMap =>
    cases hBase : baseMergeableChRes mergeableChannels getData
        (computeBranches (mergeSet actualSeq lateSeq depends)) with
    | error e =>
      simp only [resolveConflicts, hMap, hBase, bind, Except.bind] at h
      cases h
    | ok base => exact ⟨conflictMap, base, rfl, rfl⟩

end resolves

section candidates

variable {R : Type} [LinearOrder R] {orders : HashOrders R} {mergeableChannels : R → NumberChannelsDiff}
  {m : RelationMap (Branch R)} {V o : Finset (Branch R)} {base : Balances}

theorem not_related_of_not_mem (hm : ConflictMapOn m V) (ho : o ∈ rejectionCandidates orders mergeableChannels V m base)
    {a b : Branch R} (ha : a ∉ o) (hb : b ∉ o) : ¬ m.Related a b := by
  obtain ⟨S, hS, rfl⟩ := (mem_rejectionCandidates orders mergeableChannels hm V base).mp ho
  intro hab
  rw [Finset.mem_union, not_or] at ha hb
  exact hb.1 (hS.1 a ha.1 (RelationMap.mem_neighbours.mpr hab))

theorem exists_foldlM_of_mem_rejectionCandidates (hm : ConflictMapOn m V)
    (ho : o ∈ rejectionCandidates orders mergeableChannels V m base) :
    ∃ ba, ((V \ o).sort (· ≤ ·)).foldlM (fun ba b => calMergedResult orders mergeableChannels b ba) base = some ba := by
  obtain ⟨S, -, rfl⟩ := (mem_rejectionCandidates orders mergeableChannels hm V base).mp ho
  have hSplit : V \ (S ∪ foldRejection orders mergeableChannels base (V \ S)) =
      (V \ S).filter (· ∉ foldRejection orders mergeableChannels base (V \ S)) := by
    ext b
    simp only [Finset.mem_sdiff, Finset.mem_union, not_or, Finset.mem_filter, and_assoc]
  rw [hSplit, sort_filter]
  exact ⟨_, @foldlM_kept R _ orders mergeableChannels _ (Finset.sort_nodup _ _) (base, ∅)
    fun b _ => Finset.notMem_empty b⟩

end candidates

section promises

variable {R : Type} [LinearOrder R] {actualSeq lateSeq : List R} {depends : R → R → Bool}
  {mergeableChannels : R → NumberChannelsDiff} {conflictMap : RelationMap (Branch R)} {base : Balances}
  {branches optimal : Finset (Branch R)} {orders : HashOrders R}

theorem coe_filter_iter (V o : Finset (Branch R)) :
    (((orders.branches.iter V).filter (· ∉ o) : List (Branch R)) : Multiset (Branch R)) = (V \ o).val := by
  rw [← Finset.filter_notMem_eq_sdiff, Finset.filter_val, ← orders.branches.iter_val, Multiset.filter_coe]

theorem mem_rejectedAsDependents {item : R} : item ∈ rejectedAsDependents actualSeq lateSeq depends ↔
    item ∈ actualSeq ∧ item ∉ mergeSet actualSeq lateSeq depends := by
  rw [rejectedAsDependents, mergeSet, Finset.mem_filter, Finset.mem_filter, List.mem_toFinset, not_and, not_not]
  exact and_congr_right fun hItem => ⟨fun h _ => h, fun h => h hItem⟩

theorem resolves_of_mem_rejectionCandidates (hPartition : Partitions branches (mergeSet actualSeq lateSeq depends))
    (hMap : ConflictMapOn conflictMap branches) (hDisjoint : ∀ item ∈ actualSeq, item ∉ lateSeq)
    (hOptimal : optimal ∈ rejectionCandidates orders mergeableChannels branches conflictMap base) :
    Resolves actualSeq mergeableChannels conflictMap base ⟨(orders.branches.iter branches).filter (· ∉ optimal),
      lateSeq.toFinset ∪ rejectedAsDependents actualSeq lateSeq depends ∪ optimal.biUnion Branch.items⟩ := by
  have hKept : ∀ b, b ∈ (orders.branches.iter branches).filter (· ∉ optimal) ↔ b ∈ branches ∧ b ∉ optimal := by
    intro b
    rw [List.mem_filter, orders.branches.mem_iter, decide_eq_true_eq]
  have hSub := subset_of_mem_rejectionCandidates orders mergeableChannels hMap hOptimal
  constructor
  · intro item hItem
    simp only [hKept, Finset.mem_union, List.mem_toFinset, Finset.mem_biUnion, mem_rejectedAsDependents]
    by_cases hMerge : item ∈ mergeSet actualSeq lateSeq depends
    · obtain ⟨b, hb, hIn⟩ := (hPartition.cover item).mp hMerge
      by_cases hbo : b ∈ optimal
      · refine .inr ⟨.inr ⟨b, hbo, hIn⟩, ?_⟩
        rintro ⟨b', ⟨hb', hbo'⟩, hIn'⟩
        exact hbo' (hPartition.disjoint b hb b' hb' item hIn hIn' ▸ hbo)
      · refine .inl ⟨⟨b, ⟨hb, hbo⟩, hIn⟩, ?_⟩
        rintro ((hLate | ⟨-, hOut⟩) | ⟨b', hbo', hIn'⟩)
        · exact hDisjoint item hItem hLate
        · exact hOut hMerge
        · exact hbo (hPartition.disjoint b hb b' (hSub hbo') item hIn hIn' ▸ hbo')
    · refine .inr ⟨.inl (.inr ⟨hItem, hMerge⟩), ?_⟩
      rintro ⟨b, ⟨hb, -⟩, hIn⟩
      exact hMerge ((hPartition.cover item).mpr ⟨b, hb, hIn⟩)
  · intro a ha b hb
    exact not_related_of_not_mem hMap hOptimal ((hKept a).mp ha).2 ((hKept b).mp hb).2
  · intro k hAdds folded hPrefix hStart
    obtain ⟨ba, hFold⟩ := exists_foldlM_of_mem_rejectionCandidates hMap hOptimal
    rw [canonicalOrder_eq_sort (coe_filter_iter branches optimal)] at hPrefix
    obtain ⟨ba', hFold'⟩ := exists_foldlM_of_isPrefix hFold hPrefix
    have hFolded : ∀ b ∈ folded, ∀ r ∈ b.items, AddsAt (mergeableChannels r) k := fun b hb => by
      have hMem := (Finset.mem_sort _).mp (hPrefix.subset hb)
      exact hAdds b ((hKept b).mpr (Finset.mem_sdiff.mp hMem))
    obtain ⟨hSum, hRange⟩ := foldlM_calMergedResult_spec hFold' hFolded
    rw [← hSum]
    exact hRange hStart

/-- Disjoint inputs whose branches are combined alike in every order are resolved soundly, and alike
in every order of iteration. -/
theorem resolvesInEveryOrder_of_orderFree (actualSeq lateSeq : List R) (depends : R → R → Bool)
    (cost priorLosses : R → Nat) (mergeableChannels : R → NumberChannelsDiff)
    (getData : Bytes → Except HistoryError (List (Datum ListParWithRandom)))
    (computeBranches : Finset R → Finset (Branch R))
    (computeConflictMap : Finset (Branch R) → Except HistoryError (RelationMap (Branch R))) (pinned : Finset R)
    (hPartition : Partitions (computeBranches (mergeSet actualSeq lateSeq depends))
      (mergeSet actualSeq lateSeq depends))
    (hMap : ∀ branches conflictMap, computeConflictMap branches = .ok conflictMap → ConflictMapOn conflictMap branches)
    (hDisjoint : ∀ item ∈ actualSeq, item ∉ lateSeq)
    (hFree : ∀ branch ∈ computeBranches (mergeSet actualSeq lateSeq depends), OrderFree mergeableChannels branch) :
    ResolvesInEveryOrder actualSeq lateSeq depends cost priorLosses mergeableChannels getData computeBranches
      computeConflictMap pinned := by
  constructor
  · intro orders res hRes
    obtain ⟨conflictMap, base, hConflicts, hBase⟩ := exists_of_resolveConflicts_ok hRes
    rw [resolveConflicts_eq_ok hConflicts hBase] at hRes
    obtain rfl := Except.ok.inj hRes
    refine ⟨conflictMap, base, hConflicts, hBase, ?_⟩
    exact resolves_of_mem_rejectionCandidates hPartition (hMap _ _ hConflicts) hDisjoint
      (selectRejection_mem_rejectionCandidates orders base mergeableChannels cost priorLosses (hMap _ _ hConflicts)
        pinned)
  · intro orders orders'
    cases hConflicts : computeConflictMap (computeBranches (mergeSet actualSeq lateSeq depends)) with
    | error e =>
      simp only [resolveConflicts, hConflicts, bind, Except.bind]
      rfl
    | ok conflictMap =>
      cases hBase : baseMergeableChRes mergeableChannels getData
          (computeBranches (mergeSet actualSeq lateSeq depends)) with
      | error e =>
        simp only [resolveConflicts, hConflicts, hBase, bind, Except.bind]
        rfl
      | ok base =>
        rw [resolveConflicts_eq_ok hConflicts hBase, resolveConflicts_eq_ok hConflicts hBase]
        dsimp only
        rw [selectRejection_eq_of_orderFree orders orders' base cost priorLosses (hMap _ _ hConflicts) hFree pinned]
        refine ⟨?_, rfl⟩
        rw [← Multiset.coe_eq_coe, coe_filter_iter, coe_filter_iter]

end promises

/-- Two of the items conflict, one depends on a late item. -/
theorem resolvesInEveryOrder_conflict_and_late :
    ResolvesInEveryOrder [1, 2, 4] [3] (fun item late => item = 4 ∧ late = 3) id (fun _ => 0)
      (fun _ => AList.singleton [7] (1, .integerAdd)) (fun _ => .ok []) (fun items => items.image fun r => ⟨{r}⟩)
      (fun branches => .ok (relationMap (branches.sort (· ≤ ·)) [(0, 1)])) ∅ := by
  refine resolvesInEveryOrder_of_orderFree _ _ _ _ _ _ _ _ _ _ ⟨?_, ?_⟩ ?_ (by decide) ?_
  · intro item
    simp
  · intro b hb b' hb' item hItem hItem'
    obtain ⟨r, -, rfl⟩ := Finset.mem_image.mp hb
    obtain ⟨r', -, rfl⟩ := Finset.mem_image.mp hb'
    rw [← Finset.mem_singleton.mp hItem, ← Finset.mem_singleton.mp hItem']
  · rintro branches conflictMap hOk
    obtain rfl := Except.ok.inj hOk
    have hMap : ConflictMapOn (relationMap (branches.sort (· ≤ ·)) [(0, 1)]) (branches.sort (· ≤ ·)).toFinset :=
      conflictMapOn_relationMap (Finset.sort_nodup _ _) (by decide)
    rwa [Finset.sort_toFinset] at hMap
  · intro b hb items items' hItems hItems'
    obtain ⟨r, -, rfl⟩ := Finset.mem_image.mp hb
    rw [Multiset.coe_eq_singleton.mp hItems, Multiset.coe_eq_singleton.mp hItems']

section overflow

variable {R : Type} [LinearOrder R] (orders : HashOrders R) {mergeableChannels : R → NumberChannelsDiff}

def HashOrder.descending (α : Type) [LinearOrder α] : HashOrder α :=
  ⟨fun s => (s.sort (· ≤ ·)).reverse, fun s => by rw [Multiset.coe_reverse, Finset.sort_eq]⟩

omit [LinearOrder R] in
theorem baseMergeableChRes_of_no_data (branches : Finset (Branch R)) :
    baseMergeableChRes mergeableChannels (fun _ => .ok []) branches = .ok fun _ => 0 := by
  rw [baseMergeableChRes]
  induction allChannelKeys mergeableChannels branches with
  | nil => rfl
  | cons k keys ih =>
    have hRead : readBase (fun _ => .ok []) (fun _ => 0) k = .ok fun _ => 0 := by
      change Except.ok (Function.update (fun _ => 0) k 0) = _
      rw [Function.update_eq_self_iff.mpr rfl]
    rw [List.foldlM_cons, hRead]
    exact ih

theorem selectRejection_of_unrelated {V : Finset (Branch R)} {m : RelationMap (Branch R)} (hm : ConflictMapOn m V)
    (hNone : ∀ a c, ¬ m.Related a c) (base : Balances) (cost priorLosses : R → Nat) (pinned : Finset R) :
    selectRejection orders V m base mergeableChannels cost priorLosses pinned =
      foldRejection orders mergeableChannels base V := by
  obtain ⟨S, hS, hEq⟩ := (mem_rejectionCandidates orders mergeableChannels hm V base).mp
    (selectRejection_mem_rejectionCandidates orders base mergeableChannels cost priorLosses hm pinned)
  have hEmpty : S = ∅ := by
    refine Finset.eq_empty_of_forall_notMem fun a ha => ?_
    obtain ⟨c, -, hc⟩ := hS.2 a ha
    exact hNone a c (RelationMap.mem_neighbours.mp hc)
  rw [hEq, hEmpty, Finset.empty_union, Finset.sdiff_empty]

theorem branch_singleton_le {a b : R} (h : a ≤ b) : (⟨{a}⟩ : Branch R) ≤ ⟨{b}⟩ := by
  change Branch.key (⟨{a}⟩ : Branch R) ≤ Branch.key ⟨{b}⟩
  simp only [Branch.key, Finset.sort_singleton, Finset.card_singleton]
  refine Prod.Lex.toLex_le_toLex.mpr (.inr ⟨rfl, ?_⟩)
  obtain rfl | hLt := h.eq_or_lt
  · exact le_refl _
  · exact le_of_lt (List.Lex.rel hLt)

theorem not_related_of_singleton {b : Branch R} {m : RelationMap (Branch R)} (hm : ConflictMapOn m {b})
    (a c : Branch R) : ¬ m.Related a c := by
  intro hac
  have ha : a ∈ ({b} : Finset (Branch R)) :=
    hm.mem_of_neighbours (Finset.ne_empty_of_mem (RelationMap.mem_neighbours.mpr hac))
  have hc : c ∈ ({b} : Finset (Branch R)) :=
    hm.mem_of_neighbours (Finset.ne_empty_of_mem (RelationMap.mem_neighbours.mpr (hm.symm a c hac)))
  rw [Finset.mem_singleton.mp ha, Finset.mem_singleton.mp hc] at hac
  exact hm.irrefl b hac

theorem selectRejection_singleton {b : Branch R} {m : RelationMap (Branch R)} (hm : ConflictMapOn m {b})
    (base : Balances) (cost priorLosses : R → Nat) (pinned : Finset R) :
    selectRejection orders {b} m base mergeableChannels cost priorLosses pinned =
      if (calMergedResult orders mergeableChannels b base).isSome then ∅ else {b} := by
  rw [selectRejection_of_unrelated orders hm (not_related_of_singleton hm), foldRejection, Finset.sort_singleton,
    List.foldl_cons, List.foldl_nil, foldRejectionStep]
  cases calMergedResult orders mergeableChannels b base with
  | none => rfl
  | some ba => rfl

end overflow

def fullDeposit (item : Nat) : NumberChannelsDiff :=
  AList.singleton [7] (if item = 1 then 2 ^ 256 - 1 else if item = 2 then 1 else -1, .integerAdd)

theorem sort_three : ({1, 2, 3} : Finset Nat).sort (· ≤ ·) = [1, 2, 3] :=
  (List.toFinset_sort (· ≤ ·) (l := [1, 2, 3]) (by decide)).mpr (by decide)

theorem calMergedResult_fullDeposit_ascending :
    (calMergedResult ⟨.ascending Nat, .ascending (Branch Nat)⟩ fullDeposit ⟨{1, 2, 3}⟩ fun _ => 0).isSome = false := by
  rw [calMergedResult, branchDiff]
  dsimp only [HashOrder.ascending]
  rw [sort_three]
  rfl

theorem calMergedResult_fullDeposit_descending :
    (calMergedResult ⟨.descending Nat, .ascending (Branch Nat)⟩ fullDeposit ⟨{1, 2, 3}⟩ fun _ => 0).isSome = true := by
  rw [calMergedResult, branchDiff]
  dsimp only [HashOrder.descending]
  rw [sort_three]
  rfl

/-- The items of one branch overflow in ascending order and not in descending order. -/
theorem not_resolvesInEveryOrder_fullDeposit :
    ¬ ResolvesInEveryOrder [1, 2, 3] [] (fun _ _ => false) id (fun _ => 0) fullDeposit (fun _ => .ok [])
      (fun items => {⟨items⟩}) (fun branches => .ok (relationMap (branches.sort (· ≤ ·)) [])) ∅ := by
  intro h
  have hSame := h.2 ⟨.ascending Nat, .ascending (Branch Nat)⟩ ⟨.descending Nat, .ascending (Branch Nat)⟩
  have hItems : mergeSet [1, 2, 3] [] (fun _ _ : Nat => false) = {1, 2, 3} := by decide
  have hMap : ConflictMapOn (relationMap (({⟨{1, 2, 3}⟩} : Finset (Branch Nat)).sort (· ≤ ·)) [])
      {⟨{1, 2, 3}⟩} := by
    have hSort := @conflictMapOn_relationMap Nat _ _ (Finset.sort_nodup {⟨{1, 2, 3}⟩} (· ≤ ·)) [] (by decide)
    rwa [Finset.sort_toFinset] at hSort
  rw [resolveConflicts_eq_ok rfl (baseMergeableChRes_of_no_data _),
    resolveConflicts_eq_ok rfl (baseMergeableChRes_of_no_data _)] at hSame
  dsimp only at hSame
  rw [hItems, selectRejection_singleton _ hMap, selectRejection_singleton _ hMap] at hSame
  rw [calMergedResult_fullDeposit_ascending, calMergedResult_fullDeposit_descending] at hSame
  have hRejected := hSame.2
  revert hRejected
  decide

end F1r3Node.Merging
