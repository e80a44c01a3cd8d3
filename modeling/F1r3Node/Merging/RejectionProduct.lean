import F1r3Node.Merging.ConflictSetMerger

/-! # Rejection options of groups of branches

Groups that share neither a conflict nor a number channel are resolved independently: the options of
the whole graph are the unions of one option of each group.
-/

namespace F1r3Node.Merging

open Shared Lib

section channels

variable {R : Type} (orders : HashOrders R) (mergeableChannels : R → NumberChannelsDiff)

def Touches (branch : Branch R) (channel : Bytes) : Prop := ∃ r ∈ branch.items, channel ∈ mergeableChannels r

variable {diff : NumberChannelsDiff} {k : Bytes}

theorem mem_of_combineInto {diff' : NumberChannelsDiff} {entry : Sigma fun _ : Bytes => Int × MergeType}
    (h : combineInto diff entry = some diff') (hk : k ∈ diff') : k ∈ diff ∨ k = entry.1 := by
  unfold combineInto at h
  cases hLookup : diff.lookup entry.1 with
  | none =>
    rw [hLookup] at h
    rw [← Option.some.inj h, AList.mem_insert] at hk
    exact hk.symm
  | some existing =>
    rw [hLookup] at h
    obtain ⟨combined, -, rfl⟩ := Option.map_eq_some_iff.mp h
    rw [AList.mem_insert] at hk
    exact hk.symm

variable {entries : List (Sigma fun _ : Bytes => Int × MergeType)}

theorem mem_of_foldlM_combineInto {diff' : NumberChannelsDiff} (h : entries.foldlM combineInto diff = some diff')
    (hk : k ∈ diff') : k ∈ diff ∨ k ∈ entries.keys := by
  induction entries generalizing diff with
  | nil =>
    rw [List.foldlM_nil] at h
    rw [← Option.some.inj h] at hk
    exact .inl hk
  | cons entry entries ih =>
    rw [List.foldlM_cons] at h
    obtain ⟨next, hNext, hRest⟩ := Option.bind_eq_some_iff.mp h
    rw [List.keys_cons, List.mem_cons]
    obtain hMem | hMem := ih hRest
    · exact (mem_of_combineInto hNext hMem).imp_right .inl
    · exact .inr (.inr hMem)

variable {branch : Branch R}

theorem touches_of_mem_branchDiff (h : branchDiff orders mergeableChannels branch = some diff) (hk : k ∈ diff) :
    Touches mergeableChannels branch k := by
  obtain hNone | hMem := mem_of_foldlM_combineInto h hk
  · exact absurd hNone (AList.notMem_empty k)
  · obtain ⟨entry, hEntry, rfl⟩ := List.mem_map.mp hMem
    obtain ⟨r, hr, hIn⟩ := List.mem_flatMap.mp hEntry
    exact ⟨r, orders.items.mem_iter.mp hr, List.mem_map.mpr ⟨entry, hIn, rfl⟩⟩

variable {T : Set Bytes} {ba ba' : Balances}

theorem foldlM_applyEntry_agree (hT : ∀ k ∈ entries.keys, k ∈ T) {result : Balances} (hAgree : ∀ k ∈ T, ba k = ba' k)
    (h : entries.foldlM applyEntry ba = some result) :
    ∃ result', entries.foldlM applyEntry ba' = some result' ∧ (∀ k ∈ T, result k = result' k) ∧
      ∀ k ∉ entries.keys, result k = ba k := by
  induction entries generalizing ba ba' with
  | nil =>
    rw [List.foldlM_nil] at h
    obtain rfl := Option.some.inj h
    exact ⟨ba', rfl, hAgree, fun _ _ => rfl⟩
  | cons entry entries ih =>
    rw [List.foldlM_cons] at h
    obtain ⟨next, hNext, hRest⟩ := Option.bind_eq_some_iff.mp h
    obtain ⟨v, hv, rfl⟩ := Option.map_eq_some_iff.mp hNext
    have hHead : entry.1 ∈ T := hT _ (by rw [List.keys_cons]; exact List.mem_cons_self)
    have hTail : ∀ k ∈ entries.keys, k ∈ T := fun k hk => hT k (by rw [List.keys_cons]; exact .tail _ hk)
    have hNext' : applyEntry ba' entry = some (Function.update ba' entry.1 v) := by
      rw [applyEntry, ← hAgree _ hHead, hv]
      rfl
    have hUpdated : ∀ k ∈ T, Function.update ba entry.1 v k = Function.update ba' entry.1 v k := by
      intro k hk
      obtain rfl | hNe := eq_or_ne k entry.1
      · rw [Function.update_self, Function.update_self]
      · rw [Function.update_of_ne hNe, Function.update_of_ne hNe, hAgree k hk]
    obtain ⟨result', hResult', hSame, hOff⟩ := ih hTail hUpdated hRest
    refine ⟨result', ?_, hSame, fun k hk => ?_⟩
    · rw [List.foldlM_cons, hNext']
      exact hResult'
    · rw [List.keys_cons, List.mem_cons, not_or] at hk
      rw [hOff k hk.2, Function.update_of_ne hk.1]

theorem calMergedResult_agree (hT : ∀ k, Touches mergeableChannels branch k → k ∈ T) {result : Balances}
    (hAgree : ∀ k ∈ T, ba k = ba' k) (h : calMergedResult orders mergeableChannels branch ba = some result) :
    ∃ result', calMergedResult orders mergeableChannels branch ba' = some result' ∧ (∀ k ∈ T, result k = result' k) ∧
      ∀ k, ¬ Touches mergeableChannels branch k → result k = ba k := by
  obtain ⟨diff, hDiff, hApply⟩ := Option.bind_eq_some_iff.mp h
  have hKeys : ∀ k ∈ diff.entries.keys, Touches mergeableChannels branch k := fun k hk =>
    touches_of_mem_branchDiff orders mergeableChannels hDiff hk
  obtain ⟨result', hResult', hSame, hOff⟩ := foldlM_applyEntry_agree (fun k hk => hT k (hKeys k hk)) hAgree hApply
  refine ⟨result', ?_, hSame, fun k hk => hOff k fun hMem => hk (hKeys k hMem)⟩
  rw [calMergedResult, hDiff]
  exact hResult'

theorem calMergedResult_none_of_agree
    (hT : ∀ k, Touches mergeableChannels branch k → k ∈ T) (hAgree : ∀ k ∈ T, ba k = ba' k)
    (h : calMergedResult orders mergeableChannels branch ba = none) :
    calMergedResult orders mergeableChannels branch ba' = none := by
  cases hOther : calMergedResult orders mergeableChannels branch ba' with
  | none => rfl
  | some result' =>
    obtain ⟨result, hResult, -⟩ :=
      calMergedResult_agree orders mergeableChannels hT (fun k hk => (hAgree k hk).symm) hOther
    rw [h] at hResult
    cases hResult

end channels

section fold

variable {R : Type} [LinearOrder R] (orders : HashOrders R) (mergeableChannels : R → NumberChannelsDiff)

theorem foldl_foldRejectionStep_filter (G : Branch R → Prop) [DecidablePred G] {T : Set Bytes}
    {l : List (Branch R)} (hIn : ∀ b ∈ l, G b → ∀ k, Touches mergeableChannels b k → k ∈ T)
    (hOut : ∀ b ∈ l, ¬ G b → ∀ k, Touches mergeableChannels b k → k ∉ T)
    {st st' : Balances × Finset (Branch R)} (hAgree : ∀ k ∈ T, st.1 k = st'.1 k) (hFilter : st.2.filter G = st'.2) :
    ((l.foldl (foldRejectionStep orders mergeableChannels) st).2).filter G =
      ((l.filter G).foldl (foldRejectionStep orders mergeableChannels) st').2 := by
  induction l generalizing st st' with
  | nil => exact hFilter
  | cons b l ih =>
    obtain ⟨hInB, hInRest⟩ := List.forall_mem_cons.mp hIn
    obtain ⟨hOutB, hOutRest⟩ := List.forall_mem_cons.mp hOut
    rw [List.foldl_cons]
    by_cases hG : G b
    · rw [List.filter_cons_of_pos (by simpa using hG), List.foldl_cons]
      unfold foldRejectionStep
      cases hResult : calMergedResult orders mergeableChannels b st.1 with
      | some result =>
        obtain ⟨result', hResult', hSame, -⟩ := calMergedResult_agree orders mergeableChannels (hInB hG) hAgree hResult
        rw [hResult']
        exact ih hInRest hOutRest hSame hFilter
      | none =>
        rw [calMergedResult_none_of_agree orders mergeableChannels (hInB hG) hAgree hResult]
        refine ih hInRest hOutRest hAgree ?_
        rw [Finset.filter_insert, if_pos hG, hFilter]
    · rw [List.filter_cons_of_neg (by simpa using hG)]
      unfold foldRejectionStep
      cases hResult : calMergedResult orders mergeableChannels b st.1 with
      | some result =>
        obtain ⟨-, -, -, hOff⟩ := calMergedResult_agree orders mergeableChannels (fun k _ => Set.mem_univ k)
          (fun _ _ => rfl) hResult
        refine ih hInRest hOutRest (fun k hk => ?_) hFilter
        rw [← hAgree k hk]
        exact hOff k fun hTouches => hOutB hG k hTouches hk
      | none =>
        refine ih hInRest hOutRest hAgree ?_
        rw [Finset.filter_insert, if_neg hG, hFilter]

theorem sort_filter {α : Type} [LinearOrder α] (s : Finset α) (G : α → Prop) [DecidablePred G] :
    (s.filter G).sort (· ≤ ·) = (s.sort (· ≤ ·)).filter G := by
  refine List.Perm.eq_of_pairwise (fun a b _ _ hab hba => le_antisymm hab hba) (Finset.pairwise_sort _ _)
    ((Finset.pairwise_sort _ _).filter _) ?_
  refine (List.perm_ext_iff_of_nodup (Finset.sort_nodup _ _) ((Finset.sort_nodup _ _).filter _)).mpr fun a => ?_
  simp

def ChannelClosed (V : Finset (Branch R)) (G : Branch R → Prop) : Prop :=
  ∀ b ∈ V, ∀ b' ∈ V, ∀ k, Touches mergeableChannels b k → Touches mergeableChannels b' k → G b → G b'

theorem filter_foldRejection {V : Finset (Branch R)} {G : Branch R → Prop} [DecidablePred G]
    (hClosed : ChannelClosed mergeableChannels V G) (base : Balances) :
    (foldRejection orders mergeableChannels base V).filter G =
      foldRejection orders mergeableChannels base (V.filter G) := by
  rw [foldRejection, foldRejection, sort_filter]
  refine foldl_foldRejectionStep_filter orders mergeableChannels G
    (T := {k | ∃ b ∈ V, G b ∧ Touches mergeableChannels b k}) ?_ ?_ (fun _ _ => rfl) (Finset.filter_empty G)
  · intro b hb hG k hTouches
    exact ⟨b, (Finset.mem_sort _).mp hb, hG, hTouches⟩
  · rintro b hb hG k hTouches ⟨b', hb', hG', hTouches'⟩
    exact hG (hClosed b' hb' b ((Finset.mem_sort _).mp hb) k hTouches' hTouches hG')

theorem foldRejection_subset (base : Balances) (V : Finset (Branch R)) :
    foldRejection orders mergeableChannels base V ⊆ V := by
  have hFold : ∀ (l : List (Branch R)) (st : Balances × Finset (Branch R)), (∀ b ∈ l, b ∈ V) → st.2 ⊆ V →
      (l.foldl (foldRejectionStep orders mergeableChannels) st).2 ⊆ V := by
    intro l
    induction l with
    | nil => exact fun st _ hst => hst
    | cons b l ih =>
      intro st hl hst
      obtain ⟨hb, hRest⟩ := List.forall_mem_cons.mp hl
      refine ih _ hRest ?_
      unfold foldRejectionStep
      cases calMergedResult orders mergeableChannels b st.1 with
      | some result => exact hst
      | none => exact Finset.insert_subset hb hst
  exact hFold _ _ (fun b hb => (Finset.mem_sort _).mp hb) (Finset.empty_subset V)

end fold

section groups

variable {R : Type} [LinearOrder R] (orders : HashOrders R) (mergeableChannels : R → NumberChannelsDiff)

/-- The branches in groups that share neither a conflict nor a channel. -/
structure Grouping (m : RelationMap (Branch R)) (V : Finset (Branch R)) (groups : List (List (Branch R))) : Prop where
  cover : ∀ b, b ∈ V ↔ ∃ g ∈ groups, b ∈ g
  disjoint : groups.Pairwise List.Disjoint
  conflicts : ∀ g ∈ groups, ∀ b ∈ g, ∀ b' ∈ m.neighbours b, b' ∈ g
  channels : ∀ g ∈ groups, ChannelClosed mergeableChannels V (· ∈ g)

structure ConflictMapOn (m : RelationMap (Branch R)) (V : Finset (Branch R)) : Prop where
  keys : ∀ b ∈ m, b ∈ V
  symm : ∀ a b, m.Related a b → m.Related b a
  irrefl : ∀ a, ¬ m.Related a a

variable {m : RelationMap (Branch R)} {V : Finset (Branch R)}

theorem exists_mem_computeRejectionOptions (hm : ConflictMapOn m V) : ∃ S, S ∈ computeRejectionOptions m := by
  obtain ⟨S, hS⟩ := Rejections.exists_isRejection
    (fun a b hab => RelationMap.mem_neighbours.mpr (hm.symm _ _ (RelationMap.mem_neighbours.mp hab)))
    (fun a ha => hm.irrefl a (RelationMap.mem_neighbours.mp ha)) m.keys.toFinset fun k => mem_keys_of_neighbours
  exact ⟨S, (mem_computeRejectionOptions hm.symm hm.irrefl S).mpr hS⟩

theorem mem_rejectionCandidates (hm : ConflictMapOn m V) (U : Finset (Branch R)) (base : Balances)
    {o : Finset (Branch R)} :
    o ∈ rejectionCandidates orders mergeableChannels U m base ↔
      ∃ S, Rejections.IsRejection m.neighbours S ∧ o = S ∪ foldRejection orders mergeableChannels base (U \ S) := by
  have hOptions : computeRejectionOptions m ≠ ∅ := by
    obtain ⟨S, hS⟩ := exists_mem_computeRejectionOptions hm
    exact Finset.ne_empty_of_mem hS
  rw [rejectionCandidates, getMergedResultRejection, if_neg hOptions, Finset.mem_image]
  simp only [mem_computeRejectionOptions hm.symm hm.irrefl, eq_comm]

theorem rejectionCandidates_nonempty (hm : ConflictMapOn m V) (base : Balances) :
    (rejectionCandidates orders mergeableChannels V m base).Nonempty := by
  obtain ⟨S, hS⟩ := exists_mem_computeRejectionOptions hm
  exact ⟨_, (mem_rejectionCandidates orders mergeableChannels hm V base).mpr
    ⟨S, (mem_computeRejectionOptions hm.symm hm.irrefl S).mp hS, rfl⟩⟩

theorem ConflictMapOn.mem_of_neighbours (hm : ConflictMapOn m V) {a : Branch R} (ha : m.neighbours a ≠ ∅) : a ∈ V :=
  hm.keys a (List.mem_toFinset.mp (mem_keys_of_neighbours ha))

theorem subset_of_mem_rejectionCandidates (hm : ConflictMapOn m V) {base : Balances} {o : Finset (Branch R)}
    (ho : o ∈ rejectionCandidates orders mergeableChannels V m base) : o ⊆ V := by
  obtain ⟨S, hS, rfl⟩ := (mem_rejectionCandidates orders mergeableChannels hm V base).mp ho
  refine Finset.union_subset (fun a ha => ?_) ?_
  · obtain ⟨b, -, hb⟩ := hS.2 a ha
    exact hm.mem_of_neighbours (Finset.ne_empty_of_mem hb)
  · exact (foldRejection_subset orders mergeableChannels base _).trans Finset.sdiff_subset

theorem lookup_foldl_addConflicts (l : List (Branch R)) (acc : RelationMap (Branch R)) (b : Branch R) :
    (l.foldl (addConflicts m) acc).lookup b = if b ∈ l then (m.lookup b).or (acc.lookup b) else acc.lookup b := by
  induction l generalizing acc with
  | nil => rfl
  | cons a l ih =>
    rw [List.foldl_cons, ih, addConflicts]
    obtain rfl | hab := eq_or_ne b a
    · cases hLookup : m.lookup b with
      | none => simp
      | some conflicts => simp
    · cases m.lookup a with
      | none => simp [hab]
      | some conflicts => simp [hab, AList.lookup_insert_ne hab]

theorem lookup_groupMap (group : List (Branch R)) (b : Branch R) :
    (groupMap m group).lookup b = if b ∈ group then m.lookup b else none := by
  rw [groupMap, lookup_foldl_addConflicts, AList.lookup_empty, Option.or_none]

theorem neighbours_groupMap (m : RelationMap (Branch R)) (group : List (Branch R)) :
    (groupMap m group).neighbours = Rejections.within group m.neighbours := by
  funext b
  rw [RelationMap.neighbours, lookup_groupMap, Rejections.within]
  split_ifs
  · rfl
  · rfl

variable {orders mergeableChannels} {groups : List (List (Branch R))}

theorem Grouping.conflictMapOn (h : Grouping mergeableChannels m V groups) (hm : ConflictMapOn m V)
    {g : List (Branch R)} (hg : g ∈ groups) : ConflictMapOn (groupMap m g) g.toFinset := by
  have hRelated : ∀ a b, (groupMap m g).Related a b ↔ a ∈ g ∧ m.Related a b := by
    intro a b
    rw [← RelationMap.mem_neighbours, neighbours_groupMap, Rejections.within, ← RelationMap.mem_neighbours]
    split_ifs with hMem
    · simp [hMem]
    · simp [hMem]
  constructor
  · intro b hb
    have hSome := AList.lookup_isSome.mpr hb
    rw [lookup_groupMap] at hSome
    split_ifs at hSome with hMem
    · exact List.mem_toFinset.mpr hMem
    · cases hSome
  · intro a b hab
    obtain ⟨ha, hab⟩ := (hRelated a b).mp hab
    exact (hRelated b a).mpr ⟨h.conflicts g hg a ha b (RelationMap.mem_neighbours.mpr hab), hm.symm a b hab⟩
  · intro a haa
    exact hm.irrefl a ((hRelated a a).mp haa).2

def groupCandidates (orders : HashOrders R) (mergeableChannels : R → NumberChannelsDiff) (m : RelationMap (Branch R))
    (base : Balances) (g : List (Branch R)) : Finset (Finset (Branch R)) :=
  rejectionCandidates orders mergeableChannels g.toFinset (groupMap m g) base

section

variable (h : Grouping mergeableChannels m V groups) (hm : ConflictMapOn m V)

include h

variable {g : List (Branch R)}

theorem Grouping.filter_eq_toFinset (hg : g ∈ groups) (S : Finset (Branch R)) :
    (V \ S).filter (· ∈ g) = g.toFinset \ S.filter (· ∈ g) := by
  ext b
  simp only [Finset.mem_filter, Finset.mem_sdiff, List.mem_toFinset]
  constructor
  · rintro ⟨⟨-, hbS⟩, hbg⟩
    exact ⟨hbg, fun hb => hbS hb.1⟩
  · rintro ⟨hbg, hbS⟩
    exact ⟨⟨(h.cover b).mpr ⟨g, hg, hbg⟩, fun hb => hbS ⟨hb, hbg⟩⟩, hbg⟩

theorem Grouping.filter_foldRejection (hg : g ∈ groups) (S : Finset (Branch R)) (base : Balances) :
    (foldRejection orders mergeableChannels base (V \ S)).filter (· ∈ g) =
      foldRejection orders mergeableChannels base (g.toFinset \ S.filter (· ∈ g)) := by
  rw [← h.filter_eq_toFinset hg S]
  refine Merging.filter_foldRejection orders mergeableChannels (fun b hb b' hb' => ?_) base
  exact h.channels g hg b (Finset.sdiff_subset hb) b' (Finset.sdiff_subset hb')

theorem Grouping.group_unique {g' : List (Branch R)} (hg : g ∈ groups) (hg' : g' ∈ groups) {b : Branch R}
    (hb : b ∈ g) (hb' : b ∈ g') : g = g' := by
  by_contra hNe
  have hSymm : Std.Symm (List.Disjoint (α := Branch R)) := ⟨fun _ _ => List.Disjoint.symm⟩
  exact h.disjoint.forall hg hg' hNe hb hb'

theorem Grouping.ext_of_filter {s t : Finset (Branch R)} (hs : s ⊆ V) (ht : t ⊆ V)
    (hEq : ∀ g ∈ groups, s.filter (· ∈ g) = t.filter (· ∈ g)) : s = t := by
  have hMem : ∀ g ∈ groups, ∀ b ∈ g, b ∈ s ↔ b ∈ t := by
    intro g hg b hb
    have hFilter : b ∈ s.filter (· ∈ g) ↔ b ∈ t.filter (· ∈ g) := by rw [hEq g hg]
    simpa [hb] using hFilter
  ext b
  constructor
  · intro hb
    obtain ⟨g, hg, hbg⟩ := (h.cover b).mp (hs hb)
    exact (hMem g hg b hbg).mp hb
  · intro hb
    obtain ⟨g, hg, hbg⟩ := (h.cover b).mp (ht hb)
    exact (hMem g hg b hbg).mpr hb

include hm

theorem Grouping.mem_rejectionCandidates_iff (base : Balances) {o : Finset (Branch R)} :
    o ∈ rejectionCandidates orders mergeableChannels V m base ↔
      o ⊆ V ∧ ∀ g ∈ groups, o.filter (· ∈ g) ∈ groupCandidates orders mergeableChannels m base g := by
  have hGroup : ∀ g ∈ groups, ∀ o', o' ∈ groupCandidates orders mergeableChannels m base g ↔
      ∃ S, Rejections.IsRejection (Rejections.within g m.neighbours) S ∧
        o' = S ∪ foldRejection orders mergeableChannels base (g.toFinset \ S) := by
    intro g hg o'
    rw [groupCandidates, mem_rejectionCandidates orders mergeableChannels (h.conflictMapOn hm hg), neighbours_groupMap]
  constructor
  · intro ho
    refine ⟨subset_of_mem_rejectionCandidates orders mergeableChannels hm ho, fun g hg => ?_⟩
    obtain ⟨S, hS, rfl⟩ := (mem_rejectionCandidates orders mergeableChannels hm V base).mp ho
    refine (hGroup g hg _).mpr ⟨S.filter (· ∈ g), hS.restrict (h.conflicts g hg), ?_⟩
    rw [Finset.filter_union, h.filter_foldRejection hg]
  · rintro ⟨hSub, hParts⟩
    rw [mem_rejectionCandidates orders mergeableChannels hm]
    choose! S hS hEq using fun g hg => (hGroup g hg _).mp (hParts g hg)
    -- the rejections of the groups make up one of the whole graph
    let T := V.filter fun b => ∃ g ∈ groups, b ∈ S g
    have hPart : ∀ g ∈ groups, T.filter (· ∈ g) = S g := by
      intro g hg
      ext b
      simp only [T, Finset.mem_filter]
      constructor
      · rintro ⟨⟨-, g', hg', hb⟩, hbg⟩
        rwa [h.group_unique hg hg' hbg ((hS g' hg').mem_part hb)]
      · intro hb
        have hbg := (hS g hg).mem_part hb
        exact ⟨⟨(h.cover b).mpr ⟨g, hg, hbg⟩, g, hg, hb⟩, hbg⟩
    refine ⟨T, Rejections.isRejection_of_parts (fun a ha => (h.cover a).mp (hm.mem_of_neighbours ha)) (fun a ha => ?_)
      h.conflicts fun g hg => ?_, ?_⟩
    · exact (h.cover a).mp (Finset.mem_filter.mp ha).1
    · rw [hPart g hg]
      exact hS g hg
    · have hSub' : T ∪ foldRejection orders mergeableChannels base (V \ T) ⊆ V :=
        Finset.union_subset (Finset.filter_subset _ V)
          ((foldRejection_subset orders mergeableChannels base _).trans Finset.sdiff_subset)
      refine h.ext_of_filter hSub hSub' fun g hg => ?_
      rw [Finset.filter_union, h.filter_foldRejection hg, hPart g hg]
      exact hEq g hg

end

end groups

end F1r3Node.Merging
