import F1r3Node.Merging.RejectionProduct

/-! # The groups that union-find makes

Conflicting branches and branches with a common channel are joined, so the groups share neither a
conflict nor a channel.
-/

namespace F1r3Node.Merging

open Shared Lib

section unionFind

variable {R : Type} [LinearOrder R] (orders : HashOrders R) (mergeableChannels : R → NumberChannelsDiff)
  {m : RelationMap (Branch R)} {nodes : List (Branch R)}

variable {b : Branch R} {i : Nat}

theorem getElem?_of_idxOf? (h : nodes.idxOf? b = some i) : nodes[i]? = some b := by
  obtain ⟨hLt, hEq, -⟩ := List.idxOf?_eq_some_iff.mp h
  rw [List.getElem?_eq_getElem hLt, hEq]

theorem exists_idxOf? (hNodup : nodes.Nodup) (h : nodes[i]? = some b) :
    nodes.idxOf? b = some i := by
  obtain ⟨j, hj⟩ := Option.isSome_iff_exists.mp (List.isSome_idxOf?.mpr (List.mem_of_getElem? h))
  rw [hj]
  have hGet := getElem?_of_idxOf? hj
  rw [(List.getElem?_inj (List.getElem?_eq_some_iff.mp h).1 hNodup).mp (h.trans hGet.symm)]

variable {Same : Nat → Nat → Prop}

theorem joins_foldl_joinPair (hNodup : nodes.Nodup) {parent : List Nat}
    (hJoins : UnionFind.Joins nodes.length parent Same) (pairs : List (Branch R × Branch R)) :
    UnionFind.Joins nodes.length (pairs.foldl (joinPair nodes) parent) fun i j => Same i j ∨
      ∃ a b, nodes[i]? = some a ∧ nodes[j]? = some b ∧ (a, b) ∈ pairs := by
  induction pairs generalizing parent Same with
  | nil => exact hJoins.mono fun i j => by simp
  | cons pair pairs ih =>
    have hStep : UnionFind.Joins nodes.length (joinPair nodes parent pair) fun i j => Same i j ∨
        (nodes[i]? = some pair.1 ∧ nodes[j]? = some pair.2) := by
      unfold joinPair
      split
      case h_1 x y hx hy =>
        have hxLt := (List.getElem?_eq_some_iff.mp (getElem?_of_idxOf? hx)).1
        have hyLt := (List.getElem?_eq_some_iff.mp (getElem?_of_idxOf? hy)).1
        refine (hJoins.unionRoots hxLt hyLt).mono fun i j hij => hij.imp_right fun ⟨hi, hj⟩ => ?_
        rw [exists_idxOf? hNodup hi] at hx
        rw [exists_idxOf? hNodup hj] at hy
        exact ⟨Option.some.inj hx, Option.some.inj hy⟩
      case h_2 hNone =>
        refine hJoins.mono fun i j hij => hij.resolve_right fun ⟨hi, hj⟩ => ?_
        exact hNone i j (exists_idxOf? hNodup hi) (exists_idxOf? hNodup hj)
    rw [List.foldl_cons]
    refine (ih hStep).mono fun i j hij => ?_
    obtain hSame | ⟨a, b, hi, hj, hMem⟩ := hij
    · exact .inl (.inl hSame)
    · obtain rfl | hMem := List.mem_cons.mp hMem
      · exact .inl (.inr ⟨hi, hj⟩)
      · exact .inr ⟨a, b, hi, hj, hMem⟩

theorem joins_joinConflicts (hNodup : nodes.Nodup) :
    UnionFind.Joins nodes.length (joinConflicts orders m nodes (List.range nodes.length)) fun i j =>
      ∃ a b, nodes[i]? = some a ∧ nodes[j]? = some b ∧ m.Related a b := by
  refine (joins_foldl_joinPair hNodup (UnionFind.joins_range _) _).mono ?_
  rintro i j ⟨a, b, hi, hj, related, hLookup, hMem⟩
  refine .inr ⟨a, b, hi, hj, List.mem_flatMap.mpr ⟨⟨a, related⟩, AList.mem_lookup_iff.mp hLookup, ?_⟩⟩
  exact List.mem_map.mpr ⟨b, orders.branches.mem_iter.mpr hMem, rfl⟩

/-- The nodes seen so far are joined with the owners of their channels. -/
structure ChannelsJoined (n : Nat) (Same : Nat → Nat → Prop) (seen : List (Nat × Bytes))
    (st : List Nat × AList fun _ : Bytes => Nat) : Prop where
  owned : ∀ touch ∈ seen, ∃ owner, st.2.lookup touch.2 = some owner
  owner_lt : ∀ channel owner, st.2.lookup channel = some owner → owner < n
  joins : UnionFind.Joins n st.1 fun i j => Same i j ∨ ∃ channel, (i, channel) ∈ seen ∧ st.2.lookup channel = some j

variable {st : List Nat × AList fun _ : Bytes => Nat}

theorem ChannelsJoined.joinChannel {n : Nat} {seen : List (Nat × Bytes)}
    (h : ChannelsJoined n Same seen st) {touch : Nat × Bytes}
    (hLt : touch.1 < n) : ChannelsJoined n Same (touch :: seen) (joinChannel st touch) := by
  obtain ⟨i, channel⟩ := touch
  unfold Merging.joinChannel
  cases hLookup : st.2.lookup channel with
  | some owner =>
    refine ⟨?_, h.owner_lt, ?_⟩
    · rintro touch hMem
      obtain rfl | hMem := List.mem_cons.mp hMem
      · exact ⟨owner, hLookup⟩
      · exact h.owned touch hMem
    · refine (h.joins.unionRoots hLt (h.owner_lt channel owner hLookup)).mono ?_
      rintro i' j (hSame | ⟨channel', hMem, hOwner⟩)
      · exact .inl (.inl hSame)
      · obtain hEq | hMem := List.mem_cons.mp hMem
        · obtain ⟨rfl, rfl⟩ := Prod.mk.inj hEq
          exact .inr ⟨rfl, Option.some.inj (hOwner.symm.trans hLookup)⟩
        · exact .inl (.inr ⟨channel', hMem, hOwner⟩)
  | none =>
    have hOld : ∀ {channel' owner}, channel' ≠ channel →
        (st.2.lookup channel' = some owner ↔ (st.2.insert channel i).lookup channel' = some owner) := by
      intro channel' owner hNe
      rw [AList.lookup_insert_ne hNe]
    refine ⟨?_, ?_, ?_⟩
    · rintro touch hMem
      obtain rfl | hMem := List.mem_cons.mp hMem
      · exact ⟨i, AList.lookup_insert st.2⟩
      · obtain ⟨owner, hOwner⟩ := h.owned touch hMem
        refine ⟨owner, (hOld ?_).mp hOwner⟩
        rintro hEq
        rw [hEq, hLookup] at hOwner
        cases hOwner
    · intro channel' owner hOwner
      obtain rfl | hNe := eq_or_ne channel' channel
      · rw [AList.lookup_insert] at hOwner
        exact Option.some.inj hOwner ▸ hLt
      · exact h.owner_lt channel' owner ((hOld hNe).mpr hOwner)
    · obtain ⟨hLength, root, rank, hForest, hSame⟩ := h.joins
      refine ⟨hLength, root, rank, hForest, ?_⟩
      rintro i' j (hij | ⟨channel', hMem, hOwner⟩)
      · exact hSame i' j (.inl hij)
      · obtain rfl | hNe := eq_or_ne channel' channel
        · rw [AList.lookup_insert] at hOwner
          obtain rfl := Option.some.inj hOwner
          obtain hEq | hMem := List.mem_cons.mp hMem
          · rw [(Prod.mk.inj hEq).1]
          · obtain ⟨owner, hOwner⟩ := h.owned _ hMem
            rw [hLookup] at hOwner
            cases hOwner
        · obtain hEq | hMem := List.mem_cons.mp hMem
          · exact absurd (Prod.mk.inj hEq).2 hNe
          · exact hSame i' j (.inr ⟨channel', hMem, (hOld hNe).mpr hOwner⟩)

theorem ChannelsJoined.foldl_joinChannel {n : Nat} {seen : List (Nat × Bytes)}
    (h : ChannelsJoined n Same seen st) (touches : List (Nat × Bytes)) (hLt : ∀ touch ∈ touches, touch.1 < n) :
    ChannelsJoined n Same (touches.reverse ++ seen) (touches.foldl Merging.joinChannel st) := by
  induction touches generalizing seen st with
  | nil => exact h
  | cons touch touches ih =>
    obtain ⟨hTouch, hRest⟩ := List.forall_mem_cons.mp hLt
    rw [List.reverse_cons, List.append_assoc]
    exact ih (h.joinChannel hTouch) hRest

omit [LinearOrder R] in
theorem mem_channelTouches {channel : Bytes} :
    (i, channel) ∈ channelTouches orders mergeableChannels nodes ↔
      ∃ b, nodes[i]? = some b ∧ Touches mergeableChannels b channel := by
  simp only [channelTouches, List.mem_flatMap, List.mem_map, Prod.exists, List.mk_mem_zipIdx_iff_getElem?,
    orders.items.mem_iter, Prod.mk.injEq]
  constructor
  · rintro ⟨b, j, hGet, item, hItem, channel', hChannel, rfl, rfl⟩
    exact ⟨b, hGet, item, hItem, hChannel⟩
  · rintro ⟨b, hGet, item, hItem, hChannel⟩
    exact ⟨b, i, hGet, item, hItem, channel, hChannel, rfl, rfl⟩

variable (m) in
theorem joins_joinChannels (hNodup : nodes.Nodup) :
    UnionFind.Joins nodes.length (joinChannels orders mergeableChannels nodes
      (joinConflicts orders m nodes (List.range nodes.length))) fun i j => ∃ a b, nodes[i]? = some a ∧
        nodes[j]? = some b ∧ (m.Related a b ∨ ∃ k, Touches mergeableChannels a k ∧ Touches mergeableChannels b k) := by
  have hStart : ChannelsJoined nodes.length (fun i j => ∃ a b, nodes[i]? = some a ∧ nodes[j]? = some b ∧ m.Related a b)
      [] (joinConflicts orders m nodes (List.range nodes.length), ∅) := by
    constructor
    · exact fun touch hMem => absurd hMem List.not_mem_nil
    · exact fun _ _ hOwner => absurd hOwner (Option.some_ne_none _).symm
    · exact (joins_joinConflicts orders hNodup).mono fun i j hij =>
        hij.resolve_right fun ⟨_, hMem, _⟩ => List.not_mem_nil hMem
  obtain ⟨hOwned, -, hLength, root, rank, hForest, hSame⟩ := hStart.foldl_joinChannel
    (channelTouches orders mergeableChannels nodes) fun touch hMem => by
      obtain ⟨b, hGet, -⟩ := (mem_channelTouches orders mergeableChannels).mp hMem
      exact (List.getElem?_eq_some_iff.mp hGet).1
  refine ⟨hLength, root, rank, hForest, ?_⟩
  rintro i j ⟨a, b, hi, hj, hRelated | ⟨k, hTouchA, hTouchB⟩⟩
  · exact hSame i j (.inl ⟨a, b, hi, hj, hRelated⟩)
  · have hSeen : ∀ {i a}, nodes[i]? = some a → Touches mergeableChannels a k →
        (i, k) ∈ (channelTouches orders mergeableChannels nodes).reverse ++ [] := fun hi hTouch => by
      rw [List.append_nil, List.mem_reverse]
      exact (mem_channelTouches orders mergeableChannels).mpr ⟨_, hi, hTouch⟩
    obtain ⟨owner, hOwner⟩ := hOwned _ (hSeen hi hTouchA)
    rw [hSame i owner (.inr ⟨k, hSeen hi hTouchA, hOwner⟩), hSame j owner (.inr ⟨k, hSeen hj hTouchB, hOwner⟩)]

variable (m) in
def branchGroups (nodes : List (Branch R)) : List (List (Branch R)) :=
  (rejectionGroups orders m mergeableChannels nodes).map fun members => members.filterMap (nodes[·]?)

theorem grouping_branchGroups {V : Finset (Branch R)} (hm : ConflictMapOn m V) :
    Grouping mergeableChannels m V (branchGroups orders mergeableChannels m (orders.branches.iter V)) := by
  have hNodup := orders.branches.nodup_iter V
  have hNodes : ∀ b, b ∈ V ↔ ∃ i : Nat, (orders.branches.iter V)[i]? = some b := fun b => by
    rw [← orders.branches.mem_iter, List.mem_iff_getElem?]
  unfold branchGroups rejectionGroups
  generalize orders.branches.iter V = nodes at hNodup hNodes
  obtain ⟨hLength, root, rank, hForest, hSame⟩ := joins_joinChannels orders mergeableChannels m hNodup
  generalize joinChannels orders mergeableChannels nodes (joinConflicts orders m nodes (List.range nodes.length)) =
    parent at hLength hForest
  have hMembers : ∀ {r members}, (UnionFind.groups parent).lookup r = some members → ∀ b,
      b ∈ members.filterMap (nodes[·]?) ↔ ∃ i : Nat, nodes[i]? = some b ∧ root i = r := by
    intro r members hLookup b
    have hMem : ∀ i, i ∈ members ↔ i < parent.length ∧ root i = r := fun i => by
      rw [← UnionFind.mem_groups_iff hForest, hLookup, Option.getD_some]
    rw [List.mem_filterMap]
    constructor
    · rintro ⟨i, hi, hGet⟩
      exact ⟨i, hGet, ((hMem i).mp hi).2⟩
    · rintro ⟨i, hGet, hRoot⟩
      exact ⟨i, (hMem i).mpr ⟨hLength ▸ (List.getElem?_eq_some_iff.mp hGet).1, hRoot⟩, hGet⟩
  -- a group holds the branches under its root
  have hGroup : ∀ g ∈ (((UnionFind.groups parent).entries.map Sigma.snd).map fun members =>
      members.filterMap (nodes[·]?)), ∃ r, ∀ b, b ∈ g ↔ ∃ i : Nat, nodes[i]? = some b ∧ root i = r := by
    intro g hg
    simp only [List.map_map, List.mem_map] at hg
    obtain ⟨⟨r, members⟩, hEntry, rfl⟩ := hg
    exact ⟨r, hMembers (AList.mem_lookup_iff.mpr hEntry)⟩
  have hClosed : ∀ g ∈ (((UnionFind.groups parent).entries.map Sigma.snd).map fun members =>
      members.filterMap (nodes[·]?)), ∀ b ∈ V, ∀ b' ∈ V,
      (m.Related b b' ∨ ∃ k, Touches mergeableChannels b k ∧ Touches mergeableChannels b' k) → b ∈ g → b' ∈ g := by
    intro g hg b hb b' hb' hTogether hbg
    obtain ⟨r, hr⟩ := hGroup g hg
    obtain ⟨i, hi, hRoot⟩ := (hr b).mp hbg
    obtain ⟨j, hj⟩ := (hNodes b').mp hb'
    refine (hr b').mpr ⟨j, hj, ?_⟩
    rw [← hSame i j ⟨b, b', hi, hj, hTogether⟩, hRoot]
  constructor
  · intro b
    constructor
    · intro hb
      obtain ⟨i, hi⟩ := (hNodes b).mp hb
      have hIn : i ∈ ((UnionFind.groups parent).lookup (root i)).getD [] :=
        (UnionFind.mem_groups_iff hForest).mpr ⟨hLength ▸ (List.getElem?_eq_some_iff.mp hi).1, rfl⟩
      cases hLookup : (UnionFind.groups parent).lookup (root i) with
      | none =>
        rw [hLookup] at hIn
        cases hIn
      | some members =>
        refine ⟨members.filterMap (nodes[·]?), ?_, (hMembers hLookup b).mpr ⟨i, hi, rfl⟩⟩
        simp only [List.map_map, List.mem_map]
        exact ⟨⟨root i, members⟩, AList.mem_lookup_iff.mp hLookup, rfl⟩
    · rintro ⟨g, hg, hbg⟩
      obtain ⟨r, hr⟩ := hGroup g hg
      obtain ⟨i, hi, -⟩ := (hr b).mp hbg
      exact (hNodes b).mpr ⟨i, hi⟩
  · rw [List.map_map, List.pairwise_map]
    refine (List.nodupKeys_iff_pairwise.mp (UnionFind.groups parent).nodupKeys).imp_of_mem ?_
    rintro ⟨r, members⟩ ⟨r', members'⟩ hEntry hEntry' hNe b hb hb'
    obtain ⟨i, hi, hRoot⟩ := (hMembers (AList.mem_lookup_iff.mpr hEntry) b).mp hb
    obtain ⟨j, hj, hRoot'⟩ := (hMembers (AList.mem_lookup_iff.mpr hEntry') b).mp hb'
    have hij : i = j := (List.getElem?_inj (List.getElem?_eq_some_iff.mp hi).1 hNodup).mp (hi.trans hj.symm)
    exact hNe (by rw [← hRoot, ← hRoot', hij])
  · intro g hg b hbg b' hb'
    have hRelated := RelationMap.mem_neighbours.mp hb'
    have hb : b ∈ V := hm.mem_of_neighbours (Finset.ne_empty_of_mem hb')
    have hbV' : b' ∈ V :=
      hm.mem_of_neighbours (Finset.ne_empty_of_mem (RelationMap.mem_neighbours.mpr (hm.symm _ _ hRelated)))
    exact hClosed g hg b hb b' hbV' (.inl hRelated) hbg
  · intro g hg b hb b' hb' k hTouch hTouch'
    exact hClosed g hg b hb b' hb' (.inr ⟨k, hTouch, hTouch'⟩)

def AtNodes {R : Type} (nodes : List (Branch R)) (P : Branch R → Branch R → Prop) (i j : Nat) : Prop :=
  i = j ∨ ∃ a b, nodes[i]? = some a ∧ nodes[j]? = some b ∧ P a b

variable {P : Branch R → Branch R → Prop}

omit [LinearOrder R] in
variable (nodes) in
theorem equivalence_atNodes (hP : Equivalence P) : Equivalence (AtNodes nodes P) := by
  constructor
  · exact fun i => .inl rfl
  · rintro i j (rfl | ⟨a, b, hi, hj, hab⟩)
    · exact .inl rfl
    · exact .inr ⟨b, a, hj, hi, hP.symm hab⟩
  · rintro i j k (rfl | ⟨a, b, hi, hj, hab⟩) hjk
    · exact hjk
    · obtain rfl | ⟨b', c, hj', hk, hbc⟩ := hjk
      · exact .inr ⟨a, b, hi, hj, hab⟩
      · obtain rfl := Option.some.inj (hj.symm.trans hj')
        exact .inr ⟨a, c, hi, hk, hP.trans hab hbc⟩

theorem within_foldl_joinPair (hP : Equivalence P)
    {pairs : List (Branch R × Branch R)} (hPairs : ∀ pair ∈ pairs, P pair.1 pair.2) {parent : List Nat}
    (h : UnionFind.Within (AtNodes nodes P) parent) :
    UnionFind.Within (AtNodes nodes P) (pairs.foldl (joinPair nodes) parent) := by
  induction pairs generalizing parent with
  | nil => exact h
  | cons pair pairs ih =>
    obtain ⟨hPair, hRest⟩ := List.forall_mem_cons.mp hPairs
    refine ih hRest ?_
    unfold joinPair
    split
    case h_1 x y hx hy =>
      exact h.unionRoots (equivalence_atNodes nodes hP)
        (.inr ⟨pair.1, pair.2, getElem?_of_idxOf? hx, getElem?_of_idxOf? hy, hPair⟩)
    case h_2 => exact h

omit [LinearOrder R] in
theorem within_foldl_joinChannel (hP : Equivalence P)
    (hChannels : ∀ a ∈ nodes, ∀ b ∈ nodes, ∀ k, Touches mergeableChannels a k → Touches mergeableChannels b k → P a b)
    {touches : List (Nat × Bytes)}
    (hTouches : ∀ touch ∈ touches, ∃ b, nodes[touch.1]? = some b ∧ Touches mergeableChannels b touch.2)
    (h : UnionFind.Within (AtNodes nodes P) st.1) (hOwners : ∀ channel owner, st.2.lookup channel = some owner →
      ∃ b, nodes[owner]? = some b ∧ Touches mergeableChannels b channel) :
    UnionFind.Within (AtNodes nodes P) (touches.foldl joinChannel st).1 := by
  induction touches generalizing st with
  | nil => exact h
  | cons touch touches ih =>
    obtain ⟨⟨a, ha, hTouchA⟩, hRest⟩ := List.forall_mem_cons.mp hTouches
    rw [List.foldl_cons]
    cases hLookup : st.2.lookup touch.2 with
    | some owner =>
      obtain ⟨b, hb, hTouchB⟩ := hOwners _ _ hLookup
      have hab : P a b :=
        hChannels a (List.mem_of_getElem? ha) b (List.mem_of_getElem? hb) touch.2 hTouchA hTouchB
      rw [joinChannel, hLookup]
      exact ih hRest (h.unionRoots (equivalence_atNodes nodes hP) (.inr ⟨a, b, ha, hb, hab⟩)) hOwners
    | none =>
      rw [joinChannel, hLookup]
      refine ih hRest h fun channel owner hOwner => ?_
      obtain rfl | hNe := eq_or_ne channel touch.2
      · rw [AList.lookup_insert] at hOwner
        exact ⟨a, Option.some.inj hOwner ▸ ha, hTouchA⟩
      · exact hOwners channel owner (by rwa [AList.lookup_insert_ne hNe] at hOwner)

variable (m nodes) in
theorem related_of_mem_branchGroups (hP : Equivalence P) (hConflicts : ∀ a b, m.Related a b → P a b)
    (hChannels : ∀ a ∈ nodes, ∀ b ∈ nodes, ∀ k, Touches mergeableChannels a k → Touches mergeableChannels b k → P a b)
    {g : List (Branch R)} (hg : g ∈ branchGroups orders mergeableChannels m nodes) {a : Branch R} (ha : a ∈ g)
    (hb : b ∈ g) : P a b := by
  have hr := equivalence_atNodes nodes hP
  have hJoined : UnionFind.Within (AtNodes nodes P) (joinConflicts orders m nodes (List.range nodes.length)) := by
    refine within_foldl_joinPair hP (fun pair hPair => ?_) (UnionFind.within_range hr _)
    obtain ⟨⟨key, related⟩, hEntry, hIn⟩ := List.mem_flatMap.mp hPair
    obtain ⟨other, hOther, rfl⟩ := List.mem_map.mp hIn
    exact hConflicts _ _ ⟨related, AList.mem_lookup_iff.mpr hEntry, orders.branches.mem_iter.mp hOther⟩
  have hWithin : UnionFind.Within (AtNodes nodes P)
      (joinChannels orders mergeableChannels nodes (joinConflicts orders m nodes (List.range nodes.length))) :=
    within_foldl_joinChannel mergeableChannels hP hChannels
      (fun touch hTouch => (mem_channelTouches orders mergeableChannels).mp hTouch) hJoined
      fun _ _ hOwner => absurd hOwner (by simp)
  simp only [branchGroups, rejectionGroups, List.map_map, List.mem_map] at hg
  obtain ⟨⟨root, members⟩, hEntry, rfl⟩ := hg
  have hRoot : ∀ {c}, c ∈ members.filterMap (nodes[·]?) → ∃ i : Nat, nodes[i]? = some c ∧ AtNodes nodes P i root := by
    intro c hc
    obtain ⟨i, hi, hGet⟩ := List.mem_filterMap.mp hc
    refine ⟨i, hGet, hWithin.of_mem_groups hr ?_⟩
    rw [show (UnionFind.groups _).lookup root = some members from AList.mem_lookup_iff.mpr hEntry]
    exact hi
  obtain ⟨i, hi, hiRoot⟩ := hRoot ha
  obtain ⟨j, hj, hjRoot⟩ := hRoot hb
  obtain rfl | ⟨a', b', hi', hj', hab⟩ := hr.trans hiRoot (hr.symm hjRoot)
  · obtain rfl := Option.some.inj (hi.symm.trans hj)
    exact hP.refl a
  · obtain rfl := Option.some.inj (hi.symm.trans hi')
    obtain rfl := Option.some.inj (hj.symm.trans hj')
    exact hab

end unionFind

end F1r3Node.Merging
