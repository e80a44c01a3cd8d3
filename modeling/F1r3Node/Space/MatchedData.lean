import F1r3Node.Space.StoreEffects
import F1r3Node.Lib.EraseAscending

/-! # What a COMM takes out of the store

The matcher records each matched datum by its index in the vector it was read from, and the store removes the matched
data of a channel one index after another.
-/

namespace F1r3Node.Space

open HotStore RSpace Lib

variable {C P A K : Type} [DecidableEq C]

def Leaves (channel : C) (cand : ConsumeCandidate C A) : Prop :=
  cand.channel = channel ∧ cand.datum.persist = false ∧ 0 ≤ cand.datumIndex

instance (channel : C) (cand : ConsumeCandidate C A) : Decidable (Leaves channel cand) :=
  inferInstanceAs (Decidable (_ ∧ _ ∧ _))

def listed (channel : C) (cands : List (ConsumeCandidate C A)) : List (Datum A) :=
  (cands.filter (Leaves channel ·)).map fun cand => cand.origin.1

/-- The indices that the store removes on a channel, in the order in which it removes them. -/
def positions (channel : C) (cands : List (ConsumeCandidate C A)) : List Nat :=
  ((sortByIndex cands).filter (Leaves channel ·)).map fun cand => cand.datumIndex.toNat

def RemovesExactly (cands : List (ConsumeCandidate C A)) (before after : HotStore C P A K) : Prop :=
  ∀ channel, ((after.storedData channel : List (Datum A)) : Multiset (Datum A)) +
    ↑(listed channel cands) = ↑(before.storedData channel)

/-- On each channel, the data one place further along for each earlier removal are a rearrangement
of the data at the matched indices. -/
def ShiftsAgree (cands : List (ConsumeCandidate C A)) (before : HotStore C P A K) : Prop :=
  ∀ channel, (shifted (positions channel cands) (before.storedData channel)).Perm
    (meant (positions channel cands) (before.storedData channel))

theorem storedData_removeDatum (s : HotStore C P A K) (channel channel' : C) (index : Int) :
    (s.removeDatum channel' index).2.storedData channel =
      if channel' = channel ∧ 0 ≤ index then (s.storedData channel).eraseIdx index.toNat
      else s.storedData channel := by
  rw [removeDatum]
  by_cases hSame : channel = channel'
  · subst hSame
    by_cases hOut : outOfBounds index (s.storedData channel)
    · rw [if_pos hOut, storedData_withData, if_pos rfl]
      split_ifs with hNonneg
      · rcases hOut with hNeg | hLength
        · omega
        · rw [List.eraseIdx_of_length_le (by omega)]
      · rfl
    · have hNonneg : 0 ≤ index := not_lt.mp fun h => hOut (.inl h)
      rw [if_neg hOut, storedData_withData, if_pos rfl, if_pos ⟨rfl, hNonneg⟩]
  · have hOther : ¬ (channel' = channel ∧ 0 ≤ index) := fun h => hSame h.1.symm
    rw [if_neg hOther]
    split_ifs
    · rw [storedData_withData, if_neg hSame]
    · rw [storedData_withData, if_neg hSame]

theorem storedData_foldl (f : HotStore C P A K → ConsumeCandidate C A → HotStore C P A K) (channel : C)
    (hStep : ∀ s cand, (f s cand).storedData channel =
      if Leaves channel cand then (s.storedData channel).eraseIdx cand.datumIndex.toNat
      else s.storedData channel)
    (cands : List (ConsumeCandidate C A)) (s : HotStore C P A K) :
    (cands.foldl f s).storedData channel =
      eraseAll ((cands.filter (Leaves channel ·)).map fun cand => cand.datumIndex.toNat)
        (s.storedData channel) := by
  induction cands generalizing s with
  | nil => rfl
  | cons cand cands ih =>
    rw [List.foldl_cons, ih, hStep, List.filter_cons]
    by_cases hLeaves : Leaves channel cand
    · rw [if_pos hLeaves, if_pos (decide_eq_true hLeaves)]
      rfl
    · rw [if_neg hLeaves, if_neg (by simpa using hLeaves)]

theorem storedData_storePersistentData (cands : List (ConsumeCandidate C A)) (s : HotStore C P A K)
    (channel : C) :
    (storePersistentData cands s).storedData channel =
      eraseAll (positions channel cands) (s.storedData channel) := by
  apply storedData_foldl
  intro s cand
  cases hPersist : cand.datum.persist with
  | true => simp [Leaves, hPersist]
  | false => simp [Leaves, hPersist, storedData_removeDatum]

theorem storedData_removeMatchedDatumAndJoin (channels : List C)
    (cands : List (ConsumeCandidate C A)) (s : HotStore C P A K) (channel : C) :
    (removeMatchedDatumAndJoin channels cands s).storedData channel =
      eraseAll (positions channel cands) (s.storedData channel) := by
  apply storedData_foldl
  intro s cand
  have hRemove := storedData_removeDatum s channel cand.channel cand.datumIndex
  by_cases hStored : (0 : Int) ≤ cand.datumIndex ∧ cand.datum.persist = false
  · have hIff : Leaves channel cand ↔ cand.channel = channel ∧ 0 ≤ cand.datumIndex :=
      ⟨fun h => ⟨h.1, h.2.2⟩, fun h => ⟨h.1, hStored.2, h.2⟩⟩
    simp only [if_pos hStored, hIff, ← hRemove]
    split
    next hEq => rw [hEq]
    next hEq => rw [hEq, storedData_removeJoin]
  · have hNot : ¬ Leaves channel cand := fun h => hStored ⟨h.2.2, h.2.1⟩
    rw [if_neg hStored, if_neg hNot, storedData_removeJoin]

theorem storedData_retire (pc : ProduceCandidate C P A K) (s : HotStore C P A K) (op : Op C P A K)
    (channel : C) :
    (retire pc s op).storedData channel =
      eraseAll (positions channel pc.dataCandidates) (s.storedData channel) := by
  cases op with
  | consume channels patterns continuation persist peeks =>
    exact storedData_storePersistentData pc.dataCandidates s channel
  | produce channel' data persist =>
    rw [retire, storedData_removeMatchedDatumAndJoin]
    split_ifs
    · rfl
    · rw [storedData_removeContinuation]

theorem leaving_perm (channel : C) (cands : List (ConsumeCandidate C A)) :
    ((sortByIndex cands).filter (Leaves channel ·)).Perm (cands.filter (Leaves channel ·)) :=
  (List.perm_insertionSort _ cands).filter _

theorem leaving_sublist (channel : C) (cands : List (ConsumeCandidate C A)) :
    ((cands.filter (Leaves channel ·)).map ConsumeCandidate.origin).Sublist (takenFrom channel cands) := by
  refine List.Sublist.map _ (List.monotone_filter_right cands ?_)
  intro cand hLeaves
  have h := of_decide_eq_true hLeaves
  exact decide_eq_true ⟨h.1, h.2.1⟩

section offered

variable {channel : C} {cands : List (ConsumeCandidate C A)} {data : List (Datum A)}
  {offer : IndexedData A} (hOffer : OfferOf data offer) (hTaken : (takenFrom channel cands).Subperm offer)

include hOffer hTaken

theorem getElem?_of_leaving {cand : ConsumeCandidate C A}
    (hMem : cand ∈ (sortByIndex cands).filter (Leaves channel ·)) :
    data[cand.datumIndex.toNat]? = some cand.origin.1 := by
  have hMem' := (leaving_perm channel cands).subset hMem
  have hOffered := hTaken.subset ((leaving_sublist channel cands).subset (List.mem_map_of_mem hMem'))
  exact hOffer.getElem?_eq hOffered (of_decide_eq_true (List.mem_filter.mp hMem').2).2.2

theorem nodup_leaving :
    ((cands.filter (Leaves channel ·)).map fun cand => cand.datumIndex).Nodup := by
  obtain ⟨part, hPerm, hPart⟩ := hTaken
  have hTakenNodup : ((takenFrom channel cands).map Prod.snd).Nodup :=
    (hPerm.map Prod.snd).nodup_iff.mp ((hPart.map Prod.snd).nodup hOffer.nodup)
  have hAll := ((leaving_sublist channel cands).map Prod.snd).nodup hTakenNodup
  rwa [List.map_map] at hAll

theorem positions_ascending :
    (positions channel cands).Pairwise (· < ·) := by
  have hNodup : (((sortByIndex cands).filter (Leaves channel ·)).map
      fun cand => cand.datumIndex).Nodup :=
    ((leaving_perm channel cands).map _).nodup_iff.mpr (nodup_leaving hOffer hTaken)
  have hSorted : ((sortByIndex cands).filter (Leaves channel ·)).Pairwise
      fun a b => a.datumIndex ≤ b.datumIndex := by
    have : Std.Total fun a b : ConsumeCandidate C A => a.datumIndex ≤ b.datumIndex :=
      ⟨fun a b => le_total a.datumIndex b.datumIndex⟩
    have : IsTrans (ConsumeCandidate C A) fun a b => a.datumIndex ≤ b.datumIndex :=
      ⟨fun a b c => le_trans⟩
    exact (List.pairwise_insertionSort _ cands).filter _
  rw [positions, List.pairwise_map]
  have hStrict := hSorted.and (List.pairwise_map.mp hNodup)
  refine hStrict.imp_of_mem ?_
  intro a b ha _ hab
  have hNonneg := (of_decide_eq_true (List.mem_filter.mp ha).2).2.2
  have hLt := lt_of_le_of_ne hab.1 hab.2
  omega

theorem meant_positions :
    (meant (positions channel cands) data).reduceOption.Perm (listed channel cands) := by
  have hMeant : meant (positions channel cands) data =
      ((sortByIndex cands).filter (Leaves channel ·)).map fun cand => some cand.origin.1 := by
    rw [meant, positions, List.map_map]
    exact List.map_congr_left fun cand hMem => getElem?_of_leaving hOffer hTaken hMem
  have hReduce : (((sortByIndex cands).filter (Leaves channel ·)).map
      fun cand => some cand.origin.1).reduceOption =
      ((sortByIndex cands).filter (Leaves channel ·)).map fun cand => cand.origin.1 := by
    simp [List.reduceOption, List.filterMap_map]
  rw [hMeant, hReduce]
  exact (leaving_perm channel cands).map _

theorem positions_lt_length :
    ∀ i ∈ positions channel cands, i < data.length := by
  intro i hi
  obtain ⟨cand, hMem, rfl⟩ := List.mem_map.mp hi
  exact (List.getElem?_eq_some_iff.mp (getElem?_of_leaving hOffer hTaken hMem)).1

end offered

variable {env : SpaceEnv C P A K} {s : HotStore C P A K} {pc : ProduceCandidate C P A K}

theorem subperm_of_selected
    (hSelected : Selected env s pc) (channel : C) :
    ∃ offer, OfferOf (s.storedData channel) offer ∧
      (takenFrom channel pc.dataCandidates).Subperm offer := by
  obtain ⟨data, hData, hExtract⟩ := hSelected.extracted
  obtain ⟨offer, hOffer, hSub⟩ := hData channel
  exact ⟨offer, hOffer, (takenFrom_subperm hExtract channel).trans hSub.subperm⟩

theorem removesExactly_retire_iff {before : HotStore C P A K}
    {op : Op C P A K} (hSelected : Selected env before pc)
    (hView : SameView s before) :
    RemovesExactly pc.dataCandidates before (retire pc s op) ↔ ShiftsAgree pc.dataCandidates before := by
  refine forall_congr' fun channel => ?_
  obtain ⟨offer, hOffer, hTaken⟩ := subperm_of_selected hSelected channel
  have hListed := Multiset.coe_eq_coe.mpr (meant_positions hOffer hTaken)
  rw [storedData_retire, hView.data, ← hListed]
  exact coe_eraseAll_add_meant_iff (positions_ascending hOffer hTaken)
    (positions_lt_length hOffer hTaken)

theorem shiftsAgree_of_length_le_one {cands : List (ConsumeCandidate C A)}
    (hLength : ∀ channel, (cands.filter (Leaves channel ·)).length ≤ 1) (s : HotStore C P A K) :
    ShiftsAgree cands s := by
  intro channel
  apply shifted_perm_meant_of_length_le_one
  rw [positions, List.length_map, (leaving_perm channel cands).length_eq]
  exact hLength channel

theorem shiftsAgree_of_nodup
    (hSelected : Selected env s pc) (hNodup : pc.channels.Nodup) :
    ShiftsAgree pc.dataCandidates s := by
  apply shiftsAgree_of_length_le_one
  intro channel
  have hChannels := (List.filter_sublist (p := (Leaves channel ·))).map ConsumeCandidate.channel
    |>.nodup (hSelected.nodup_channels hNodup)
  rw [← List.length_map ConsumeCandidate.channel]
  have hSame : ∀ c ∈ (pc.dataCandidates.filter (Leaves channel ·)).map ConsumeCandidate.channel,
      c = channel := by
    intro c hc
    obtain ⟨cand, hMem, rfl⟩ := List.mem_map.mp hc
    exact (of_decide_eq_true (List.mem_filter.mp hMem).2).1
  rw [List.eq_replicate_of_mem hSame] at hChannels
  exact List.nodup_replicate.mp hChannels

section repeated

variable [Inhabited P] [Inhabited A] [Inhabited K]

def acceptingEnv : SpaceEnv C P A K where
  blake := Shared.paddingDigest
  encodeChannel _ := []
  encodePattern _ := []
  encodeDatum _ := []
  encodeContinuation _ := []
  get _ a := some a
  checkCommit _ _ := true

def stockedStore (channels : List C) : HotStore C P A K :=
  createFromHr ⟨fun c => List.replicate (channels.count c) (datumOf (acceptingEnv (P := P) (K := K)) c default false),
    fun _ => [], fun _ => []⟩

omit [Inhabited P] [Inhabited A] [Inhabited K] in
theorem extract_isSome_of_count_le {pairs : List (C × P)} {data : C → IndexedData A}
    (hCount : ∀ c, (pairs.map Prod.fst).count c ≤ (data c).length) :
    (extractDataCandidates (acceptingEnv (C := C) (K := K)) pairs data).isSome := by
  induction pairs generalizing data with
  | nil => rfl
  | cons pair pairs ih =>
    obtain ⟨channel, pattern⟩ := pair
    have hHead := hCount channel
    rw [List.map_cons, List.count_cons_self] at hHead
    cases hData : data channel with
    | nil => simp [hData] at hHead
    | cons item rest =>
      obtain ⟨datum, index⟩ := item
      rw [hData, List.length_cons] at hHead
      rw [extractDataCandidates_cons, hData, findMatchingDataCandidate]
      change ((extractDataCandidates _ pairs (Function.update data channel
        (if datum.persist then (datum, index) :: rest else rest))).map _).isSome
      rw [Option.isSome_map]
      apply ih
      intro c
      by_cases hSame : c = channel
      · subst hSame
        rw [Function.update_self]
        split_ifs
        · rw [List.length_cons]
          omega
        · omega
      · have hOther := hCount c
        rw [List.map_cons, List.count_cons_of_ne (Ne.symm hSame)] at hOther
        rwa [Function.update_of_ne hSame]

def repeatedConsume (channels : List C) : Op C P A K :=
  .consume channels (List.replicate channels.length default) default false ∅

theorem selected_repeatedConsume (channels : List C) :
    ∃ pc, selected acceptingEnv (Shuffle.refl C P A K) (stockedStore channels)
      (repeatedConsume channels) = some pc ∧ pc.channels = channels ∧
      pc.dataCandidates.map ConsumeCandidate.channel = channels ∧
      ∀ cand ∈ pc.dataCandidates, Leaves cand.channel cand := by
  have hFst : (channels.zip (List.replicate channels.length (default : P))).map Prod.fst = channels :=
    List.map_fst_zip (by simp)
  have hCount : ∀ c, ((channels.zip (List.replicate channels.length (default : P))).map Prod.fst).count c ≤
      (fetchChannelToIndexData (Shuffle.refl C P A K) (stockedStore channels) c).length := by
    intro c
    rw [hFst]
    simp [fetchChannelToIndexData, Shuffle.refl, withIndex, stockedStore, createFromHr, storedData]
  obtain ⟨cands, hExtract⟩ := Option.isSome_iff_exists.mp (extract_isSome_of_count_le (K := K) hCount)
  have hSelected : selected acceptingEnv (Shuffle.refl C P A K) (stockedStore channels)
      (repeatedConsume channels) = some ⟨channels, waiting (acceptingEnv (A := A)) channels
        (List.replicate channels.length default) default false ∅, 0, cands⟩ := by
    rewrite [repeatedConsume, selected, hExtract]
    rfl
  refine ⟨_, hSelected, rfl, (map_channel_of_extract hExtract).trans hFst, ?_⟩
  intro cand hMem
  obtain ⟨pair, -, hOffered⟩ := exists_offered_of_extract hExtract hMem
  obtain ⟨n, hIndex, hItem⟩ := mem_withIndex.mp hOffered.mem
  have hDatum := List.eq_of_mem_replicate (List.mem_of_getElem? hItem)
  refine ⟨rfl, congrArg Datum.persist hDatum, ?_⟩
  change (0 : Int) ≤ cand.origin.2
  omega

omit [Inhabited P] [Inhabited A] [Inhabited K] in
theorem length_positions_of_leaves {cands : List (ConsumeCandidate C A)}
    (hLeaves : ∀ cand ∈ cands, Leaves cand.channel cand) (channel : C) :
    (positions channel cands).length = (cands.map ConsumeCandidate.channel).count channel := by
  rw [positions, List.length_map, (leaving_perm channel cands).length_eq, List.count, List.countP_map,
    List.countP_eq_length_filter]
  congr 1
  apply List.filter_congr
  intro cand hMem
  have hOwn := hLeaves cand hMem
  simp [Leaves, hOwn.2.1, hOwn.2.2, Bool.beq_eq_decide_eq]

omit [Inhabited P] [Inhabited K] in
theorem not_shiftsAgree_repeated {channels : List C} (hRepeated : ¬ channels.Nodup)
    {pc : ProduceCandidate C P A K} (hSelected : Selected acceptingEnv (stockedStore channels) pc)
    (hChannels : pc.dataCandidates.map ConsumeCandidate.channel = channels)
    (hLeaves : ∀ cand ∈ pc.dataCandidates, Leaves cand.channel cand) :
    ¬ ShiftsAgree pc.dataCandidates (stockedStore channels : HotStore C P A K) := by
  intro hAgree
  obtain ⟨channel, hTwo⟩ : ∃ channel, 1 < channels.count channel := by
    by_contra hAll
    exact hRepeated (List.nodup_iff_count_le_one.mpr fun c => not_lt.mp fun h => hAll ⟨c, h⟩)
  obtain ⟨offer, hOffer, hTaken⟩ := subperm_of_selected hSelected channel
  have hLength : ((stockedStore channels : HotStore C P A K).storedData channel).length =
      channels.count channel := List.length_replicate
  refine not_shifted_perm_meant (positions_ascending hOffer hTaken) (positions_lt_length hOffer hTaken)
    ?_ ?_ (hAgree channel)
  · rw [length_positions_of_leaves hLeaves, hChannels, hLength]
  · rwa [hLength]

end repeated

/-- A match takes away exactly the data it lists if and only if the shifted removals on each channel
hit equal data, and it does so for every state and every matcher on precisely the joins that
name no channel twice. -/
theorem removesExactly_iff [DecidableEq P] [DecidableEq K] [Inhabited P] [Inhabited A] [Inhabited K] :
    (∀ (env : SpaceEnv C P A K) (sh : Shuffle C P A K) (st st' : RSpace C P A K) (op : Op C P A K)
      (result : ContResult C P K × List (RSpaceResult C A)) (pc : ProduceCandidate C P A K),
      st.step env sh op = .ok (some result, st') → selected env sh st.store op = some pc →
        result = wrapResult pc.channels pc.continuation pc.dataCandidates ∧
        (RemovesExactly pc.dataCandidates st.store st'.store ↔
          ShiftsAgree pc.dataCandidates st.store)) ∧
    ∀ channels : List C,
      (∀ (env : SpaceEnv C P A K) (sh : Shuffle C P A K) (st st' : RSpace C P A K) (op : Op C P A K)
        (result : ContResult C P K × List (RSpaceResult C A)) (pc : ProduceCandidate C P A K),
        st.step env sh op = .ok (some result, st') → selected env sh st.store op = some pc →
        pc.channels = channels → RemovesExactly pc.dataCandidates st.store st'.store) ↔
      channels.Nodup := by
  have hFirst : ∀ (env : SpaceEnv C P A K) (sh : Shuffle C P A K) (st st' : RSpace C P A K)
      (op : Op C P A K) (result : ContResult C P K × List (RSpaceResult C A))
      (pc : ProduceCandidate C P A K),
      st.step env sh op = .ok (some result, st') → selected env sh st.store op = some pc →
        result = wrapResult pc.channels pc.continuation pc.dataCandidates ∧
        (RemovesExactly pc.dataCandidates st.store st'.store ↔
          ShiftsAgree pc.dataCandidates st.store) := by
    intro env sh st st' op result pc hStep hSelected
    cases (step_outcome hStep).2 with
    | fired pc' s hSelected' hView =>
      obtain rfl := Option.some.inj (hSelected'.symm.trans hSelected)
      exact ⟨rfl, removesExactly_retire_iff (selected_spec hSelected) hView⟩
  refine ⟨hFirst, fun channels => ⟨fun hLaw => ?_, fun hNodup => ?_⟩⟩
  · by_contra hRepeated
    obtain ⟨pc, hSelected, hJoin, hChannels, hLeaves⟩ :=
      selected_repeatedConsume (P := P) (A := A) (K := K) channels
    have hAccepted : Accepted (repeatedConsume channels : Op C P A K) := by
      refine ⟨fun hNil => hRepeated (hNil ▸ List.nodup_nil), ?_⟩
      rw [List.length_replicate]
    obtain ⟨result, st', hStep, hIff⟩ := step_of_accepted acceptingEnv (Shuffle.refl C P A K)
      ⟨stockedStore channels, [], fun _ => 0⟩ hAccepted
    obtain ⟨result, rfl⟩ := Option.isSome_iff_exists.mp (hIff.mpr (Option.isSome_of_eq_some hSelected))
    have hExact := hLaw _ _ _ _ _ _ _ hStep hSelected hJoin
    have hAgree := (hFirst _ _ _ _ _ _ _ hStep hSelected).2.mp hExact
    exact not_shiftsAgree_repeated hRepeated (selected_spec hSelected) hChannels hLeaves hAgree
  · intro env sh st st' op result pc hStep hSelected hChannels
    refine (hFirst env sh st st' op result pc hStep hSelected).2.mpr ?_
    exact shiftsAgree_of_nodup (selected_spec hSelected) (hChannels ▸ hNodup)

/-- A space over numbers: the pattern 0 matches everything and any other pattern its own number, and
a guard other than 0 asks for its own number among the matched data. -/
def sampleEnv : SpaceEnv Nat Nat Nat Nat where
  blake := Shared.paddingDigest
  encodeChannel n := [UInt8.ofNat n]
  encodePattern n := [UInt8.ofNat n]
  encodeDatum n := [UInt8.ofNat n]
  encodeContinuation n := [UInt8.ofNat n]
  get p a := if p = 0 ∨ p = a then some a else none
  checkCommit k matched := k = 0 ∨ k ∈ matched

def emptySpace : RSpace Nat Nat Nat Nat := ⟨createFromHr (.empty Nat Nat Nat Nat), [], fun _ => 0⟩

def twoData : RSpace Nat Nat Nat Nat :=
  ((emptySpace.produce sampleEnv (.refl ..) 7 1 false).2.produce sampleEnv (.refl ..) 7 2 false).2

/-- A join that names channel 7 twice fires on both data and leaves one of them in the store. -/
theorem consume_twice_keeps_matched_datum :
    ∃ result st' pc,
      twoData.step sampleEnv (.refl ..) (.consume [7, 7] [0, 0] 0 false ∅) = .ok (some result, st') ∧
      selected sampleEnv (.refl ..) twoData.store (.consume [7, 7] [0, 0] 0 false ∅) = some pc ∧
      ¬ RemovesExactly pc.dataCandidates twoData.store st'.store := by
  refine ⟨_, _, _, rfl, rfl, ?_⟩
  intro hExact
  exact absurd (congrArg Multiset.card (hExact 7)) (by decide)

end F1r3Node.Space
