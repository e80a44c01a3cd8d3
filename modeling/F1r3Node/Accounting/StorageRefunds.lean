import F1r3Node.Accounting.StorageAccounting

/-! # Storage refunds against what leaves the store

What an operation pays and is refunded is exact when the match takes at most one stored datum off each channel and,
for a produce, lists the produced datum exactly once.
-/

namespace F1r3Node.Accounting

open Shared Space HotStore RSpace Lib

variable {Par BindPattern : Type} [DecidableEq Par] {len : EncodedLen Par BindPattern}

abbrev ChargedEnv (Par BindPattern : Type) :=
  SpaceEnv Par BindPattern (ListParWithRandom Par) (TaggedContinuation Par)

abbrev Match (Par BindPattern : Type) :=
  ProduceCandidate Par BindPattern (ListParWithRandom Par) (TaggedContinuation Par)

abbrev Candidate (Par : Type) := ConsumeCandidate Par (ListParWithRandom Par)

section conditions

variable (env : ChargedEnv Par BindPattern)

def opId : SpaceOp Par BindPattern → Option Bytes
  | .consume _ _ continuation _ _ => consumeIdBytes continuation
  | .produce _ data _ => some data.randomState

def Fresh (s : Store Par BindPattern) (op : SpaceOp Par BindPattern) : Prop :=
  ∀ id ∈ opId op, (∀ c, ∀ d ∈ s.storedData c, d.a.randomState ≠ id) ∧
    ∀ cs, ∀ w ∈ (s.getContinuations cs).1, consumeIdBytes w.continuation ≠ some id

def StoredMatch (s : Store Par BindPattern) (bind : Par × BindPattern) : Prop :=
  ∃ d ∈ s.storedData bind.1, (env.get bind.2 d.a).isSome

def OwnMatch (channel : Par) (data : ListParWithRandom Par) (bind : Par × BindPattern) : Prop :=
  bind.1 = channel ∧ (env.get bind.2 data).isSome

instance (channel : Par) (data : ListParWithRandom Par) :
    DecidablePred (OwnMatch env channel data) :=
  fun _ => inferInstanceAs (Decidable (_ ∧ _))

/-- No two binds on one channel are matched by two different stored data that are not persistent. -/
def OneEach (s : Store Par BindPattern) (binds : List (Par × BindPattern)) : Prop :=
  binds.Pairwise fun a b => a.1 = b.1 →
    ∀ x ∈ withIndex (s.storedData a.1), ∀ y ∈ withIndex (s.storedData b.1),
      x.1.persist = false → y.1.persist = false →
      (env.get a.2 x.1.a).isSome → (env.get b.2 y.1.a).isSome → x = y

/-- The operations whose storage charges are exact. For a produce each waiting continuation of each
join of the channel either cannot fire or fires with the produced datum on exactly one of its binds. -/
def Exact (s : Store Par BindPattern) : SpaceOp Par BindPattern → Prop
  | .consume channels patterns _ _ _ =>
    (∃ bind ∈ channels.zip patterns, ¬ StoredMatch env s bind) ∨ OneEach env s (channels.zip patterns)
  | .produce channel data persist =>
    ∀ cs ∈ (s.getJoins channel).1, ∀ w ∈ (s.getContinuations cs).1,
      let binds := cs.zip w.patterns
      (∃ bind ∈ binds, ¬ StoredMatch env s bind ∧ ¬ OwnMatch env channel data bind) ∨
      OneEach env s binds ∧ (persist = false ∨ binds.countP (OwnMatch env channel data) ≤ 1) ∧
        ((∃ bind ∈ binds, ¬ StoredMatch env s bind) ∨
          cs.Nodup ∧ ∃ bind ∈ binds, OwnMatch env channel data bind)

end conditions

variable {env : ChargedEnv Par BindPattern}
  {sh : Shuffle Par BindPattern (ListParWithRandom Par) (TaggedContinuation Par)}

theorem length_leaving_le_one {s : Store Par BindPattern} {pc : Match Par BindPattern}
    (hSelected : Selected env s pc) (hOne : OneEach env s (pc.channels.zip pc.continuation.patterns))
    (channel : Par) : (pc.dataCandidates.filter (Leaves channel ·)).length ≤ 1 := by
  obtain ⟨data, hData, hExtract⟩ := hSelected.extracted
  have hStored : ∀ {bind : Par × BindPattern} {cand : Candidate Par}, Offered env data bind cand →
      Leaves channel cand → cand.origin ∈ withIndex (s.storedData bind.1) := by
    intro bind cand hOffered hLeaves
    obtain ⟨offer, hOffer, hSub⟩ := hData bind.1
    exact hOffer.stored (hSub.subset hOffered.mem) hLeaves.2.2
  have hSame : pc.dataCandidates.Pairwise fun a b =>
      Leaves channel a → Leaves channel b → a.datumIndex = b.datumIndex := by
    refine pairwise_of_forall₂ ?_ (offered_of_extract hExtract) hOne
    intro bind bind' cand cand' hBinds hOffered hOffered' hLeaves hLeaves'
    have hChannel : bind.1 = bind'.1 := by
      rw [← hOffered.channel_eq, ← hOffered'.channel_eq, hLeaves.1, hLeaves'.1]
    have hOrigin := hBinds hChannel _ (hStored hOffered hLeaves) _ (hStored hOffered' hLeaves')
      hLeaves.2.1 hLeaves'.2.1 (Option.isSome_of_eq_some hOffered.matches_eq)
      (Option.isSome_of_eq_some hOffered'.matches_eq)
    exact congrArg Prod.snd hOrigin
  obtain ⟨offer, hOffer, hTaken⟩ := subperm_of_selected hSelected channel
  have hNodup := List.pairwise_map.mp (nodup_leaving hOffer hTaken)
  have hFiltered := List.pairwise_filter.mpr (hSame.imp fun h ha hb =>
    h (of_decide_eq_true ha) (of_decide_eq_true hb))
  have hNone := hNodup.and hFiltered
  match hList : pc.dataCandidates.filter (Leaves channel ·) with
  | [] => simp
  | [_] => simp
  | a :: b :: rest =>
    rw [hList] at hNone
    have hPair := (List.pairwise_cons.mp hNone).1 b List.mem_cons_self
    exact absurd hPair.2 hPair.1

def FromStore (s : Store Par BindPattern) (cand : Candidate Par) : Prop :=
  0 ≤ cand.datumIndex ∧ cand.origin.1 ∈ s.storedData cand.channel

theorem fromStore_of_mem {s : Store Par BindPattern} {cand : Candidate Par}
    (hMem : cand.origin ∈ withIndex (s.storedData cand.channel)) : FromStore s cand := by
  obtain ⟨n, hIndex, hItem⟩ := mem_withIndex.mp hMem
  replace hIndex : cand.datumIndex = n := hIndex
  exact ⟨by omega, List.mem_of_getElem? hItem⟩

def IsOwn (channel : Par) (data : ListParWithRandom Par) (persist : Bool) (cand : Candidate Par) : Prop :=
  cand.datumIndex = -1 ∧ cand.channel = channel ∧ cand.removedDatum = data ∧ cand.datum.persist = persist

variable {cands : List (Candidate Par)}

variable {binds : List (Par × BindPattern)}

theorem fromStore_of_consume {s : Store Par BindPattern}
    (hExtract : extractDataCandidates env binds (fetchChannelToIndexData sh s) = some cands) :
    ∀ cand ∈ cands, FromStore s cand := by
  intro cand hMem
  obtain ⟨bind, -, hOffered⟩ := exists_offered_of_extract hExtract hMem
  apply fromStore_of_mem
  rw [hOffered.channel_eq]
  exact (sh.perm_data 0 bind.1 _).subset hOffered.mem

theorem storedMatch_of_consume {s : Store Par BindPattern}
    (hExtract : extractDataCandidates env binds (fetchChannelToIndexData sh s) = some cands)
    {bind : Par × BindPattern} (hBind : bind ∈ binds) : StoredMatch env s bind := by
  obtain ⟨cand, hCand, hOffered⟩ := exists_right_of_forall₂ (offered_of_extract hExtract) hBind
  have hStored := (fromStore_of_consume hExtract cand hCand).2
  rw [hOffered.channel_eq] at hStored
  exact ⟨_, hStored, Option.isSome_of_eq_some hOffered.matches_eq⟩

section produce

variable {s : Store Par BindPattern} {channel : Par} {data : ListParWithRandom Par} {persist : Bool}

variable (env sh) in
theorem fromStore_or_isOwn (n : Nat) {cand : Candidate Par}
    (hMem : cand.origin ∈ fetchMatchingData sh s channel (datumOf env channel data persist) n cand.channel) :
    FromStore s cand ∨ IsOwn channel data persist cand := by
  rw [fetchMatchingData] at hMem
  split_ifs at hMem with hChannel
  · rcases List.mem_cons.mp hMem with hOwn | hMem
    · obtain ⟨hDatum, hIndex⟩ := Prod.mk.inj hOwn
      refine .inr ⟨hIndex, hChannel, congrArg Datum.a hDatum, congrArg Datum.persist hDatum⟩
    · exact .inl (fromStore_of_mem ((sh.perm_data n _ _).subset hMem))
  · exact .inl (fromStore_of_mem ((sh.perm_data n _ _).subset hMem))

structure Fires (env : ChargedEnv Par BindPattern) (s : Store Par BindPattern) (channel : Par)
    (data : ListParWithRandom Par) (persist : Bool) (pc : Match Par BindPattern) : Prop where
  join : pc.channels ∈ (s.getJoins channel).1
  waits : (pc.continuation, pc.continuationIndex) ∈ withIndex (s.getContinuations pc.channels).1
  binds : List.Forall₂ (fun bind cand => cand.channel = bind.1 ∧
      env.get bind.2 cand.removedDatum = some cand.datum.a ∧
      (FromStore s cand ∨ IsOwn channel data persist cand))
    (pc.channels.zip pc.continuation.patterns) pc.dataCandidates
  channels_eq : pc.dataCandidates.map ConsumeCandidate.channel =
    (pc.channels.zip pc.continuation.patterns).map Prod.fst
  own_once : persist = false → pc.dataCandidates.countP (·.datumIndex < 0) ≤ 1
  own_first : pc.channels.Nodup →
    (∃ bind ∈ pc.channels.zip pc.continuation.patterns, OwnMatch env channel data bind) →
    ∃ cand ∈ pc.dataCandidates, cand.datumIndex = -1

variable (data) in
theorem countP_own_le {cands : List (Candidate Par)} {offer : IndexedData (ListParWithRandom Par)}
    {stored : List (Datum (ListParWithRandom Par))} (hOffer : OfferOf stored offer)
    (hTaken : (takenFrom channel cands).Subperm offer)
    (hOwn : ∀ cand ∈ cands, cand.datumIndex < 0 → IsOwn channel data false cand) :
    cands.countP (·.datumIndex < 0) ≤ 1 := by
  obtain ⟨part, hPerm, hPart⟩ := hTaken
  have hNodup : ((takenFrom channel cands).map Prod.snd).Nodup :=
    (hPerm.map Prod.snd).nodup_iff.mp ((hPart.map Prod.snd).nodup hOffer.nodup)
  refine le_trans ?_ (List.nodup_iff_count_le_one.mp hNodup (-1))
  rw [takenFrom, List.map_map, List.count, List.countP_map, List.countP_filter]
  refine List.countP_mono_left fun cand hMem hNeg => ?_
  obtain ⟨hIndex, hChannel, -, hPersist⟩ := hOwn cand hMem (of_decide_eq_true hNeg)
  simp [ConsumeCandidate.origin, hIndex, hChannel, hPersist]

theorem IsOwn.or_of_neg {cand : Candidate Par} (h : FromStore s cand ∨ IsOwn channel data persist cand)
    (hNeg : cand.datumIndex < 0) : IsOwn channel data persist cand := by
  rcases h with hStored | hOwn
  · exact absurd hStored.1 (not_le.mpr hNeg)
  · exact hOwn

theorem fires_of_selected {pc : Match Par BindPattern}
    (hSelected : selected env sh s (.produce channel data persist) = some pc) :
    Fires env s channel data persist pc := by
  obtain ⟨n, hJoin, hExtract⟩ := exists_of_selected_produce hSelected
  obtain ⟨-, hMem, -, data', hSub, hExtracted⟩ := firstMatch_of_extract hExtract
  have hBinds : List.Forall₂ (fun bind cand => cand.channel = bind.1 ∧
      env.get bind.2 cand.removedDatum = some cand.datum.a ∧
      (FromStore s cand ∨ IsOwn channel data persist cand))
      (pc.channels.zip pc.continuation.patterns) pc.dataCandidates := by
    refine (offered_of_extract hExtracted).imp fun bind cand hOffered => ⟨hOffered.channel_eq,
      hOffered.matches_eq, fromStore_or_isOwn env sh n ?_⟩
    rw [hOffered.channel_eq]
    exact (hSub bind.1).subset hOffered.mem
  refine ⟨hJoin, (sh.perm_continuations n _).subset hMem, hBinds,
    map_channel_of_extract hExtracted, fun hPersist => ?_, ?_⟩
  · subst hPersist
    obtain ⟨offer, hOffer, hTaken⟩ := subperm_of_selected (selected_spec hSelected) channel
    refine countP_own_le data hOffer hTaken fun cand hCand hNeg => ?_
    obtain ⟨bind, -, -, -, hFrom⟩ := exists_left_of_forall₂ hBinds hCand
    exact IsOwn.or_of_neg hFrom hNeg
  · rintro hNodup ⟨bind, hBind, hChannel, hGet⟩
    have hFirst : fetchMatchingData sh s channel (datumOf env channel data persist) n bind.1 =
        (datumOf env channel data persist, -1) :: sh.data n bind.1 (withIndex (s.storedData bind.1)) := by
      rw [fetchMatchingData, if_pos hChannel]
    exact exists_cand_of_first ((prefix_map_fst_zip _ _).sublist.nodup hNodup)
      (extract_of_firstMatch hNodup hExtract) hBind hFirst hGet

section

variable {pc : Match Par BindPattern} (h : Fires env s channel data persist pc)

include h

theorem Fires.mem_getContinuations :
    pc.continuation ∈ (s.getContinuations pc.channels).1 := by
  obtain ⟨n, -, hItem⟩ := mem_withIndex.mp h.waits
  exact List.mem_of_getElem? hItem

theorem Fires.own_of_unmatched {bind : Par × BindPattern} (hBind : bind ∈ pc.channels.zip pc.continuation.patterns)
    (hNone : ¬ StoredMatch env s bind) :
    ∃ cand ∈ pc.dataCandidates, IsOwn channel data persist cand ∧ OwnMatch env channel data bind := by
  obtain ⟨cand, hCand, hChannel, hGet, hFrom⟩ := exists_right_of_forall₂ h.binds hBind
  rcases hFrom with hStored | hOwn
  · exact absurd ⟨_, hChannel ▸ hStored.2, Option.isSome_of_eq_some hGet⟩ hNone
  · refine ⟨cand, hCand, hOwn, hChannel.symm.trans hOwn.2.1, ?_⟩
    rw [← hOwn.2.2.1]
    exact Option.isSome_of_eq_some hGet

theorem Fires.exact (hExact : Exact env s (.produce channel data persist)) :
    OneEach env s (pc.channels.zip pc.continuation.patterns) ∧
      (persist = false ∨ (pc.channels.zip pc.continuation.patterns).countP (OwnMatch env channel data) ≤ 1) ∧
      ((∃ bind ∈ pc.channels.zip pc.continuation.patterns, ¬ StoredMatch env s bind) ∨
        pc.channels.Nodup ∧
          ∃ bind ∈ pc.channels.zip pc.continuation.patterns, OwnMatch env channel data bind) := by
  rcases hExact pc.channels h.join pc.continuation h.mem_getContinuations with
    ⟨bind, hBind, hNone, hNotOwn⟩ | hFires
  · obtain ⟨-, -, -, hOwn⟩ := h.own_of_unmatched hBind hNone
    exact absurd hOwn hNotOwn
  · exact hFires

theorem Fires.countP_own (hExact : Exact env s (.produce channel data persist)) :
    pc.dataCandidates.countP (·.datumIndex < 0) = 1 := by
  obtain ⟨-, hAtMost, hAtLeast⟩ := h.exact hExact
  apply le_antisymm
  · rcases hAtMost with hPersist | hCount
    · exact h.own_once hPersist
    · refine le_trans (countP_le_of_forall₂ ?_ h.binds) hCount
      rintro bind cand ⟨hChannel, hGet, hFrom⟩ hNeg
      have hOwn := IsOwn.or_of_neg hFrom (of_decide_eq_true hNeg)
      refine decide_eq_true ⟨hChannel.symm.trans hOwn.2.1, ?_⟩
      rw [← hOwn.2.2.1]
      exact Option.isSome_of_eq_some hGet
  · have hExists : ∃ cand ∈ pc.dataCandidates, cand.datumIndex = -1 := by
      rcases hAtLeast with ⟨bind, hBind, hNone⟩ | ⟨hNodup, hOwn⟩
      · obtain ⟨cand, hCand, hOwn, -⟩ := h.own_of_unmatched hBind hNone
        exact ⟨cand, hCand, hOwn.1⟩
      · exact h.own_first hNodup hOwn
    obtain ⟨cand, hCand, hIndex⟩ := hExists
    refine List.countP_pos_iff.mpr ⟨cand, hCand, ?_⟩
    simp [hIndex]

end

end produce

omit [DecidableEq Par] in
theorem refund_eq (len : EncodedLen Par BindPattern) (id : Bytes) (ownCost : Int) {channels : List Par}
    (hChannels : cands.map ConsumeCandidate.channel <+: channels)
    (hCands : ∀ cand ∈ cands, 0 ≤ cand.datumIndex ∧ cand.removedDatum.randomState ≠ id ∨
      cand.datumIndex < 0 ∧ cand.removedDatum.randomState = id ∧
        (storageCostProduce len cand.channel cand.removedDatum).value = ownCost) :
    refundForRemovingProduces len (cands.map fun cand => ⟨cand.channel, cand.datum.a, cand.removedDatum,
      cand.datum.persist⟩) channels id =
      leavingCost len cands + cands.countP (·.datumIndex < 0) * ownCost := by
  induction cands generalizing channels with
  | nil => simp [refundForRemovingProduces, leavingCost]
  | cons cand cands ih =>
    obtain ⟨rest, rfl⟩ := hChannels
    obtain ⟨hHead, hTail⟩ := List.forall_mem_cons.mp hCands
    have hRest := ih (List.prefix_append (cands.map ConsumeCandidate.channel) rest) hTail
    rw [leavingCost_cons, List.countP_cons]
    unfold refundForRemovingProduces at hRest ⊢
    rw [List.map_cons, List.map_cons, List.cons_append, List.zip_cons_cons, List.filter_cons]
    rcases hHead with ⟨hIndex, hOther⟩ | ⟨hIndex, hOwn, hCost⟩
    · have hNot : ¬ cand.datumIndex < 0 := not_lt.mpr hIndex
      cases hPersist : cand.datum.persist with
      | true => simp [hOther, hNot, hRest]
      | false =>
        simp [hNot, hIndex, hRest]
        omega
    · have hNot : ¬ 0 ≤ cand.datumIndex := not_le.mpr hIndex
      simp only [hOwn, decide_true, Bool.or_true, if_true, List.map_cons, List.sum_cons, hRest, hCost,
        hNot, and_false, if_false, hIndex]
      push_cast
      rw [Int.add_mul, Int.one_mul]
      omega

section call

variable [DecidableEq BindPattern] {st st' : ChargingRSpace Par BindPattern}

def TriggeredBy.id : TriggeredBy → Bytes
  | .consume id _ _ => id
  | .produce id _ _ => id

omit [DecidableEq Par] [DecidableEq BindPattern] in
theorem charge_ok {amount : Charge} (hCharge : st.charge amount = .ok st') :
    st'.space = st.space ∧ st'.charged = st.charged ++ [amount] := by
  rw [ChargingRSpace.charge] at hCharge
  split at hCharge
  next =>
    obtain rfl := Except.ok.inj hCharge
    exact ⟨rfl, rfl⟩
  next => cases hCharge

omit [DecidableEq Par] [DecidableEq BindPattern] in
theorem foldlM_charge_ok {charges : List Charge}
    (hCharge : charges.foldlM ChargingRSpace.charge st = .ok st') :
    st'.space = st.space ∧ st'.charged = st.charged ++ charges := by
  induction charges generalizing st with
  | nil =>
    obtain rfl := Except.ok.inj hCharge
    exact ⟨rfl, (List.append_nil _).symm⟩
  | cons amount charges ih =>
    rw [List.foldlM_cons] at hCharge
    obtain ⟨st₁, hHead, hTail⟩ := exists_of_bind_ok hCharge
    obtain ⟨hSpace, hCharged⟩ := charge_ok hHead
    obtain ⟨hSpace', hCharged'⟩ := ih hTail
    refine ⟨hSpace'.trans hSpace, ?_⟩
    rw [hCharged', hCharged, List.append_assoc, List.singleton_append]

variable {op : SpaceOp Par BindPattern}

omit [DecidableEq Par] [DecidableEq BindPattern] in
theorem opId_of_prepay {triggeredBy : TriggeredBy}
    (hPrepay : (ChargingRSpace.prepay len op).2 = .ok triggeredBy) : opId op = some triggeredBy.id := by
  cases op with
  | consume channels patterns continuation persist peeks =>
    rw [ChargingRSpace.prepay] at hPrepay
    dsimp only at hPrepay
    split at hPrepay
    next id hId =>
      obtain rfl := Except.ok.inj hPrepay
      exact hId
    next => cases hPrepay
  | produce channel data persist =>
    obtain rfl := Except.ok.inj hPrepay
    rfl

variable {result : MaybeConsumeResult Par BindPattern (ListParWithRandom Par) (TaggedContinuation Par)}

theorem step_ok
    (hStep : st.step len env sh op = .ok (result, st')) :
    ∃ triggeredBy charges, opId op = some triggeredBy.id ∧
      st.space.step env sh op = .ok (result, st'.space) ∧
      handleResult len result triggeredBy = .ok charges ∧
      st'.charged = st.charged ++ (ChargingRSpace.prepay len op).1 :: charges := by
  obtain ⟨st₁, hFirst, hStep⟩ := exists_of_bind_ok hStep
  obtain ⟨triggeredBy, hPrepay, hStep⟩ := exists_of_bind_ok hStep
  obtain ⟨⟨result', space⟩, hSpace, hStep⟩ := exists_of_bind_ok hStep
  obtain ⟨charges, hCharges, hStep⟩ := exists_of_bind_ok hStep
  obtain ⟨st₂, hLast, hStep⟩ := exists_of_bind_ok hStep
  obtain ⟨rfl, rfl⟩ := Prod.mk.inj (Except.ok.inj hStep)
  obtain ⟨hSpace₁, hCharged₁⟩ := charge_ok hFirst
  obtain ⟨hSpace₂, hCharged₂⟩ := foldlM_charge_ok hLast
  refine ⟨triggeredBy, charges, opId_of_prepay hPrepay, ?_, hCharges, ?_⟩
  · rw [hSpace₁] at hSpace
    rw [hSpace₂]
    cases hOp : st.space.step env sh op with
    | error e =>
      rw [hOp] at hSpace
      cases hSpace
    | ok r =>
      rw [hOp] at hSpace
      exact congrArg Except.ok (Except.ok.inj hSpace)
  · rw [hCharged₂, hCharged₁, List.append_assoc, List.singleton_append]

omit [DecidableEq Par] [DecidableEq BindPattern] in
theorem storageSum_append (as bs : List Charge) : storageSum (as ++ bs) = storageSum as + storageSum bs := by
  rw [storageSum, List.filter_append, List.map_append, List.sum_append]
  rfl

omit [DecidableEq Par] [DecidableEq BindPattern] in
theorem storageSum_cons_prepay (op : SpaceOp Par BindPattern) (charges : List Charge) :
    storageSum ((ChargingRSpace.prepay len op).1 :: charges) =
      (ChargingRSpace.prepay len op).1.value + storageSum charges := by
  cases op <;> rfl

omit [DecidableEq Par] [DecidableEq BindPattern] in
theorem storageSum_handleResult_none {triggeredBy : TriggeredBy} {charges : List Charge}
    (hResult : handleResult len none triggeredBy = .ok charges) : storageSum charges = 0 := by
  cases triggeredBy <;> obtain rfl := Except.ok.inj hResult <;> rfl

omit [DecidableEq Par] [DecidableEq BindPattern] in
theorem storageSum_handleResult_some {cont : ContResult Par BindPattern (TaggedContinuation Par)}
    {dataList : List (RSpaceResult Par (ListParWithRandom Par))} {triggeredBy : TriggeredBy}
    {charges : List Charge} (hResult : handleResult len (some (cont, dataList)) triggeredBy = .ok charges) :
    ∃ consumeId, consumeIdBytes cont.continuation = some consumeId ∧
      storageSum charges =
        -(if !cont.persistent || consumeId = triggeredBy.id then
          (storageCostConsume len cont.channels cont.patterns cont.continuation).value else 0) -
        refundForRemovingProduces len dataList cont.channels triggeredBy.id := by
  have hSum : ∀ (a b : Int) (persistent : Bool) (n m : Int),
      storageSum ([⟨-a, "consume storage refund"⟩, ⟨-b, "produces storage refund"⟩] ++
        (if persistent then [] else [eventStorageCost n]) ++ [commEventStorageCost m]) = -a - b := by
    intro a b persistent n m
    cases persistent <;> simp [storageSum, isStorage, eventStorageCost, commEventStorageCost] <;> omega
  cases hId : consumeIdBytes cont.continuation with
  | none => cases triggeredBy <;> simp [handleResult, hId] at hResult
  | some consumeId =>
    refine ⟨consumeId, rfl, ?_⟩
    cases triggeredBy with
    | consume id persistent channelsCount =>
      simp only [handleResult, hId] at hResult
      obtain rfl := Except.ok.inj hResult
      exact hSum _ _ _ _ _
    | produce id persistent channelsCount =>
      simp only [handleResult, hId] at hResult
      obtain rfl := Except.ok.inj hResult
      exact hSum _ _ _ _ _

theorem storageChange_keep {before s : Store Par BindPattern} {id : Bytes}
    (hView : SameView s before) (hFresh : Fresh before op) (hId : opId op = some id) :
    StorageChange len before (keep env s op) (ChargingRSpace.prepay len op).1.value := by
  rw [← Int.zero_add (ChargingRSpace.prepay len op).1.value]
  refine (StorageChange.of_sameView hView).trans ?_
  cases op with
  | consume channels patterns continuation persist peeks =>
    refine ⟨∅, {channels}, fun c _ => ?_, fun cs hcs => ?_, ?_⟩
    · rw [keep, storedData_storeWaitingContinuation]
    · rw [keep, storedContinuations_storeWaitingContinuation, if_neg (by simpa using hcs)]
    · have hNew : (s.storedContinuations channels).any (sameContinuation ·
          (waiting env channels patterns continuation persist peeks)) = false := by
        rw [List.any_eq_false]
        intro w hMem hSame
        have hCont : w.continuation = continuation := (of_decide_eq_true hSame).2.2.2
        rw [hView.continuations] at hMem
        refine (hFresh id hId).2 channels w (List.mem_append_right _ hMem) ?_
        rw [hCont]
        exact hId
      rw [Finset.sum_empty, Finset.sum_singleton, continuationsCost, continuationsCost, keep,
        storedContinuations_storeWaitingContinuation, if_pos rfl, insertContinuation, hNew,
        if_neg Bool.false_ne_true, List.map_cons, List.sum_cons, Int.zero_add]
      change (storageCostConsume len channels patterns continuation).value + _ - _ =
        (storageCostConsume len channels patterns continuation).value
      omega
  | produce channel data persist =>
    exact storageChange_putDatum s channel (datumOf env channel data persist)

def retiredCost (len : EncodedLen Par BindPattern) (pc : Match Par BindPattern) :
    SpaceOp Par BindPattern → Int
  | .consume .. => leavingCost len pc.dataCandidates
  | .produce .. => removedContinuationCost len pc + leavingCost len pc.dataCandidates

omit [DecidableEq BindPattern] in
theorem storageChange_retire {before s : Store Par BindPattern}
    {pc : Match Par BindPattern} (hSelected : selected env sh before op = some pc)
    (hView : SameView s before)
    (hOne : ∀ channel, (pc.dataCandidates.filter (Leaves channel ·)).length ≤ 1) :
    StorageChange len before (retire pc s op) (-retiredCost len pc op) := by
  have hExact : RemovesExactly pc.dataCandidates before (retire pc s op) :=
    (removesExactly_retire_iff (selected_spec hSelected) hView).mpr
      (shiftsAgree_of_length_le_one hOne before)
  have hFrame : ∀ c ∉ pc.dataCandidates.map ConsumeCandidate.channel,
      (retire pc s op).storedData c = s.storedData c := fun c hc => storedData_retire_of_notMem hc
  cases op with
  | consume channels patterns continuation persist peeks =>
    refine storageChange_of_removesExactly len hExact (fun c hc => ?_) fun cs => ?_
    · rw [hFrame c hc, hView.data]
    · rw [retire, storedContinuations_storePersistentData, hView.continuations]
  | produce channel data persist =>
    have hWaits := (fires_of_selected hSelected).waits
    rw [retire] at hExact hFrame ⊢
    have hRemove : StorageChange len s (if pc.continuation.persist then s
        else s.removeContinuation pc.channels pc.continuationIndex) (-removedContinuationCost len pc) := by
      unfold removedContinuationCost
      split_ifs with hPersist
      · exact StorageChange.of_sameView (.refl s)
      · refine storageChange_removeContinuation ?_ (eq_false_of_ne_true hPersist)
        have hSame : (s.getContinuations pc.channels).1 = (before.getContinuations pc.channels).1 := by
          rw [getContinuations, getContinuations, hView.continuations, installed, installed, hView.installed]
        rwa [hSame]
    have hData : ∀ c, (if pc.continuation.persist then s
        else s.removeContinuation pc.channels pc.continuationIndex).storedData c = before.storedData c := by
      intro c
      rw [← hView.data]
      split_ifs
      · rfl
      · exact storedData_removeContinuation s c pc.channels pc.continuationIndex
    have hRest := storageChange_of_removesExactly len (fun c => (hExact c).trans
        (congrArg _ (hData c).symm)) (fun c hc => ((hFrame c hc).trans (hView.data c)).trans (hData c).symm)
      fun cs => storedContinuations_removeMatched pc.channels pc.dataCandidates _ cs
    have hAll := ((StorageChange.of_sameView hView).trans hRemove).trans hRest
    rwa [Int.zero_add, ← Int.neg_add] at hAll

section fired

variable {before : Store Par BindPattern} {pc : Match Par BindPattern} {charges : List Charge}
  {triggeredBy : TriggeredBy}

omit [DecidableEq BindPattern] in
theorem randomState_ne_of_fromStore {op : SpaceOp Par BindPattern} {id : Bytes} (hFresh : Fresh before op)
    (hId : opId op = some id) {cand : Candidate Par} (hStored : FromStore before cand) :
    cand.removedDatum.randomState ≠ id :=
  (hFresh id hId).1 cand.channel cand.origin.1 hStored.2

omit [DecidableEq BindPattern] in
theorem charges_of_consume {channels : List Par} {patterns : List BindPattern}
    {continuation : TaggedContinuation Par} {persist : Bool} {peeks : Finset Int}
    (hSelected : selected env sh before (.consume channels patterns continuation persist peeks) = some pc)
    (hFresh : Fresh before (.consume channels patterns continuation persist peeks))
    (hId : opId (.consume channels patterns continuation persist peeks : SpaceOp Par BindPattern) =
      some triggeredBy.id)
    (hResult : handleResult len (some (wrapResult pc.channels pc.continuation pc.dataCandidates))
      triggeredBy = .ok charges) :
    storageSum charges = -(storageCostConsume len channels patterns continuation).value -
      leavingCost len pc.dataCandidates := by
  obtain ⟨cands, rfl, hExtract, -⟩ := exists_of_selected_consume hSelected
  obtain ⟨consumeId, hConsumeId, hSum⟩ := storageSum_handleResult_some hResult
  have hSame : consumeId = triggeredBy.id := Option.some.inj (hConsumeId.symm.trans hId)
  have hRefund := refund_eq len triggeredBy.id 0
    (map_channel_of_extract hExtract ▸ prefix_map_fst_zip channels patterns)
    fun cand hMem => .inl ⟨(fromStore_of_consume hExtract cand hMem).1,
      randomState_ne_of_fromStore hFresh hId (fromStore_of_consume hExtract cand hMem)⟩
  rw [Int.mul_zero, Int.add_zero] at hRefund
  rw [hSum, decide_eq_true hSame, Bool.or_true, if_pos rfl]
  exact congrArg _ hRefund

omit [DecidableEq BindPattern] in
theorem charges_of_produce {channel : Par} {data : ListParWithRandom Par} {persist : Bool}
    (hFires : Fires env before channel data persist pc)
    (hFresh : Fresh before (.produce channel data persist))
    (hId : opId (.produce channel data persist : SpaceOp Par BindPattern) = some triggeredBy.id)
    (hResult : handleResult len (some (wrapResult pc.channels pc.continuation pc.dataCandidates))
      triggeredBy = .ok charges) :
    storageSum charges = -removedContinuationCost len pc - (leavingCost len pc.dataCandidates +
      pc.dataCandidates.countP (·.datumIndex < 0) * (storageCostProduce len channel data).value) := by
  obtain ⟨consumeId, hConsumeId, hSum⟩ := storageSum_handleResult_some hResult
  have hOther : consumeId ≠ triggeredBy.id := by
    rintro rfl
    exact (hFresh _ hId).2 pc.channels pc.continuation hFires.mem_getContinuations hConsumeId
  have hData : data.randomState = triggeredBy.id := Option.some.inj hId
  have hRefund := refund_eq len triggeredBy.id (storageCostProduce len channel data).value
    (hFires.channels_eq ▸ prefix_map_fst_zip pc.channels pc.continuation.patterns) fun cand hMem => by
      obtain ⟨bind, -, -, -, hFrom⟩ := exists_left_of_forall₂ hFires.binds hMem
      rcases hFrom with hStored | ⟨hIndex, hChannel, hDatum, -⟩
      · exact .inl ⟨hStored.1, randomState_ne_of_fromStore hFresh hId hStored⟩
      · refine .inr ⟨by omega, hDatum ▸ hData, ?_⟩
        rw [hChannel, hDatum]
  rw [hSum, decide_eq_false hOther, Bool.or_false]
  change -(if (!pc.continuation.persist) = true then _ else _) -
    refundForRemovingProduces len (pc.dataCandidates.map _) pc.channels triggeredBy.id = _
  rw [hRefund, removedContinuationCost]
  cases pc.continuation.persist <;> rfl

end fired

theorem storageChange_step
    (hStep : st.step len env sh op = .ok (result, st')) (hFresh : Fresh st.space.store op)
    (hExact : Exact env st.space.store op) :
    StorageChange len st.space.store st'.space.store (storageSum st'.charged - storageSum st.charged) := by
  obtain ⟨triggeredBy, charges, hId, hSpace, hResult, hCharged⟩ := step_ok hStep
  have hAmount : storageSum st'.charged - storageSum st.charged =
      (ChargingRSpace.prepay len op).1.value + storageSum charges := by
    rw [hCharged, storageSum_append, storageSum_cons_prepay]
    omega
  have hOutcome := (step_outcome hSpace).2
  rw [hAmount]
  generalize st'.space = space at hOutcome ⊢
  cases hOutcome with
  | kept s hSelected hView =>
    rw [storageSum_handleResult_none hResult, Int.add_zero]
    exact storageChange_keep hView hFresh hId
  | fired pc s hSelected hView =>
    have hChange : ∀ {amount}, (∀ channel, (pc.dataCandidates.filter (Leaves channel ·)).length ≤ 1) →
        amount = -retiredCost len pc op → StorageChange len st.space.store (retire pc s op) amount := by
      rintro amount hOne rfl
      exact storageChange_retire hSelected hView hOne
    cases op with
    | consume channels patterns continuation persist peeks =>
      apply hChange
      · refine length_leaving_le_one (selected_spec hSelected) ?_
        obtain ⟨cands, rfl, hExtract, -⟩ := exists_of_selected_consume hSelected
        rcases hExact with ⟨bind, hBind, hNone⟩ | hOne
        · exact absurd (storedMatch_of_consume hExtract hBind) hNone
        · exact hOne
      · rw [charges_of_consume hSelected hFresh hId hResult, retiredCost]
        change (storageCostConsume len channels patterns continuation).value + _ = _
        omega
    | produce channel data persist =>
      have hFires := fires_of_selected hSelected
      apply hChange
      · exact length_leaving_le_one (selected_spec hSelected) (hFires.exact hExact).1
      · rw [charges_of_produce hFires hFresh hId hResult, hFires.countP_own hExact, retiredCost]
        change (storageCostProduce len channel data).value + _ = _
        push_cast
        rw [Int.one_mul]
        omega

variable (len env) in
def AllCalls (condition : Store Par BindPattern → SpaceOp Par BindPattern → Prop) :
    List (SpaceOp Par BindPattern ×
      Shuffle Par BindPattern (ListParWithRandom Par) (TaggedContinuation Par)) →
    ChargingRSpace Par BindPattern → Prop
  | [], _ => True
  | (op, sh) :: ops, st => condition st.space.store op ∧
    ∀ result st', st.step len env sh op = .ok (result, st') → AllCalls condition ops st'

/-- Over a run without a failing charge whose calls are all exact, the storage charges and refunds
sum up to the change in the storage cost of the data and continuations in the store. -/
theorem storageChange_run (len : EncodedLen Par BindPattern) (env : ChargedEnv Par BindPattern)
    (ops : List (SpaceOp Par BindPattern ×
      Shuffle Par BindPattern (ListParWithRandom Par) (TaggedContinuation Par)))
    (st st' : ChargingRSpace Par BindPattern) (hRun : ChargingRSpace.run len env ops st = .ok st')
    (hFresh : AllCalls len env Fresh ops st) (hExact : AllCalls len env (Exact env) ops st) :
    StorageChange len st.space.store st'.space.store (storageSum st'.charged - storageSum st.charged) := by
  induction ops generalizing st with
  | nil =>
    obtain rfl := Except.ok.inj hRun
    rw [sub_self]
    exact StorageChange.of_sameView (.refl _)
  | cons call ops ih =>
    obtain ⟨op, sh⟩ := call
    obtain ⟨⟨result, st₁⟩, hStep, hRest⟩ := exists_of_bind_ok hRun
    have hFirst := storageChange_step hStep hFresh.1 hExact.1
    have hTail := ih st₁ hRest (hFresh.2 result st₁ hStep) (hExact.2 result st₁ hStep)
    have hSum := hFirst.trans hTail
    rwa [sub_add_sub_cancel'] at hSum

end call

section sample

def sampleLen : EncodedLen Nat Nat := ⟨fun _ => 4, fun _ => 2⟩

def richSpace : ChargingRSpace Nat Nat :=
  ⟨⟨createFromHr (.empty ..), [], fun _ => 0⟩, .new ⟨100000, "initial"⟩, []⟩

def waitOn (channels : List Nat) : SpaceOp Nat Nat :=
  .consume channels (channels.map fun _ => 0) ⟨some (.parBody none [1])⟩ false ∅

def callsOn (channels : List Nat) (persist : Bool) : List (SpaceOp Nat Nat ×
    Shuffle Nat Nat (ListParWithRandom Nat) (TaggedContinuation Nat)) :=
  [(waitOn channels, .refl ..), (.produce 7 ⟨[5], [2]⟩ persist, .refl ..)]

theorem waits_of_step {channels : List Nat} (hChannels : channels ≠ []) {st' : ChargingRSpace Nat Nat}
    {result : MaybeConsumeResult Nat Nat (ListParWithRandom Nat) (TaggedContinuation Nat)}
    (hStep : richSpace.step sampleLen acceptingEnv (.refl ..) (waitOn channels) = .ok (result, st')) :
    (∀ c, st'.space.store.storedData c = []) ∧
    ∀ cs, ∀ w ∈ (st'.space.store.getContinuations cs).1, cs = channels ∧
      w.patterns = channels.map (fun _ => 0) ∧ w.continuation = ⟨some (.parBody none [1])⟩ := by
  obtain ⟨triggeredBy, charges, -, hSpace, -, -⟩ := step_ok hStep
  have hOutcome := (step_outcome hSpace).2
  generalize st'.space = space at hOutcome ⊢
  cases hOutcome with
  | fired pc s hSelected hView =>
    obtain ⟨cands, -, hExtract, -⟩ := exists_of_selected_consume hSelected
    cases channels with
    | nil => exact absurd rfl hChannels
    | cons c channels => cases hExtract
  | kept s hSelected hView =>
    refine ⟨fun c => ?_, fun cs w hMem => ?_⟩
    · rw [waitOn, keep, storedData_storeWaitingContinuation, hView.data]
      rfl
    · have hNone : s.installed cs = none := by
        rw [installed, hView.installed]
        rfl
      rw [waitOn, keep, getContinuations, installed_storeWaitingContinuation, hNone,
        storedContinuations_storeWaitingContinuation, hView.continuations] at hMem
      split_ifs at hMem with hSame
      · obtain rfl := List.mem_singleton.mp hMem
        exact ⟨hSame, rfl, rfl⟩
      · cases hMem

theorem fresh_callsOn {channels : List Nat} (hChannels : channels ≠ []) (persist : Bool) :
    AllCalls sampleLen acceptingEnv Fresh (callsOn channels persist) richSpace := by
  refine ⟨fun id _ => ⟨fun c d hd => absurd hd List.not_mem_nil,
    fun cs w hw => absurd hw List.not_mem_nil⟩, fun result st' hStep => ⟨fun id hId => ?_,
    fun _ _ _ => trivial⟩⟩
  obtain ⟨hData, hConts⟩ := waits_of_step hChannels hStep
  obtain rfl := Option.some.inj hId
  refine ⟨fun c d hd => ?_, fun cs w hw => ?_⟩
  · rw [hData] at hd
    cases hd
  · rw [(hConts cs w hw).2.2]
    decide

/-- A continuation that waits on one channel is refunded when the produce fires, and so is the datum. -/
theorem storageChange_run_single :
    ∃ st', ChargingRSpace.run sampleLen acceptingEnv (callsOn [7] false) richSpace = .ok st' ∧
      StorageChange sampleLen richSpace.space.store st'.space.store
        (storageSum st'.charged - storageSum richSpace.charged) := by
  refine ⟨_, rfl, storageChange_run sampleLen acceptingEnv (callsOn [7] false) richSpace _ rfl
    (fresh_callsOn (by simp) false) ⟨.inr (List.pairwise_singleton _ _), fun result st' hStep => ⟨?_,
      fun _ _ _ => trivial⟩⟩⟩
  obtain ⟨hData, hConts⟩ := waits_of_step (by simp) hStep
  intro cs _ w hw
  obtain ⟨rfl, hPatterns, -⟩ := hConts cs w hw
  rw [hPatterns]
  refine .inr ⟨List.pairwise_singleton _ _, .inl rfl, .inl ⟨_, List.mem_cons_self, ?_⟩⟩
  rintro ⟨d, hd, -⟩
  rw [hData] at hd
  cases hd

/-- A persistent datum that is matched twice by one join is refunded twice: it is paid for once, and
the store is empty before and after. -/
theorem produce_refunds_datum_twice :
    ∃ st', ChargingRSpace.run sampleLen acceptingEnv (callsOn [7, 7] true) richSpace = .ok st' ∧
      AllCalls sampleLen acceptingEnv Fresh (callsOn [7, 7] true) richSpace ∧
      ¬ StorageChange sampleLen richSpace.space.store st'.space.store
        (storageSum st'.charged - storageSum richSpace.charged) := by
  refine ⟨_, rfl, fresh_callsOn (by simp) true, fun hChange => ?_⟩
  have hZero := hChange.unique (b := 0) ⟨{7}, {[7, 7]}, fun c hc => ?_, fun cs hcs => ?_, by decide⟩
  · exact absurd hZero (by decide)
  · change (List.dlookup (β := fun _ => List (Datum (ListParWithRandom Nat))) c [⟨7, []⟩]).getD [] = []
    rw [List.dlookup_cons_ne _ _ (by simpa using hc)]
    rfl
  · change (List.dlookup (β := fun _ => List (WaitingContinuation Nat (TaggedContinuation Nat))) cs
      [⟨[7, 7], []⟩]).getD [] = []
    rw [List.dlookup_cons_ne _ _ (by simpa using hcs)]
    rfl

end sample

end F1r3Node.Accounting
