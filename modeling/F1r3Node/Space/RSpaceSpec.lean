import F1r3Node.Lib.Fallible
import F1r3Node.Space.RSpace

/-! # What one operation of the playing space does

Reads leave entries in the maps of the store but change nothing it answers, so the operations are described up to
equal answers.
-/

namespace F1r3Node.Space

open Shared Lib

variable {C P A K : Type} [DecidableEq C]

namespace HotStore

structure SameView (s t : HotStore C P A K) : Prop where
  data : ∀ c, s.storedData c = t.storedData c
  continuations : ∀ cs, s.storedContinuations cs = t.storedContinuations cs
  joins : ∀ c, s.storedJoins c = t.storedJoins c
  installed : s.installedContinuations = t.installedContinuations
  installedJoins : s.installedJoins = t.installedJoins
  history : s.history = t.history

theorem SameView.refl (s : HotStore C P A K) : SameView s s :=
  ⟨fun _ => rfl, fun _ => rfl, fun _ => rfl, rfl, rfl, rfl⟩

theorem SameView.trans {s t u : HotStore C P A K} (h : SameView s t) (h' : SameView t u) :
    SameView s u :=
  ⟨fun c => (h.data c).trans (h'.data c), fun cs => (h.continuations cs).trans (h'.continuations cs),
    fun c => (h.joins c).trans (h'.joins c), h.installed.trans h'.installed,
    h.installedJoins.trans h'.installedJoins, h.history.trans h'.history⟩

theorem sameView_getData (s : HotStore C P A K) (channel : C) : SameView (s.getData channel).2 s where
  data c := by
    rw [getData, storedData_withData]
    split_ifs with h
    · rw [h]
    · rfl
  continuations _ := rfl
  joins _ := rfl
  installed := rfl
  installedJoins := rfl
  history := rfl

theorem sameView_getContinuations (s : HotStore C P A K) (channels : List C) :
    SameView (s.getContinuations channels).2 s where
  data _ := rfl
  continuations cs := by
    rw [getContinuations, storedContinuations_withContinuations]
    split_ifs with h
    · rw [h]
    · rfl
  joins _ := rfl
  installed := rfl
  installedJoins := rfl
  history := rfl

theorem sameView_getJoins (s : HotStore C P A K) (channel : C) : SameView (s.getJoins channel).2 s where
  data _ := rfl
  continuations _ := rfl
  joins c := by
    rw [getJoins, storedJoins_withJoins]
    split_ifs with h
    · rw [h]
    · rfl
  installed := rfl
  installedJoins := rfl
  history := rfl

theorem sameView_fillData (s : HotStore C P A K) (channels : List C) :
    SameView (s.fillData channels) s := by
  induction channels generalizing s with
  | nil => exact .refl s
  | cons c channels ih => exact (ih _).trans (sameView_getData s c)

theorem sameView_fillJoin (s : HotStore C P A K) (channels : List C) :
    SameView (s.fillJoin channels) s :=
  (sameView_fillData _ channels).trans (sameView_getContinuations s channels)

end HotStore

open HotStore

section matcher

variable {env : SpaceEnv C P A K}
  {fetchMatchingContinuations : Nat → List C → List (WaitingContinuation P K × Int)}
  {fetchMatchingData : Nat → C → IndexedData A}

theorem sameView_runMatcher (n : Nat) (groupedChannels : List (List C)) (s : HotStore C P A K) :
    SameView (runMatcherForChannels env fetchMatchingContinuations fetchMatchingData n
      groupedChannels s).2 s := by
  induction groupedChannels generalizing n s with
  | nil => exact .refl s
  | cons channels groupedChannels ih =>
    rw [runMatcherForChannels]
    split
    next => exact sameView_fillJoin s channels
    next => exact (ih _ _).trans (sameView_fillJoin s channels)

theorem runMatcher_fst (n : Nat) (groupedChannels : List (List C)) (s t : HotStore C P A K) :
    (runMatcherForChannels env fetchMatchingContinuations fetchMatchingData n groupedChannels s).1 =
      (runMatcherForChannels env fetchMatchingContinuations fetchMatchingData n groupedChannels t).1 := by
  induction groupedChannels generalizing n s t with
  | nil => rfl
  | cons channels groupedChannels ih =>
    rw [runMatcherForChannels, runMatcherForChannels]
    split
    next => rfl
    next => exact ih _ _ _

theorem exists_of_runMatcher {n : Nat} {groupedChannels : List (List C)} {s : HotStore C P A K}
    {pc : ProduceCandidate C P A K}
    (hRun : (runMatcherForChannels env fetchMatchingContinuations fetchMatchingData n
      groupedChannels s).1 = some pc) :
    ∃ m, ∃ channels ∈ groupedChannels,
      extractFirstMatch env channels (fetchMatchingContinuations m channels)
        (fetchMatchingData m) = some pc := by
  induction groupedChannels generalizing n s with
  | nil => cases hRun
  | cons channels groupedChannels ih =>
    rw [runMatcherForChannels] at hRun
    split at hRun
    next pc' hFound =>
      obtain rfl := Option.some.inj hRun
      exact ⟨n, channels, List.mem_cons_self, hFound⟩
    next =>
      obtain ⟨m, channels', hMem, hFound⟩ := ih hRun
      exact ⟨m, channels', List.mem_cons_of_mem _ hMem, hFound⟩

end matcher

theorem mem_withIndex {α : Type} {items : List α} {item : α × Int} :
    item ∈ withIndex items ↔ ∃ n : Nat, item.2 = n ∧ items[n]? = some item.1 := by
  rw [withIndex, List.mem_map]
  constructor
  · rintro ⟨⟨x, n⟩, hMem, rfl⟩
    exact ⟨n, rfl, List.mem_zipIdx_iff_getElem?.mp hMem⟩
  · rintro ⟨n, hIndex, hItem⟩
    exact ⟨(item.1, n), List.mem_zipIdx_iff_getElem?.mpr hItem, Prod.ext rfl hIndex.symm⟩

theorem nodup_withIndex {α : Type} (items : List α) : ((withIndex items).map Prod.snd).Nodup := by
  have hMap : (withIndex items).map Prod.snd = (items.zipIdx.map Prod.snd).map Int.ofNat := by
    rw [withIndex, List.map_map, List.map_map]
    rfl
  rw [hMap, List.zipIdx_map_snd]
  exact List.Nodup.map (fun a b h => Int.ofNat.inj h) List.nodup_range'

/-- What is on offer on a channel: its stored data, and possibly the datum being produced. -/
def OfferOf (data : List (Datum A)) (offer : IndexedData A) : Prop :=
  offer.Perm (withIndex data) ∨ ∃ datum, offer.Perm ((datum, -1) :: withIndex data)

variable {data : List (Datum A)} {offer : IndexedData A}

theorem OfferOf.stored (hOffer : OfferOf data offer)
    {item : Datum A × Int} (hMem : item ∈ offer) (hNonneg : 0 ≤ item.2) : item ∈ withIndex data := by
  rcases hOffer with hPerm | ⟨datum, hPerm⟩
  · exact hPerm.subset hMem
  · rcases List.mem_cons.mp (hPerm.subset hMem) with rfl | hMem
    · change (0 : Int) ≤ -1 at hNonneg
      omega
    · exact hMem

theorem OfferOf.getElem?_eq (hOffer : OfferOf data offer)
    {item : Datum A × Int} (hMem : item ∈ offer) (hNonneg : 0 ≤ item.2) :
    data[item.2.toNat]? = some item.1 := by
  obtain ⟨n, hIndex, hItem⟩ := mem_withIndex.mp (hOffer.stored hMem hNonneg)
  rwa [hIndex, Int.toNat_natCast]

theorem OfferOf.nodup (hOffer : OfferOf data offer) :
    (offer.map Prod.snd).Nodup := by
  rcases hOffer with hPerm | ⟨datum, hPerm⟩
  · exact (hPerm.map Prod.snd).nodup_iff.mpr (nodup_withIndex data)
  · refine (hPerm.map Prod.snd).nodup_iff.mpr (List.nodup_cons.mpr ⟨?_, nodup_withIndex data⟩)
    rw [List.mem_map]
    rintro ⟨item, hMem, hIndex⟩
    obtain ⟨n, hn, -⟩ := mem_withIndex.mp hMem
    omega

namespace RSpace

variable (env : SpaceEnv C P A K) (sh : Shuffle C P A K)

def waiting (channels : List C) (patterns : List P) (continuation : K) (persist : Bool)
    (peeks : Finset Int) : WaitingContinuation P K :=
  ⟨patterns, continuation, persist, peeks, Consume.create env channels patterns continuation persist⟩

def datumOf (channel : C) (data : A) (persist : Bool) : Datum A :=
  ⟨data, persist, Produce.create env channel data persist⟩

/-- The match the matcher selects for an operation on a store, if its guard accepts it. The index of
the continuation means nothing for a consume, which brings its own. -/
def selected (s : HotStore C P A K) : Op C P A K → Option (ProduceCandidate C P A K)
  | .consume channels patterns continuation persist peeks =>
    ((extractDataCandidates env (channels.zip patterns) (fetchChannelToIndexData sh s)).filter
      fun cands => env.checkCommit continuation (matchedData cands)).map
      fun cands => ⟨channels, waiting env channels patterns continuation persist peeks, 0, cands⟩
  | .produce channel data persist =>
    (extractProduceCandidate env sh s (s.getJoins channel).1 channel (datumOf env channel data persist)).1

/-- What is known of a selected match: its data were extracted from parts of what the store offers
for each channel, and its guard accepted them. -/
structure Selected (env : SpaceEnv C P A K) (s : HotStore C P A K) (pc : ProduceCandidate C P A K) :
    Prop where
  commit : env.checkCommit pc.continuation.continuation (matchedData pc.dataCandidates) = true
  extracted : ∃ data, (∀ channel, ∃ offer, OfferOf (s.storedData channel) offer ∧
      (data channel).Sublist offer) ∧
    extractDataCandidates env (pc.channels.zip pc.continuation.patterns) data = some pc.dataCandidates

variable {s : HotStore C P A K} {pc : ProduceCandidate C P A K}

theorem exists_of_selected_consume {env : SpaceEnv C P A K} {sh : Shuffle C P A K}
    {channels : List C} {patterns : List P} {continuation : K} {persist : Bool} {peeks : Finset Int}
    (hSelected : selected env sh s (.consume channels patterns continuation persist peeks) = some pc) :
    ∃ cands, pc = ⟨channels, waiting env channels patterns continuation persist peeks, 0, cands⟩ ∧
      extractDataCandidates env (channels.zip patterns) (fetchChannelToIndexData sh s) = some cands ∧
      env.checkCommit continuation (matchedData cands) = true := by
  obtain ⟨cands, hFilter, rfl⟩ := Option.map_eq_some_iff.mp hSelected
  obtain ⟨hExtract, hCommit⟩ := Option.filter_eq_some_iff.mp hFilter
  exact ⟨cands, rfl, hExtract, hCommit⟩

theorem exists_of_selected_produce {env : SpaceEnv C P A K} {sh : Shuffle C P A K}
    {channel : C} {data : A} {persist : Bool}
    (hSelected : selected env sh s (.produce channel data persist) = some pc) :
    ∃ n, pc.channels ∈ (s.getJoins channel).1 ∧
      extractFirstMatch env pc.channels (fetchMatchingContinuations sh s n pc.channels)
        (fetchMatchingData sh s channel (datumOf env channel data persist) n) = some pc := by
  obtain ⟨n, channels, hJoin, hExtract⟩ := exists_of_runMatcher hSelected
  obtain rfl := (firstMatch_of_extract hExtract).channels_eq
  exact ⟨n, hJoin, hExtract⟩

variable {op : Op C P A K}

theorem selected_spec {env : SpaceEnv C P A K} {sh : Shuffle C P A K}
    (hSelected : selected env sh s op = some pc) :
    Selected env s pc := by
  cases op with
  | consume channels patterns continuation persist peeks =>
    obtain ⟨cands, rfl, hExtract, hCommit⟩ := exists_of_selected_consume hSelected
    exact ⟨hCommit, _, fun channel => ⟨_, .inl (sh.perm_data 0 channel _), .refl _⟩, hExtract⟩
  | produce channel data persist =>
    obtain ⟨n, -, hExtract⟩ := exists_of_selected_produce hSelected
    obtain ⟨-, -, hCommit, data', hSub, hExtracted⟩ := firstMatch_of_extract hExtract
    refine ⟨hCommit, data', fun channel' => ⟨_, ?_, hSub channel'⟩, hExtracted⟩
    rw [fetchMatchingData]
    split_ifs
    · exact .inr ⟨_, (sh.perm_data n channel' _).cons _⟩
    · exact .inl (sh.perm_data n channel' _)

theorem Selected.nodup_channels {env : SpaceEnv C P A K}
    (h : Selected env s pc) (hNodup : pc.channels.Nodup) :
    (pc.dataCandidates.map ConsumeCandidate.channel).Nodup := by
  obtain ⟨data, -, hExtract⟩ := h.extracted
  rw [map_channel_of_extract hExtract]
  exact (prefix_map_fst_zip pc.channels pc.continuation.patterns).sublist.nodup hNodup

def retire (pc : ProduceCandidate C P A K) (s : HotStore C P A K) : Op C P A K → HotStore C P A K
  | .consume .. => storePersistentData pc.dataCandidates s
  | .produce .. => removeMatchedDatumAndJoin pc.channels pc.dataCandidates
      (if pc.continuation.persist then s else s.removeContinuation pc.channels pc.continuationIndex)

def keep [DecidableEq P] [DecidableEq K] (s : HotStore C P A K) : Op C P A K → HotStore C P A K
  | .consume channels patterns continuation persist peeks =>
    storeWaitingContinuation channels (waiting env channels patterns continuation persist peeks) s
  | .produce channel data persist => s.putDatum channel (datumOf env channel data persist)

def ioEventOf : Op C P A K → IOEvent
  | .consume channels patterns continuation persist _ =>
    .consume (Consume.create env channels patterns continuation persist)
  | .produce channel data persist => .produce (Produce.create env channel data persist)

def counterAfter (counter : Bytes → Int) : Op C P A K → Bytes → Int
  | .consume .. => counter
  | .produce channel data persist =>
    countProduce counter (Produce.create env channel data persist) persist

def commOf (pc : ProduceCandidate C P A K) (counter : Bytes → Int) : COMM :=
  COMM.new (sources pc.dataCandidates) pc.continuation.source pc.continuation.peeks counter

def Accepted : Op C P A K → Prop
  | .consume channels patterns _ _ _ => channels ≠ [] ∧ channels.length = patterns.length
  | .produce .. => True

instance (op : Op C P A K) : Decidable (Accepted op) := by
  cases op <;> unfold Accepted <;> infer_instance

/-- The outcome of an operation on a store with the same answers as the one before it. -/
inductive Outcome [DecidableEq P] [DecidableEq K] (st : RSpace C P A K) (op : Op C P A K) :
    MaybeConsumeResult C P A K → RSpace C P A K → Prop
  | fired (pc : ProduceCandidate C P A K) (s : HotStore C P A K) (hSelected : selected env sh st.store op = some pc)
      (hView : SameView s st.store) :
      Outcome st op (some (wrapResult pc.channels pc.continuation pc.dataCandidates))
        ⟨retire pc s op,
          st.eventLog ++ [.ioEvent (ioEventOf env op)] ++
            [.comm (commOf pc (counterAfter env st.produceCounter op))],
          counterAfter env st.produceCounter op⟩
  | kept (s : HotStore C P A K) (hSelected : selected env sh st.store op = none)
      (hView : SameView s st.store) :
      Outcome st op none
        ⟨keep env s op, st.eventLog ++ [.ioEvent (ioEventOf env op)], counterAfter env st.produceCounter op⟩

variable [DecidableEq P] [DecidableEq K] {env sh}

variable {result : MaybeConsumeResult C P A K}

theorem lockedConsume_outcome (st : RSpace C P A K) (channels : List C) (patterns : List P)
    (continuation : K) (persist : Bool) (peeks : Finset Int)
    {st' : RSpace C P A K}
    (hConsume : st.lockedConsume env sh channels patterns continuation persist peeks
      (Consume.create env channels patterns continuation persist) = (result, st')) :
    Outcome env sh st (.consume channels patterns continuation persist peeks) result st' := by
  have hView := sameView_fillData st.store channels
  rw [lockedConsume] at hConsume
  simp only at hConsume
  split at hConsume
  next cands hExtract =>
    replace hExtract : extractDataCandidates env (channels.zip patterns)
      (fetchChannelToIndexData sh st.store) = some cands := hExtract
    split_ifs at hConsume with hCommit
    · obtain ⟨rfl, rfl⟩ := Prod.mk.inj hConsume
      refine Outcome.fired
        ⟨channels, waiting env channels patterns continuation persist peeks, 0, cands⟩ _ ?_ hView
      rewrite [selected, hExtract, Option.filter_some, if_pos hCommit]
      rfl
    · obtain ⟨rfl, rfl⟩ := Prod.mk.inj hConsume
      refine Outcome.kept _ ?_ hView
      rewrite [selected, hExtract, Option.filter_some, if_neg hCommit]
      rfl
  next hExtract =>
    replace hExtract : extractDataCandidates env (channels.zip patterns)
      (fetchChannelToIndexData sh st.store) = none := hExtract
    obtain ⟨rfl, rfl⟩ := Prod.mk.inj hConsume
    refine Outcome.kept _ ?_ hView
    rewrite [selected, hExtract]
    rfl

theorem finishProduce_outcome (st : RSpace C P A K) (channel : C) (data : A) (persist : Bool)
    (hView : SameView s st.store)
    {extracted : Option (ProduceCandidate C P A K)}
    (hExtracted : extracted = selected env sh st.store (.produce channel data persist)) :
    let logged := { st.logProduce (Produce.create env channel data persist) persist with store := s }
    Outcome env sh st (.produce channel data persist)
      ((logged.finishProduce channel (datumOf env channel data persist) extracted).1.map
        fun r => (r.1, r.2.1))
      (logged.finishProduce channel (datumOf env channel data persist) extracted).2 := by
  cases extracted with
  | none => exact Outcome.kept s hExtracted.symm hView
  | some pc => exact Outcome.fired pc s hExtracted.symm hView

variable (env sh) in
theorem produce_outcome (st : RSpace C P A K) (channel : C) (data : A) (persist : Bool) :
    Outcome env sh st (.produce channel data persist)
      ((st.produce env sh channel data persist).1.map fun r => (r.1, r.2.1))
      (st.produce env sh channel data persist).2 :=
  finishProduce_outcome st channel data persist
    ((sameView_runMatcher _ _ _).trans (sameView_getJoins st.store channel)) (runMatcher_fst _ _ _ _)

theorem step_outcome {st st' : RSpace C P A K} (hStep : st.step env sh op = .ok (result, st')) :
    Accepted op ∧ Outcome env sh st op result st' := by
  cases op with
  | consume channels patterns continuation persist peeks =>
    rw [step, consume] at hStep
    split_ifs at hStep with hEmpty hLength
    refine ⟨⟨hEmpty, not_not.mp hLength⟩, ?_⟩
    exact lockedConsume_outcome st channels patterns continuation persist peeks (Except.ok.inj hStep)
  | produce channel data persist =>
    have hOutcome := produce_outcome env sh st channel data persist
    obtain ⟨rfl, rfl⟩ := Prod.mk.inj (Except.ok.inj hStep)
    exact ⟨trivial, hOutcome⟩

variable (env sh) in
theorem step_of_accepted (st : RSpace C P A K) (hAccepted : Accepted op) :
    ∃ result st', st.step env sh op = .ok (result, st') ∧
      (result.isSome ↔ (selected env sh st.store op).isSome) := by
  have hReturns : ∃ r, st.step env sh op = .ok r := by
    cases op with
    | consume channels patterns continuation persist peeks =>
      rw [step, consume, if_neg hAccepted.1, if_neg (not_not.mpr hAccepted.2)]
      exact ⟨_, rfl⟩
    | produce channel data persist => exact ⟨_, rfl⟩
  obtain ⟨⟨result, st'⟩, hStep⟩ := hReturns
  refine ⟨result, st', hStep, ?_⟩
  cases (step_outcome hStep).2 with
  | fired pc s hSelected hView => simp [hSelected]
  | kept s hSelected hView => simp [hSelected]

theorem run_induction {motive : RSpace C P A K → Prop} {ops : List (Op C P A K × Shuffle C P A K)}
    (hStep : ∀ op sh st result st', (op, sh) ∈ ops → motive st → st.step env sh op = .ok (result, st') →
      motive st') {st final : RSpace C P A K} {results : List (MaybeConsumeResult C P A K)}
    (hRun : st.run env ops = .ok (results, final)) (hStart : motive st) : motive final := by
  induction ops generalizing st results with
  | nil =>
    obtain ⟨-, rfl⟩ := Prod.mk.inj (Except.ok.inj hRun)
    exact hStart
  | cons call ops ih =>
    rw [run] at hRun
    obtain ⟨⟨result, st₁⟩, hFirst, hRest⟩ := exists_of_bind_ok hRun
    obtain ⟨⟨results', st₂⟩, hLater, hLast⟩ := exists_of_bind_ok hRest
    obtain ⟨-, rfl⟩ := Prod.mk.inj (Except.ok.inj hLast)
    have hNext := hStep call.1 call.2 st result st₁ List.mem_cons_self hStart hFirst
    exact ih (fun op sh s r s' hMem => hStep op sh s r s' (List.mem_cons_of_mem _ hMem)) hLater hNext

end RSpace

end F1r3Node.Space
