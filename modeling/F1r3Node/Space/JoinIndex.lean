import F1r3Node.Space.MatchedData

/-! # The index of joins

As long as every join names its channels once, the index lists exactly the joins on which something waits; the joins
of installed continuations are listed apart.
-/

/-! ## Installs

An install is a persistent consume of the system that is not logged. It is kept apart from the
waiting continuations and is refused when the data of its channels already match.
-/

namespace F1r3Node.Space

variable {C P A K : Type} [DecidableEq C]

namespace HotStore

def installContinuation (s : HotStore C P A K) (channels : List C)
    (wc : { wc : WaitingContinuation P K // wc.persist = true }) : HotStore C P A K :=
  { s with
    installedContinuations := s.installedContinuations.insert channels wc.1
    installed_persist := by
      intro entry hEntry
      rw [AList.entries_insert] at hEntry
      rcases List.mem_cons.mp hEntry with rfl | hEntry
      · exact wc.2
      · exact s.installed_persist entry ((List.kerase_sublist _ _).subset hEntry) }

def installJoin (s : HotStore C P A K) (channel : C) (join : List C) : HotStore C P A K :=
  let existing := (s.installedJoins.lookup channel).getD []
  { s with installedJoins :=
      s.installedJoins.insert channel (if join ∈ existing then existing else join :: existing) }

end HotStore

namespace RSpace

variable (env : SpaceEnv C P A K) (sh : Shuffle C P A K)

def installedWaiting (channels : List C) (patterns : List P) (continuation : K) :
    { wc : WaitingContinuation P K // wc.persist = true } :=
  ⟨⟨patterns, continuation, true, ∅, Consume.create env channels patterns continuation true⟩, rfl⟩

def lockedInstallInternal (st : RSpace C P A K) (channels : List C) (patterns : List P) (continuation : K) :
    Except Panic (Except RSpaceError (Option (K × List A)) × RSpace C P A K) :=
  if channels.length ≠ patterns.length then .error .lengthsDiffer
  else
    let options :=
      extractDataCandidates env (channels.zip patterns) (fetchChannelToIndexData sh st.store)
    let store := st.store.fillData channels
    match options with
    | none =>
      .ok (.ok none, { st with store :=
        (channels.foldl (fun s c => s.installJoin c channels)
          (store.installContinuation channels (installedWaiting env channels patterns continuation))) })
    | some _ =>
      .ok (.error (.bugFoundError "RUST ERROR: Installing can be done only on startup"),
        { st with store := store })

inductive SpaceOp (C P A K : Type) where
  | op (op : Op C P A K)
  | install (channels : List C) (patterns : List P) (continuation : K)

variable [DecidableEq P] [DecidableEq K]

def spaceStep (st : RSpace C P A K) : SpaceOp C P A K → Except Panic (RSpace C P A K)
  | .op op => (st.step env sh op).map Prod.snd
  | .install channels patterns continuation =>
    (st.lockedInstallInternal env sh channels patterns continuation).map Prod.snd

def runAll (calls : List (SpaceOp C P A K × Shuffle C P A K)) (st : RSpace C P A K) :
    Except Panic (RSpace C P A K) :=
  calls.foldlM (fun st call => st.spaceStep env call.2 call.1) st

end RSpace

end F1r3Node.Space

namespace F1r3Node.Space

open HotStore RSpace Lib

variable {C P A K : Type} [DecidableEq C]

def HotStore.installs (s : HotStore C P A K) (channel : C) : List (List C) :=
  (s.installedJoins.lookup channel).getD []

structure JoinIndex (s : HotStore C P A K) : Prop where
  nodup : ∀ c, (s.storedJoins c).Nodup
  own : ∀ c, ∀ join ∈ s.storedJoins c, c ∈ join
  listed : ∀ cs, s.storedContinuations cs ≠ [] → ∀ c ∈ cs, cs ∈ s.storedJoins c
  backed : ∀ c, ∀ join ∈ s.storedJoins c,
    s.storedContinuations join ≠ [] ∨ (s.installed join).isSome
  installOwn : ∀ c, ∀ join ∈ s.installs c, c ∈ join ∧ (s.installed join).isSome
  installListed : ∀ cs, (s.installed cs).isSome → ∀ c ∈ cs, cs ∈ s.installs c
  distinct : ∀ cs, ∀ w ∈ (s.getContinuations cs).1, cs.Nodup ∧ cs.length = w.patterns.length

theorem JoinIndex.congr {s t : HotStore C P A K} (hJoins : ∀ c, s.storedJoins c = t.storedJoins c)
    (hContinuations : ∀ cs, s.storedContinuations cs = t.storedContinuations cs)
    (hInstalled : s.installedContinuations = t.installedContinuations)
    (hInstalledJoins : s.installedJoins = t.installedJoins) (h : JoinIndex t) : JoinIndex s := by
  have hInstalls : ∀ c, s.installs c = t.installs c := fun c => by rw [installs, hInstalledJoins]; rfl
  have hInst : ∀ cs, s.installed cs = t.installed cs := fun cs => by rw [installed, hInstalled]; rfl
  refine ⟨?_, ?_, ?_, ?_, ?_, ?_, ?_⟩
  · simpa only [hJoins] using h.nodup
  · simpa only [hJoins] using h.own
  · simpa only [hJoins, hContinuations] using h.listed
  · simpa only [hJoins, hContinuations, hInst] using h.backed
  · simpa only [hInstalls, hInst] using h.installOwn
  · simpa only [hInstalls, hInst] using h.installListed
  · simpa only [getContinuations, hContinuations, hInst] using h.distinct

theorem JoinIndex.of_sameView {s t : HotStore C P A K} (hView : SameView s t) (h : JoinIndex t) :
    JoinIndex s :=
  h.congr hView.joins hView.continuations hView.installed hView.installedJoins

theorem JoinIndex.mem_getJoins {s : HotStore C P A K} (h : JoinIndex s) {join : List C}
    {w : WaitingContinuation P K} (hWaiting : w ∈ (s.getContinuations join).1) {c : C} (hc : c ∈ join) :
    join ∈ (s.getJoins c).1 := by
  rcases List.mem_append.mp hWaiting with hInstalled | hStored
  · have hSome : (s.installed join).isSome := by
      rw [Option.isSome_iff_exists]
      exact ⟨w, Option.mem_toList.mp hInstalled⟩
    exact List.mem_append_left _ (h.installListed join hSome c hc)
  · exact List.mem_append_right _ (h.listed join (List.ne_nil_of_mem hStored) c hc)

theorem joinIndex_empty : JoinIndex (createFromHr (.empty C P A K)) := by
  refine ⟨?_, ?_, ?_, ?_, ?_, ?_, ?_⟩
  · exact fun c => List.nodup_nil
  · intro c join hJoin
    cases hJoin
  · intro cs hStored
    exact absurd rfl hStored
  · intro c join hJoin
    cases hJoin
  · intro c join hJoin
    cases hJoin
  · intro cs hInstalled
    cases hInstalled
  · intro cs w hMem
    cases hMem

def Abandoned (s : HotStore C P A K) (join : List C) : Prop :=
  ¬ (s.installed join).isSome ∧ s.storedContinuations join = []

instance (s : HotStore C P A K) (join : List C) : Decidable (Abandoned s join) :=
  decidable_of_iff (¬ (s.installed join).isSome ∧ (s.storedContinuations join).isEmpty = true)
    (by rw [List.isEmpty_iff]; rfl)

theorem storedJoins_removeJoin (s : HotStore C P A K) (channel c : C) (join : List C) :
    (s.removeJoin channel join).storedJoins c =
      if c = channel ∧ Abandoned s join then (s.storedJoins c).erase join else s.storedJoins c := by
  by_cases hSame : c = channel
  · subst hSame
    rw [removeJoin, storedJoins_withJoins, if_pos rfl]
    by_cases hAbandoned : Abandoned s join
    · have hBoth : c = c ∧ Abandoned s join := ⟨rfl, hAbandoned⟩
      rw [if_pos hBoth]
      exact if_pos hAbandoned
    · have hNot : ¬ (c = c ∧ Abandoned s join) := fun h => hAbandoned h.2
      rw [if_neg hNot]
      exact if_neg hAbandoned
  · rw [removeJoin, storedJoins_withJoins, if_neg hSame, if_neg fun h => hSame h.1]

def removeOne (join : List C) (s : HotStore C P A K) (cand : ConsumeCandidate C A) : HotStore C P A K :=
  if (0 : Int) ≤ cand.datumIndex ∧ cand.datum.persist = false then
    match s.removeDatum cand.channel cand.datumIndex with
    | (.error _, s) => s
    | (.ok _, s) => s.removeJoin cand.channel join
  else s.removeJoin cand.channel join

/-- The index of a candidate is one of the stored data, or it is the datum being produced. -/
def InBounds (s : HotStore C P A K) (cand : ConsumeCandidate C A) : Prop :=
  0 ≤ cand.datumIndex → cand.datumIndex < (s.storedData cand.channel).length

theorem removeOne_eq {s : HotStore C P A K} {cand : ConsumeCandidate C A} (join : List C)
    (hBounds : InBounds s cand) :
    ∃ t, removeOne join s cand = t.removeJoin cand.channel join ∧
      (∀ c, t.storedJoins c = s.storedJoins c) ∧ (∀ cs, t.storedContinuations cs = s.storedContinuations cs) ∧
      SameBase t s ∧ ∀ c, c ≠ cand.channel → t.storedData c = s.storedData c := by
  rw [removeOne]
  split_ifs with hStored
  · have hIn : ¬ outOfBounds cand.datumIndex (s.storedData cand.channel) := by
      have hLt := hBounds hStored.1
      rintro (hNeg | hLength) <;> omega
    have hOk : s.removeDatum cand.channel cand.datumIndex =
        (.ok (), (s.removeDatum cand.channel cand.datumIndex).2) := by
      rw [removeDatum, if_neg hIn]
    rw [hOk]
    refine ⟨_, rfl, fun c => storedJoins_removeDatum _ _ _ c, fun cs => storedContinuations_removeDatum _ _ _ cs,
      sameBase_removeDatum _ _ _, fun c hc => ?_⟩
    rw [storedData_removeDatum, if_neg fun h => hc h.1.symm]
  · exact ⟨s, rfl, fun _ => rfl, fun _ => rfl, .refl s, fun _ _ => rfl⟩

theorem storedJoins_foldl_removeOne (join : List C) {cands : List (ConsumeCandidate C A)}
    (hNodup : (cands.map ConsumeCandidate.channel).Nodup) {s : HotStore C P A K}
    (hBounds : ∀ cand ∈ cands, InBounds s cand) (c : C) :
    (cands.foldl (removeOne join) s).storedJoins c =
      if c ∈ cands.map ConsumeCandidate.channel ∧ Abandoned s join then (s.storedJoins c).erase join
      else s.storedJoins c := by
  induction cands generalizing s with
  | nil => rw [if_neg fun h => absurd h.1 List.not_mem_nil]; rfl
  | cons cand cands ih =>
    obtain ⟨hHead, hTail⟩ := List.nodup_cons.mp hNodup
    obtain ⟨hFirst, hRest⟩ := List.forall_mem_cons.mp hBounds
    obtain ⟨t, hOne, hJoins, hContinuations, hBase, hData⟩ := removeOne_eq join hFirst
    have hInstalled : ∀ cs, t.installed cs = s.installed cs := fun cs => by
      rw [installed, hBase.installed]
      rfl
    have hAbandoned : Abandoned (t.removeJoin cand.channel join) join ↔ Abandoned s join := by
      have hSame : Abandoned (t.removeJoin cand.channel join) join ↔ Abandoned t join := Iff.rfl
      rw [hSame, Abandoned, Abandoned, hInstalled, hContinuations]
    have hAbandoned' : Abandoned t join ↔ Abandoned s join := by
      rw [Abandoned, Abandoned, hInstalled, hContinuations]
    have hLater : ∀ cand' ∈ cands, InBounds (t.removeJoin cand.channel join) cand' := by
      intro cand' hMem
      have hNe : cand'.channel ≠ cand.channel := fun h => hHead (List.mem_map.mpr ⟨cand', hMem, h⟩)
      rw [InBounds, storedData_removeJoin, hData _ hNe]
      exact hRest cand' hMem
    rw [List.foldl_cons, hOne, ih hTail hLater, storedJoins_removeJoin, hJoins]
    simp only [hAbandoned, hAbandoned', List.map_cons, List.mem_cons]
    by_cases hSame : c = cand.channel
    · subst hSame
      simp [hHead]
    · simp [hSame]

@[simp] theorem storedJoins_storePersistentData (cands : List (ConsumeCandidate C A))
    (s : HotStore C P A K) (c : C) : (storePersistentData cands s).storedJoins c = s.storedJoins c := by
  refine storePersistent_induction (motive := fun t => t.storedJoins c = s.storedJoins c)
    (fun t channel index h => ?_) cands rfl
  rw [storedJoins_removeDatum, h]

variable {pc : ProduceCandidate C P A K}

theorem inBounds_of_selected {env : SpaceEnv C P A K} {s : HotStore C P A K}
    (h : Selected env s pc) {cand : ConsumeCandidate C A} (hMem : cand ∈ pc.dataCandidates) :
    InBounds s cand := by
  obtain ⟨data, hOffer, hExtract⟩ := h.extracted
  obtain ⟨pair, -, hOffered⟩ := exists_offered_of_extract hExtract hMem
  obtain ⟨offer, hOf, hSub⟩ := hOffer pair.1
  intro hNonneg
  have hGet := hOf.getElem?_eq (hSub.subset hOffered.mem) hNonneg
  have hLt : cand.datumIndex.toNat < _ := (List.getElem?_eq_some_iff.mp hGet).1
  rw [hOffered.channel_eq]
  omega

/-- The store of a fired produce when its continuation is gone and the data are still there. -/
def withoutContinuation (pc : ProduceCandidate C P A K) (s : HotStore C P A K) : HotStore C P A K :=
  if pc.continuation.persist then s else s.removeContinuation pc.channels pc.continuationIndex

theorem within_withoutContinuation (pc : ProduceCandidate C P A K) (s : HotStore C P A K) :
    Within (withoutContinuation pc s) s := by
  rw [withoutContinuation]
  split_ifs
  · exact .refl s
  · exact within_removeContinuation s pc.channels pc.continuationIndex

theorem storedJoins_retire_produce {env : SpaceEnv C P A K} {s : HotStore C P A K}
    (hSelected : Selected env s pc) (hNodup : pc.channels.Nodup)
    (hLength : pc.channels.length = pc.continuation.patterns.length) (channel c : C) (data : A)
    (persist : Bool) :
    (retire pc s (.produce channel data persist)).storedJoins c =
      if c ∈ pc.channels ∧ Abandoned (withoutContinuation pc s) pc.channels then
        (s.storedJoins c).erase pc.channels
      else s.storedJoins c := by
  have hChannels : pc.dataCandidates.map ConsumeCandidate.channel = pc.channels := by
    obtain ⟨data, -, hExtract⟩ := hSelected.extracted
    rw [map_channel_of_extract hExtract, List.map_fst_zip (by omega)]
  have hPerm : (sortByIndex pc.dataCandidates).Perm pc.dataCandidates := List.perm_insertionSort _ _
  have hSorted := hPerm.map ConsumeCandidate.channel
  rw [hChannels] at hSorted
  have hData : ∀ c, (withoutContinuation pc s).storedData c = s.storedData c := by
    intro c
    rw [withoutContinuation]
    split_ifs
    · rfl
    · rw [storedData_removeContinuation]
  have hJoins : (withoutContinuation pc s).storedJoins c = s.storedJoins c := by
    rw [withoutContinuation]
    split_ifs
    · rfl
    · rw [storedJoins_removeContinuation]
  have hBounds : ∀ cand ∈ sortByIndex pc.dataCandidates, InBounds (withoutContinuation pc s) cand := by
    intro cand hMem
    rw [InBounds, hData]
    exact inBounds_of_selected hSelected (hPerm.subset hMem)
  have hFold := storedJoins_foldl_removeOne pc.channels (hSorted.nodup_iff.mpr hNodup) hBounds c
  simp only [hJoins, hSorted.mem_iff] at hFold
  exact hFold

theorem mem_getContinuations_of_selected {env : SpaceEnv C P A K} {sh : Shuffle C P A K}
    {s : HotStore C P A K} {channel : C} {data : A} {persist : Bool}
    (hSelected : selected env sh s (.produce channel data persist) = some pc) :
    pc.continuation ∈ (s.getContinuations pc.channels).1 := by
  obtain ⟨n, -, hExtract⟩ := exists_of_selected_produce hSelected
  have hMem := (sh.perm_continuations n _).subset (firstMatch_of_extract hExtract).mem
  obtain ⟨i, -, hGet⟩ := mem_withIndex.mp hMem
  exact List.mem_of_getElem? hGet

section step

variable {env : SpaceEnv C P A K} {s : HotStore C P A K}

theorem JoinIndex.retire_consume (h : JoinIndex s) (pc : ProduceCandidate C P A K) (channels : List C)
    (patterns : List P) (continuation : K) (persist : Bool) (peeks : Finset Int) :
    JoinIndex (retire pc s (.consume channels patterns continuation persist peeks)) := by
  have hBase := (within_retire pc s (.consume channels patterns continuation persist peeks)).base
  exact h.congr (fun c => storedJoins_storePersistentData _ _ c)
    (fun cs => storedContinuations_storePersistentData _ _ cs) hBase.installed hBase.installedJoins

theorem JoinIndex.retire_produce (h : JoinIndex s) {pc : ProduceCandidate C P A K}
    (hSelected : Selected env s pc) (hWaiting : pc.continuation ∈ (s.getContinuations pc.channels).1)
    (channel : C) (data : A) (persist : Bool) : JoinIndex (retire pc s (.produce channel data persist)) := by
  obtain ⟨hNodup, hLength⟩ := h.distinct pc.channels pc.continuation hWaiting
  have hWithin := within_withoutContinuation pc s
  have hRetired := within_retire pc s (.produce channel data persist)
  have hJoins := fun c => storedJoins_retire_produce hSelected hNodup hLength channel c data persist
  have hContinuations : ∀ cs, (retire pc s (.produce channel data persist)).storedContinuations cs =
      (withoutContinuation pc s).storedContinuations cs := fun cs => storedContinuations_removeMatched _ _ _ cs
  -- only the continuations of the join itself can have changed
  have hOther : ∀ cs, cs ≠ pc.channels →
      (withoutContinuation pc s).storedContinuations cs = s.storedContinuations cs := by
    intro cs hNe
    rw [withoutContinuation]
    split_ifs
    · rfl
    · exact storedContinuations_removeContinuation_of_ne s _ _ cs hNe
  have hInstalls : ∀ c, (retire pc s (.produce channel data persist)).installs c = s.installs c := fun c => by
    rw [installs, hRetired.base.installedJoins]
    rfl
  have hInst : ∀ cs, (retire pc s (.produce channel data persist)).installed cs = s.installed cs := fun cs => by
    rw [installed, hRetired.base.installed]
    rfl
  have hInst' : ∀ cs, (withoutContinuation pc s).installed cs = s.installed cs := fun cs => by
    rw [installed, hWithin.base.installed]
    rfl
  have hSub : ∀ c, ∀ join ∈ (retire pc s (.produce channel data persist)).storedJoins c,
      join ∈ s.storedJoins c := by
    intro c join hMem
    rw [hJoins] at hMem
    split_ifs at hMem
    · exact List.mem_of_mem_erase hMem
    · exact hMem
  refine ⟨?_, ?_, ?_, ?_, ?_, ?_, ?_⟩
  · intro c
    rw [hJoins]
    split_ifs
    · exact (h.nodup c).erase _
    · exact h.nodup c
  · exact fun c join hMem => h.own c join (hSub c join hMem)
  · intro cs hStored c hc
    rw [hContinuations] at hStored
    have hBefore : s.storedContinuations cs ≠ [] := by
      intro hNil
      apply hStored
      have hLe := hWithin.continuations cs
      rw [hNil] at hLe
      exact List.sublist_nil.mp hLe
    have hListed := h.listed cs hBefore c hc
    rw [hJoins]
    split_ifs with hGone
    · have hNe : cs ≠ pc.channels := fun hEq => hStored (hEq ▸ hGone.2.2)
      exact (List.mem_erase_of_ne hNe).mpr hListed
    · exact hListed
  · intro c join hMem
    have hBefore := h.backed c join (hSub c join hMem)
    rw [hContinuations, hInst]
    by_cases hSame : join = pc.channels
    · subst hSame
      by_contra hNone
      rw [not_or, not_not] at hNone
      have hAbandoned : Abandoned (withoutContinuation pc s) pc.channels :=
        ⟨by rw [hInst']; exact hNone.2, hNone.1⟩
      have hOwn := h.own c _ (hSub c _ hMem)
      rw [hJoins, if_pos ⟨hOwn, hAbandoned⟩] at hMem
      exact (h.nodup c).not_mem_erase hMem
    · rwa [hOther join hSame]
  · intro c join hMem
    rw [hInstalls] at hMem
    rw [hInst]
    exact h.installOwn c join hMem
  · intro cs hSome c hc
    rw [hInst] at hSome
    rw [hInstalls]
    exact h.installListed cs hSome c hc
  · exact fun cs w hMem => h.distinct cs w (hRetired.getContinuations hMem)

def insertJoin (join : List C) (existing : List (List C)) : List (List C) :=
  if join ∈ existing then existing else join :: existing

theorem mem_insertJoin {join join' : List C} {existing : List (List C)} :
    join' ∈ insertJoin join existing ↔ join' = join ∨ join' ∈ existing := by
  rw [insertJoin]
  split_ifs with hMem
  · exact ⟨.inr, fun h => h.elim (fun hEq => hEq ▸ hMem) id⟩
  · exact List.mem_cons

theorem nodup_insertJoin {join : List C} {existing : List (List C)} (h : existing.Nodup) :
    (insertJoin join existing).Nodup := by
  rw [insertJoin]
  split_ifs with hMem
  · exact h
  · exact List.nodup_cons.mpr ⟨hMem, h⟩

theorem insertJoin_insertJoin (join : List C) (existing : List (List C)) :
    insertJoin join (insertJoin join existing) = insertJoin join existing :=
  if_pos (mem_insertJoin.mpr (.inl rfl))

theorem storedJoins_foldl_putJoin (channels join : List C) (s : HotStore C P A K) (c : C) :
    (channels.foldl (fun s c => s.putJoin c join) s).storedJoins c =
      if c ∈ channels then insertJoin join (s.storedJoins c) else s.storedJoins c := by
  induction channels generalizing s with
  | nil => rfl
  | cons channel channels ih =>
    have hPut : (s.putJoin channel join).storedJoins c =
        if c = channel then insertJoin join (s.storedJoins c) else s.storedJoins c := by
      by_cases hSame : c = channel
      · subst hSame
        rw [putJoin, storedJoins_withJoins, if_pos rfl, if_pos rfl]
        rfl
      · rw [putJoin, storedJoins_withJoins, if_neg hSame, if_neg hSame]
    rw [List.foldl_cons, ih, hPut]
    by_cases hSame : c = channel
    · simp [hSame, insertJoin_insertJoin]
    · simp [hSame]

variable [DecidableEq P] [DecidableEq K]

theorem mem_insertContinuation {wc w : WaitingContinuation P K} {existing : List (WaitingContinuation P K)}
    (hMem : w ∈ insertContinuation wc existing) : w = wc ∨ w ∈ existing := by
  rw [insertContinuation] at hMem
  split_ifs at hMem
  · exact .inr hMem
  · exact List.mem_cons.mp hMem

theorem insertContinuation_ne_nil (wc : WaitingContinuation P K) (existing : List (WaitingContinuation P K)) :
    insertContinuation wc existing ≠ [] := by
  rw [insertContinuation]
  split_ifs with hAny
  · rintro rfl
    cases hAny
  · exact List.cons_ne_nil _ _

theorem JoinIndex.storeWaiting (h : JoinIndex s) {channels : List C} (hNodup : channels.Nodup)
    {wc : WaitingContinuation P K} (hLength : channels.length = wc.patterns.length) :
    JoinIndex (storeWaitingContinuation channels wc s) := by
  have hJoins : ∀ c, (storeWaitingContinuation channels wc s).storedJoins c =
      if c ∈ channels then insertJoin channels (s.storedJoins c) else s.storedJoins c := fun c =>
    storedJoins_foldl_putJoin channels channels _ c
  have hContinuations := storedContinuations_storeWaitingContinuation channels wc s
  have hBase := (foldl_putJoin_frame channels channels (s.putContinuation channels wc)).2.2
  have hInstalls : ∀ c, (storeWaitingContinuation channels wc s).installs c = s.installs c := fun c => by
    rw [installs, storeWaitingContinuation, hBase.installedJoins]
    rfl
  have hKept : ∀ cs, s.storedContinuations cs ≠ [] →
      (storeWaitingContinuation channels wc s).storedContinuations cs ≠ [] := by
    intro cs hStored
    rw [hContinuations]
    split_ifs
    · exact insertContinuation_ne_nil _ _
    · exact hStored
  refine ⟨?_, ?_, ?_, ?_, ?_, ?_, ?_⟩
  · intro c
    rw [hJoins]
    split_ifs
    · exact nodup_insertJoin (h.nodup c)
    · exact h.nodup c
  · intro c join hMem
    rw [hJoins] at hMem
    split_ifs at hMem with hc
    · rcases mem_insertJoin.mp hMem with rfl | hMem
      · exact hc
      · exact h.own c join hMem
    · exact h.own c join hMem
  · intro cs hStored c hc
    rw [hContinuations] at hStored
    rw [hJoins]
    by_cases hSame : cs = channels
    · subst hSame
      rw [if_pos hc]
      exact mem_insertJoin.mpr (.inl rfl)
    · rw [if_neg hSame] at hStored
      have hListed := h.listed cs hStored c hc
      split_ifs
      · exact mem_insertJoin.mpr (.inr hListed)
      · exact hListed
  · intro c join hMem
    rw [installed_storeWaitingContinuation]
    have hOld : join ∈ s.storedJoins c → (storeWaitingContinuation channels wc s).storedContinuations join ≠ [] ∨
        (s.installed join).isSome := fun hMem => (h.backed c join hMem).imp_left (hKept join)
    rw [hJoins] at hMem
    split_ifs at hMem
    · rcases mem_insertJoin.mp hMem with rfl | hMem
      · left
        rw [hContinuations, if_pos rfl]
        exact insertContinuation_ne_nil _ _
      · exact hOld hMem
    · exact hOld hMem
  · intro c join hMem
    rw [hInstalls] at hMem
    rw [installed_storeWaitingContinuation]
    exact h.installOwn c join hMem
  · intro cs hSome c hc
    rw [installed_storeWaitingContinuation] at hSome
    rw [hInstalls]
    exact h.installListed cs hSome c hc
  · intro cs w hMem
    rw [HotStore.getContinuations, installed_storeWaitingContinuation] at hMem
    rcases List.mem_append.mp hMem with hMem | hMem
    · exact h.distinct cs w (List.mem_append_left _ hMem)
    · rw [hContinuations] at hMem
      split_ifs at hMem with hSame
      · rcases mem_insertContinuation hMem with rfl | hMem
        · subst hSame
          exact ⟨hNodup, hLength⟩
        · exact h.distinct cs w (List.mem_append_right _ hMem)
      · exact h.distinct cs w (List.mem_append_right _ hMem)

omit [DecidableEq P] [DecidableEq K] in
theorem installs_foldl_installJoin (channels join : List C) (s : HotStore C P A K) (c : C) :
    (channels.foldl (fun s c => s.installJoin c join) s).installs c =
      if c ∈ channels then insertJoin join (s.installs c) else s.installs c := by
  induction channels generalizing s with
  | nil => rfl
  | cons channel channels ih =>
    have hPut : (s.installJoin channel join).installs c =
        if c = channel then insertJoin join (s.installs c) else s.installs c := by
      by_cases hSame : c = channel
      · subst hSame
        rw [if_pos rfl, installs, installJoin, AList.lookup_insert]
        rfl
      · rw [if_neg hSame, installs, installJoin, AList.lookup_insert_ne hSame]
        rfl
    rw [List.foldl_cons, ih, hPut]
    by_cases hSame : c = channel
    · simp [hSame, insertJoin_insertJoin]
    · simp [hSame]

omit [DecidableEq P] [DecidableEq K] in
theorem foldl_installJoin_frame (channels join : List C) (s : HotStore C P A K) :
    (∀ c, (channels.foldl (fun s c => s.installJoin c join) s).storedJoins c = s.storedJoins c) ∧
    (∀ cs, (channels.foldl (fun s c => s.installJoin c join) s).storedContinuations cs =
      s.storedContinuations cs) ∧
    ∀ cs, (channels.foldl (fun s c => s.installJoin c join) s).installed cs = s.installed cs := by
  induction channels generalizing s with
  | nil => exact ⟨fun _ => rfl, fun _ => rfl, fun _ => rfl⟩
  | cons channel channels ih => exact ih (s.installJoin channel join)

omit [DecidableEq P] [DecidableEq K] in
theorem JoinIndex.install (h : JoinIndex s) {channels : List C} (hNodup : channels.Nodup)
    {wc : { wc : WaitingContinuation P K // wc.persist = true }}
    (hLength : channels.length = wc.1.patterns.length) :
    JoinIndex (channels.foldl (fun s c => s.installJoin c channels) (s.installContinuation channels wc)) := by
  obtain ⟨hJoins, hContinuations, hInstalled⟩ :=
    foldl_installJoin_frame channels channels (s.installContinuation channels wc)
  have hInstalls : ∀ c, _ = if c ∈ channels then insertJoin channels (s.installs c) else s.installs c :=
    installs_foldl_installJoin channels channels (s.installContinuation channels wc)
  have hOne : ∀ cs, (s.installContinuation channels wc).installed cs =
      if cs = channels then some wc.1 else s.installed cs := by
    intro cs
    by_cases hSame : cs = channels
    · subst hSame
      rw [if_pos rfl]
      exact AList.lookup_insert _
    · rw [if_neg hSame]
      exact AList.lookup_insert_ne hSame
  have hMore : ∀ cs, (s.installed cs).isSome → ((s.installContinuation channels wc).installed cs).isSome := by
    intro cs hSome
    rw [hOne]
    split_ifs
    · rfl
    · exact hSome
  generalize channels.foldl (fun s c => s.installJoin c channels) (s.installContinuation channels wc) = t at *
  refine ⟨?_, ?_, ?_, ?_, ?_, ?_, ?_⟩
  · intro c
    rw [hJoins]
    exact h.nodup c
  · intro c join hMem
    rw [hJoins] at hMem
    exact h.own c join hMem
  · intro cs hStored c hc
    rw [hContinuations] at hStored
    rw [hJoins]
    exact h.listed cs hStored c hc
  · intro c join hMem
    rw [hJoins] at hMem
    rw [hContinuations, hInstalled]
    exact (h.backed c join hMem).imp_right (hMore join)
  · intro c join hMem
    have hOld : join ∈ s.installs c → c ∈ join ∧ (t.installed join).isSome := fun hMem => by
      rw [hInstalled]
      exact (h.installOwn c join hMem).imp_right (hMore join)
    rw [hInstalls] at hMem
    split_ifs at hMem with hc
    · rcases mem_insertJoin.mp hMem with rfl | hMem
      · rw [hInstalled, hOne, if_pos rfl]
        exact ⟨hc, rfl⟩
      · exact hOld hMem
    · exact hOld hMem
  · intro cs hSome c hc
    rw [hInstalled, hOne] at hSome
    rw [hInstalls]
    by_cases hSame : cs = channels
    · subst hSame
      rw [if_pos hc]
      exact mem_insertJoin.mpr (.inl rfl)
    · rw [if_neg hSame] at hSome
      have hListed := h.installListed cs hSome c hc
      split_ifs
      · exact mem_insertJoin.mpr (.inr hListed)
      · exact hListed
  · intro cs w hMem
    rw [HotStore.getContinuations, hInstalled, hContinuations, hOne] at hMem
    rcases List.mem_append.mp hMem with hMem | hMem
    · by_cases hSame : cs = channels
      · subst hSame
        rw [if_pos rfl] at hMem
        obtain rfl := List.mem_singleton.mp hMem
        exact ⟨hNodup, hLength⟩
      · rw [if_neg hSame] at hMem
        exact h.distinct cs w (List.mem_append_left _ hMem)
    · exact h.distinct cs w (List.mem_append_right _ hMem)

end step

def DistinctChannels : SpaceOp C P A K → Prop
  | .op (.consume channels _ _ _ _) => channels.Nodup
  | .op (.produce ..) => True
  | .install channels _ _ => channels.Nodup

variable [DecidableEq P] [DecidableEq K]

variable {st : RSpace C P A K}

theorem JoinIndex.step {env : SpaceEnv C P A K} {sh : Shuffle C P A K} {st' : RSpace C P A K}
    {op : Op C P A K} {result : MaybeConsumeResult C P A K} (h : JoinIndex st.store)
    (hDistinct : DistinctChannels (.op op)) (hStep : st.step env sh op = .ok (result, st')) :
    JoinIndex st'.store := by
  obtain ⟨hAccepted, hOutcome⟩ := step_outcome hStep
  cases hOutcome with
  | fired pc s hSelected hView =>
    have hStart := h.of_sameView hView
    cases op with
    | consume channels patterns continuation persist peeks =>
      exact hStart.retire_consume pc channels patterns continuation persist peeks
    | produce channel data persist =>
      have hMatch : Selected env s pc := by
        obtain ⟨hCommit, data', hOffer, hExtract⟩ := selected_spec hSelected
        exact ⟨hCommit, data', fun c => by rw [hView.data]; exact hOffer c, hExtract⟩
      refine hStart.retire_produce hMatch ?_ channel data persist
      rw [HotStore.getContinuations, hView.continuations, installed, hView.installed]
      exact mem_getContinuations_of_selected hSelected
  | kept s hSelected hView =>
    have hStart := h.of_sameView hView
    cases op with
    | consume channels patterns continuation persist peeks => exact hStart.storeWaiting hDistinct hAccepted.2
    | produce channel data persist =>
      exact JoinIndex.congr (t := s) (fun _ => rfl) (fun _ => rfl) rfl rfl hStart

theorem JoinIndex.spaceStep {env : SpaceEnv C P A K} {sh : Shuffle C P A K} {st' : RSpace C P A K}
    {call : SpaceOp C P A K} (h : JoinIndex st.store) (hDistinct : DistinctChannels call)
    (hStep : st.spaceStep env sh call = .ok st') : JoinIndex st'.store := by
  cases call with
  | op op =>
    rw [RSpace.spaceStep] at hStep
    cases hOp : st.step env sh op with
    | error panic =>
      rw [hOp] at hStep
      cases hStep
    | ok r =>
      rw [hOp] at hStep
      obtain rfl := Except.ok.inj hStep
      exact h.step hDistinct hOp
  | install channels patterns continuation =>
    have hView := h.of_sameView (sameView_fillData st.store channels)
    rw [RSpace.spaceStep, lockedInstallInternal] at hStep
    split_ifs at hStep with hLength
    · cases hStep
    · simp only at hStep
      split at hStep
      · obtain rfl := Except.ok.inj hStep
        exact hView.install hDistinct (not_not.mp hLength)
      · obtain rfl := Except.ok.inj hStep
        exact hView

theorem JoinIndex.runAll {env : SpaceEnv C P A K} {calls : List (SpaceOp C P A K × Shuffle C P A K)}
    (hDistinct : ∀ call ∈ calls, DistinctChannels call.1) {final : RSpace C P A K} (h : JoinIndex st.store)
    (hRun : st.runAll env calls = .ok final) : JoinIndex final.store := by
  induction calls generalizing st with
  | nil =>
    obtain rfl := Except.ok.inj hRun
    exact h
  | cons call calls ih =>
    obtain ⟨hFirst, hRest⟩ := List.forall_mem_cons.mp hDistinct
    rw [RSpace.runAll, List.foldlM_cons] at hRun
    obtain ⟨st₁, hStep, hLater⟩ := exists_of_bind_ok hRun
    exact ih hRest (h.spaceStep hFirst hStep) hLater

/-- After every run from the empty space whose joins name their channels once: a join is listed by
all of its channels exactly when something waits on it; apart from the installed joins it is listed
once at most, and exactly once when something waits and nothing is installed; and a channel
lists only joins that name it. -/
theorem runAll_joins (env : SpaceEnv C P A K) {calls : List (SpaceOp C P A K × Shuffle C P A K)}
    (hDistinct : ∀ call ∈ calls, DistinctChannels call.1) {counter : Shared.Bytes → Int} {st : RSpace C P A K}
    (hRun : RSpace.runAll env calls ⟨createFromHr (.empty C P A K), [], counter⟩ = .ok st) :
    (∀ cs, cs ≠ [] →
      ((∀ c ∈ cs, cs ∈ (st.store.getJoins c).1) ↔ (st.store.getContinuations cs).1 ≠ [])) ∧
    (∀ cs, ∀ c ∈ cs, (st.store.storedJoins c).count cs ≤ 1 ∧ (st.store.installed cs = none →
      ((st.store.storedJoins c).count cs = 1 ↔ (st.store.getContinuations cs).1 ≠ []))) ∧
    ∀ c, ∀ join ∈ (st.store.getJoins c).1, c ∈ join := by
  have h : JoinIndex st.store := JoinIndex.runAll hDistinct joinIndex_empty hRun
  have hWaits : ∀ cs, (st.store.getContinuations cs).1 ≠ [] ↔
      (st.store.installed cs).isSome ∨ st.store.storedContinuations cs ≠ [] := by
    intro cs
    cases hInstalled : st.store.installed cs with
    | none => simp [HotStore.getContinuations, hInstalled]
    | some w => simp [HotStore.getContinuations, hInstalled]
  have hJoins : ∀ c join, join ∈ (st.store.getJoins c).1 ↔
      join ∈ st.store.installs c ∨ join ∈ st.store.storedJoins c := fun c join => List.mem_append
  refine ⟨fun cs hNe => ?_, fun cs c hc => ?_, fun c join hMem => ?_⟩
  · rw [hWaits]
    constructor
    · intro hAll
      obtain ⟨c, hc⟩ := List.exists_mem_of_ne_nil cs hNe
      rcases (hJoins c cs).mp (hAll c hc) with hMem | hMem
      · exact .inl (h.installOwn c cs hMem).2
      · exact (h.backed c cs hMem).symm
    · rintro (hInstalled | hStored) c hc
      · exact (hJoins c cs).mpr (.inl (h.installListed cs hInstalled c hc))
      · exact (hJoins c cs).mpr (.inr (h.listed cs hStored c hc))
  · refine ⟨List.nodup_iff_count_le_one.mp (h.nodup c) cs, fun hNone => ?_⟩
    rw [hWaits, hNone]
    constructor
    · intro hOnce
      have hMem : cs ∈ st.store.storedJoins c := List.count_pos_iff.mp (by omega)
      have hBacked := h.backed c cs hMem
      rw [hNone] at hBacked
      exact hBacked.symm
    · intro hWaiting
      have hStored := hWaiting.resolve_left (by simp)
      exact List.count_eq_one_of_mem (h.nodup c) (h.listed cs hStored c hc)
  · rcases (hJoins c join).mp hMem with hMem | hMem
    · exact (h.installOwn c join hMem).1
    · exact h.own c join hMem

def installSeven : List (SpaceOp Nat Nat Nat Nat × Shuffle Nat Nat Nat Nat) :=
  [(.install [7] [0] 0, .refl ..)]

theorem runAll_installSeven :
    ∃ st, RSpace.runAll sampleEnv installSeven emptySpace = .ok st ∧ (st.store.getContinuations [7]).1 ≠ [] ∧
      ∀ c, ∀ join ∈ (st.store.getJoins c).1, c ∈ join := by
  obtain ⟨st, hRun, hWaits⟩ : ∃ st, RSpace.runAll sampleEnv installSeven emptySpace = .ok st ∧
      (st.store.getContinuations [7]).1 ≠ [] := ⟨_, rfl, List.cons_ne_nil _ _⟩
  refine ⟨st, hRun, hWaits, (runAll_joins sampleEnv ?_ hRun).2.2⟩
  intro call hMem
  obtain rfl := List.mem_singleton.mp hMem
  exact List.nodup_singleton 7

/-- The installed join is not among the joins that are not installed, although something waits. -/
theorem installSeven_not_listed_once :
    ∃ st, RSpace.runAll sampleEnv installSeven emptySpace = .ok st ∧
      (∀ call ∈ installSeven, DistinctChannels call.1) ∧
      ¬ ((∀ c ∈ [7], [7] ∈ (st.store.getJoins c).1 ∧ (st.store.storedJoins c).count [7] = 1) ↔
        (st.store.getContinuations [7]).1 ≠ []) := by
  obtain ⟨st, hRun, hWaits, hCount⟩ : ∃ st, RSpace.runAll sampleEnv installSeven emptySpace = .ok st ∧
      (st.store.getContinuations [7]).1 ≠ [] ∧ (st.store.storedJoins 7).count [7] = 0 :=
    ⟨_, rfl, List.cons_ne_nil _ _, rfl⟩
  refine ⟨st, hRun, ?_, fun hIff => ?_⟩
  · intro call hMem
    obtain rfl := List.mem_singleton.mp hMem
    exact List.nodup_singleton 7
  · have hOnce := (hIff.mpr hWaits 7 List.mem_cons_self).2
    omega

end F1r3Node.Space
