import F1r3Node.Space.RSpaceSpec

/-! # What an operation changes in the store

Retiring a match removes data, one waiting continuation at most and the joins on which nothing waits. Keeping an
operation adds one datum or one continuation.
-/

namespace F1r3Node.Space

open HotStore RSpace

variable {C P A K : Type} [DecidableEq C]

section frames

variable (s : HotStore C P A K) (channel : C) (channels : List C) (index : Int) (cs : List C)

@[simp] theorem storedContinuations_removeDatum :
    (s.removeDatum channel index).2.storedContinuations cs = s.storedContinuations cs := by
  rw [removeDatum]
  split_ifs <;> rfl

@[simp] theorem storedJoins_removeDatum (c : C) :
    (s.removeDatum channel index).2.storedJoins c = s.storedJoins c := by
  rw [removeDatum]
  split_ifs <;> rfl

@[simp] theorem storedData_removeJoin (c : C) :
    (s.removeJoin channel channels).storedData c = s.storedData c := rfl

@[simp] theorem storedContinuations_removeJoin :
    (s.removeJoin channel channels).storedContinuations cs = s.storedContinuations cs := rfl

@[simp] theorem storedData_removeContinuation :
    (s.removeContinuation channels index).storedData channel = s.storedData channel := by
  rw [removeContinuation]
  split_ifs <;> rfl

@[simp] theorem storedJoins_removeContinuation :
    (s.removeContinuation channels index).storedJoins channel = s.storedJoins channel := by
  rw [removeContinuation]
  split_ifs <;> rfl

theorem storedContinuations_removeContinuation_of_ne (h : cs ≠ channels) :
    (s.removeContinuation channels index).storedContinuations cs = s.storedContinuations cs := by
  rw [removeContinuation]
  split_ifs <;> simp [h]

end frames

structure SameBase (s t : HotStore C P A K) : Prop where
  installed : s.installedContinuations = t.installedContinuations
  installedJoins : s.installedJoins = t.installedJoins
  history : s.history = t.history

omit [DecidableEq C] in
theorem SameBase.refl (s : HotStore C P A K) : SameBase s s := ⟨rfl, rfl, rfl⟩

omit [DecidableEq C] in
theorem SameBase.trans {s t u : HotStore C P A K} (h : SameBase s t) (h' : SameBase t u) : SameBase s u :=
  ⟨h.installed.trans h'.installed, h.installedJoins.trans h'.installedJoins, h.history.trans h'.history⟩

theorem sameBase_removeDatum (s : HotStore C P A K) (channel : C) (index : Int) :
    SameBase (s.removeDatum channel index).2 s := by
  rw [removeDatum]
  split_ifs <;> exact ⟨rfl, rfl, rfl⟩

theorem sameBase_removeContinuation (s : HotStore C P A K) (channels : List C) (index : Int) :
    SameBase (s.removeContinuation channels index) s := by
  rw [removeContinuation]
  split_ifs <;> exact ⟨rfl, rfl, rfl⟩

theorem removeMatched_induction {motive : HotStore C P A K → Prop} (channels : List C)
    (hDatum : ∀ s channel index, motive s → motive (s.removeDatum channel index).2)
    (hJoin : ∀ s channel, motive s → motive (s.removeJoin channel channels))
    (cands : List (ConsumeCandidate C A)) {s : HotStore C P A K} (h : motive s) :
    motive (removeMatchedDatumAndJoin channels cands s) := by
  rw [removeMatchedDatumAndJoin]
  induction sortByIndex cands generalizing s with
  | nil => exact h
  | cons cand cands ih =>
    rw [List.foldl_cons]
    apply ih
    split_ifs
    · have hRemoved := hDatum s cand.channel cand.datumIndex h
      split
      next hEq => rwa [hEq] at hRemoved
      next hEq =>
        rw [hEq] at hRemoved
        exact hJoin _ _ hRemoved
    · exact hJoin _ _ h

theorem storePersistent_induction {motive : HotStore C P A K → Prop}
    (hDatum : ∀ s channel index, motive s → motive (s.removeDatum channel index).2)
    (cands : List (ConsumeCandidate C A)) {s : HotStore C P A K} (h : motive s) :
    motive (storePersistentData cands s) := by
  rw [storePersistentData]
  induction sortByIndex cands generalizing s with
  | nil => exact h
  | cons cand cands ih =>
    rw [List.foldl_cons]
    apply ih
    split_ifs
    · exact h
    · exact hDatum s cand.channel cand.datumIndex h

@[simp] theorem storedContinuations_storePersistentData (cands : List (ConsumeCandidate C A))
    (s : HotStore C P A K) (cs : List C) :
    (storePersistentData cands s).storedContinuations cs = s.storedContinuations cs := by
  refine storePersistent_induction (motive := fun t => t.storedContinuations cs = s.storedContinuations cs)
    (fun t channel index h => ?_) cands rfl
  rw [storedContinuations_removeDatum, h]

@[simp] theorem storedContinuations_removeMatched (channels : List C)
    (cands : List (ConsumeCandidate C A)) (s : HotStore C P A K) (cs : List C) :
    (removeMatchedDatumAndJoin channels cands s).storedContinuations cs = s.storedContinuations cs := by
  refine removeMatched_induction (motive := fun t => t.storedContinuations cs = s.storedContinuations cs)
    channels (fun t channel index h => ?_) (fun t channel h => ?_) cands rfl
  · rw [storedContinuations_removeDatum, h]
  · rw [storedContinuations_removeJoin, h]

theorem storedData_removeDatum_sublist (s : HotStore C P A K) (channel c : C) (index : Int) :
    ((s.removeDatum channel index).2.storedData c).Sublist (s.storedData c) := by
  have hRead := (sameView_getData s channel).data c
  rw [getData] at hRead
  rw [removeDatum]
  split_ifs
  · rw [hRead]
  · rw [storedData_withData]
    split_ifs with hSame
    · rw [hSame]
      exact List.eraseIdx_sublist _ _
    · exact List.Sublist.refl _

theorem storedContinuations_removeContinuation_sublist (s : HotStore C P A K) (channels cs : List C)
    (index : Int) :
    ((s.removeContinuation channels index).storedContinuations cs).Sublist (s.storedContinuations cs) := by
  by_cases hSame : cs = channels
  · subst hSame
    have hErase : ∀ i : Nat, ((s.withContinuations cs ((s.storedContinuations cs).eraseIdx i)).storedContinuations
        cs).Sublist (s.storedContinuations cs) := by
      intro i
      rw [storedContinuations_withContinuations, if_pos rfl]
      exact List.eraseIdx_sublist _ _
    have hRead : ((s.withContinuations cs (s.storedContinuations cs)).storedContinuations cs).Sublist
        (s.storedContinuations cs) := by
      rw [storedContinuations_withContinuations, if_pos rfl]
    rw [removeContinuation]
    split_ifs
    · exact List.Sublist.refl _
    · exact hRead
    · exact hErase _
    · exact hRead
    · exact hErase _
  · rw [storedContinuations_removeContinuation_of_ne s channels index cs hSame]

/-- A store that holds nothing but data and continuations of another one. -/
structure Within (s t : HotStore C P A K) : Prop where
  data : ∀ c, (s.storedData c).Sublist (t.storedData c)
  continuations : ∀ cs, (s.storedContinuations cs).Sublist (t.storedContinuations cs)
  base : SameBase s t

theorem Within.refl (s : HotStore C P A K) : Within s s :=
  ⟨fun _ => .refl _, fun _ => .refl _, .refl s⟩

theorem within_removeDatum {s t : HotStore C P A K} (h : Within s t) (channel : C) (index : Int) :
    Within (s.removeDatum channel index).2 t where
  data c := (storedData_removeDatum_sublist s channel c index).trans (h.data c)
  continuations cs := by
    rw [storedContinuations_removeDatum]
    exact h.continuations cs
  base := (sameBase_removeDatum s channel index).trans h.base

theorem within_removeContinuation (s : HotStore C P A K) (channels : List C) (index : Int) :
    Within (s.removeContinuation channels index) s where
  data c := by rw [storedData_removeContinuation]
  continuations cs := storedContinuations_removeContinuation_sublist s channels cs index
  base := sameBase_removeContinuation s channels index

theorem within_retire (pc : ProduceCandidate C P A K) (s : HotStore C P A K) (op : Op C P A K) :
    Within (retire pc s op) s := by
  cases op with
  | consume channels patterns continuation persist peeks =>
    exact storePersistent_induction (motive := fun t => Within t s)
      (fun t channel index h => within_removeDatum h channel index) pc.dataCandidates (.refl s)
  | produce channel data persist =>
    refine removeMatched_induction (motive := fun t => Within t s) pc.channels
      (fun t channel index h => within_removeDatum h channel index)
      (fun t channel h => ⟨h.data, h.continuations, h.base.installed, h.base.installedJoins, h.base.history⟩) pc.dataCandidates ?_
    split_ifs
    · exact .refl s
    · exact within_removeContinuation s pc.channels pc.continuationIndex

theorem Within.getContinuations {s t : HotStore C P A K} (h : Within s t) {cs : List C}
    {w : WaitingContinuation P K} (hMem : w ∈ (s.getContinuations cs).1) :
    w ∈ (t.getContinuations cs).1 := by
  rw [HotStore.getContinuations, installed, h.base.installed] at hMem
  rcases List.mem_append.mp hMem with hInstalled | hStored
  · exact List.mem_append_left _ hInstalled
  · exact List.mem_append_right _ ((h.continuations cs).subset hStored)

theorem perm_removeContinuation {s : HotStore C P A K} {channels : List C}
    {wc : WaitingContinuation P K} {index : Int}
    (hMem : (wc, index) ∈ withIndex (s.getContinuations channels).1) (hPersist : wc.persist = false) :
    (wc :: (s.removeContinuation channels index).storedContinuations channels).Perm
      (s.storedContinuations channels) := by
  obtain ⟨n, hIndex, hItem⟩ := mem_withIndex.mp hMem
  replace hIndex : index = n := hIndex
  replace hItem : ((s.installed channels).toList ++ s.storedContinuations channels)[n]? = some wc := hItem
  have hErase : ∀ m : Nat, (s.storedContinuations channels)[m]? = some wc →
      (wc :: (s.storedContinuations channels).eraseIdx m).Perm (s.storedContinuations channels) := by
    intro m hm
    obtain ⟨hLt, hGet⟩ := List.getElem?_eq_some_iff.mp hm
    rw [← hGet]
    exact List.getElem_cons_eraseIdx_perm hLt
  rw [removeContinuation]
  cases hInstalled : s.installed channels with
  | none =>
    rw [hInstalled] at hItem
    replace hItem : (s.storedContinuations channels)[n]? = some wc := hItem
    have hIn : ¬ outOfBounds index (s.storedContinuations channels) := by
      have hLt := (List.getElem?_eq_some_iff.mp hItem).1
      rintro (h | h) <;> omega
    simp only [Option.isSome_none, Bool.false_eq_true, false_and, if_false, if_neg hIn,
      storedContinuations_withContinuations, if_true]
    rw [hIndex, Int.toNat_natCast]
    exact hErase n hItem
  | some inst =>
    rw [hInstalled] at hItem
    cases n with
    | zero =>
      obtain rfl : inst = wc := by simpa using hItem
      rw [persist_of_installed hInstalled] at hPersist
      cases hPersist
    | succ n =>
      replace hItem : (s.storedContinuations channels)[n]? = some wc := by simpa using hItem
      have hIn : ¬ outOfBounds (index - 1) (s.storedContinuations channels) := by
        have hLt := (List.getElem?_eq_some_iff.mp hItem).1
        rintro (h | h) <;> omega
      have hNonzero : index ≠ 0 := by omega
      simp only [Option.isSome_some, hNonzero, and_false, if_false, if_true, if_neg hIn,
        storedContinuations_withContinuations]
      have hNat : (index - 1).toNat = n := by omega
      rw [hNat]
      exact hErase n hItem

theorem foldl_putJoin_frame (channels join : List C) (s : HotStore C P A K) :
    (∀ c, (channels.foldl (fun s c => s.putJoin c join) s).storedData c = s.storedData c) ∧
    (∀ cs, (channels.foldl (fun s c => s.putJoin c join) s).storedContinuations cs =
      s.storedContinuations cs) ∧
    SameBase (channels.foldl (fun s c => s.putJoin c join) s) s := by
  induction channels generalizing s with
  | nil => exact ⟨fun _ => rfl, fun _ => rfl, .refl s⟩
  | cons c channels ih =>
    obtain ⟨hData, hContinuations, hBase⟩ := ih (s.putJoin c join)
    exact ⟨hData, hContinuations, hBase.trans ⟨rfl, rfl, rfl⟩⟩

section keep

variable [DecidableEq P] [DecidableEq K]

def insertContinuation (wc : WaitingContinuation P K) (existing : List (WaitingContinuation P K)) :
    List (WaitingContinuation P K) :=
  if existing.any (sameContinuation · wc) then existing else wc :: existing

section

variable (channels : List C) (wc : WaitingContinuation P K) (s : HotStore C P A K)

include channels wc s

@[simp] theorem storedData_storeWaitingContinuation (c : C) :
    (storeWaitingContinuation channels wc s).storedData c = s.storedData c :=
  (foldl_putJoin_frame channels channels _).1 c

@[simp] theorem installed_storeWaitingContinuation (cs : List C) :
    (storeWaitingContinuation channels wc s).installed cs = s.installed cs := by
  rw [installed, storeWaitingContinuation, (foldl_putJoin_frame channels channels _).2.2.installed]
  rfl

theorem storedContinuations_storeWaitingContinuation (cs : List C) :
    (storeWaitingContinuation channels wc s).storedContinuations cs =
      if cs = channels then insertContinuation wc (s.storedContinuations cs)
      else s.storedContinuations cs := by
  rw [storeWaitingContinuation, (foldl_putJoin_frame channels channels _).2.1, putContinuation,
    storedContinuations_withContinuations]
  by_cases h : cs = channels
  · rw [if_pos h, if_pos h, h]
    rfl
  · rw [if_neg h, if_neg h]

end

theorem sameBase_step {env : SpaceEnv C P A K} {sh : Shuffle C P A K} {st st' : RSpace C P A K}
    {op : Op C P A K} {result : MaybeConsumeResult C P A K}
    (hStep : st.step env sh op = .ok (result, st')) : SameBase st'.store st.store := by
  have hView : ∀ {s : HotStore C P A K}, SameView s st.store → SameBase s st.store := fun h =>
    ⟨h.installed, h.installedJoins, h.history⟩
  cases (step_outcome hStep).2 with
  | fired pc s hSelected hSame => exact (within_retire pc s op).base.trans (hView hSame)
  | kept s hSelected hSame =>
    refine SameBase.trans ?_ (hView hSame)
    cases op with
    | consume channels patterns continuation persist peeks =>
      exact (foldl_putJoin_frame channels channels _).2.2.trans ⟨rfl, rfl, rfl⟩
    | produce channel data persist => exact ⟨rfl, rfl, rfl⟩

end keep

end F1r3Node.Space
