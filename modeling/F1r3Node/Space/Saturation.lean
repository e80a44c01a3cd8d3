import F1r3Node.Space.JoinIndex

/-! # Saturation

The matcher commits to one datum for each channel of a join before it asks the guard. When the guard rejects that tuple
the operation is kept, although the offer may hold another tuple.
-/

namespace F1r3Node.Space

open HotStore RSpace Lib

variable {C P A K : Type} [DecidableEq C]

/-- A waiting continuation and one stored datum for each channel of its join, with what the patterns
bind, such that the guard accepts the bindings. -/
structure Enabled (env : SpaceEnv C P A K) (s : HotStore C P A K) (channels : List C)
    (w : WaitingContinuation P K) (chosen : List (Datum A × A)) : Prop where
  waiting : w ∈ (s.getContinuations channels).1
  stored : List.Forall₂ (fun c x => x.1 ∈ s.storedData c) channels chosen
  matched : List.Forall₂ (fun p x => env.get p x.1.a = some x.2) w.patterns chosen
  commit : env.checkCommit w.continuation (chosen.map Prod.snd) = true

def Saturated (env : SpaceEnv C P A K) (s : HotStore C P A K) : Prop :=
  ∀ channels w chosen, ¬ Enabled env s channels w chosen

def Binds (env : SpaceEnv C P A K) (data : C → IndexedData A) (pairs : List (C × P)) (tuple : List A) : Prop :=
  List.Forall₂ (fun pair a => ∃ item ∈ data pair.1, env.get pair.2 item.1.a = some a) pairs tuple

def PassesOver (env : SpaceEnv C P A K) (data : C → IndexedData A) (pairs : List (C × P)) (continuation : K) :
    Prop :=
  ∃ cands, extractDataCandidates env pairs data = some cands ∧
    env.checkCommit continuation (matchedData cands) = false ∧
    ∃ tuple, Binds env data pairs tuple ∧ tuple ≠ matchedData cands

def Exhaustive (env : SpaceEnv C P A K) (sh : Shuffle C P A K) (s : HotStore C P A K) (op : Op C P A K) : Prop :=
  selected env sh s op = none →
    match op with
    | .consume channels patterns continuation _ _ =>
      ¬ PassesOver env (fetchChannelToIndexData sh s) (channels.zip patterns) continuation
    | .produce channel data persist =>
      ∀ n join, (s.getJoins channel).1[n]? = some join →
        ∀ w ∈ (s.getContinuations join).1,
          ¬ PassesOver env (fetchMatchingData sh s channel (datumOf env channel data persist) n)
            (join.zip w.patterns) w.continuation

section attempts

variable {env : SpaceEnv C P A K} {data : C → IndexedData A} {pairs : List (C × P)}

theorem exists_extract_of_binds (hNodup : (pairs.map Prod.fst).Nodup) {tuple : List A}
    (hBinds : Binds env data pairs tuple) : ∃ cands, extractDataCandidates env pairs data = some cands := by
  induction pairs generalizing data tuple with
  | nil => exact ⟨[], rfl⟩
  | cons pair pairs ih =>
    obtain ⟨channel, pattern⟩ := pair
    obtain ⟨hHead, hTail⟩ := List.nodup_cons.mp hNodup
    cases hBinds with
    | @cons _ a _ tuple hItem hRest =>
      obtain ⟨item, hMem, hGet⟩ := hItem
      cases hFind : findMatchingDataCandidate env channel pattern (data channel) with
      | none =>
        have hNone := find_eq_none_iff.mp hFind item hMem
        rw [hNone] at hGet
        cases hGet
      | some found =>
        obtain ⟨cand, rem⟩ := found
        -- the later channels are other ones, and their offer is what it was
        have hLater : Binds env (Function.update data channel rem) pairs tuple := by
          refine forall₂_imp_of_mem_left hRest fun pair' hPair a hOther => ?_
          have hNe : pair'.1 ≠ channel := by
            rintro rfl
            exact hHead (List.mem_map.mpr ⟨pair', hPair, rfl⟩)
          rwa [Function.update_of_ne hNe]
        obtain ⟨rest, hExtract⟩ := ih hTail hLater
        exact ⟨cand :: rest, extract_cons_eq_some.mpr ⟨cand, rem, rest, hFind, hExtract, rfl⟩⟩

theorem checkCommit_of_not_passesOver (hNodup : (pairs.map Prod.fst).Nodup) {continuation : K}
    (hVeto : ∀ cands, extractDataCandidates env pairs data = some cands →
      env.checkCommit continuation (matchedData cands) = false)
    (hNone : ¬ PassesOver env data pairs continuation) {tuple : List A} (hBinds : Binds env data pairs tuple) :
    env.checkCommit continuation tuple = false := by
  obtain ⟨cands, hExtract⟩ := exists_extract_of_binds hNodup hBinds
  have hRejected := hVeto cands hExtract
  by_contra hAccepted
  apply hNone
  refine ⟨cands, hExtract, hRejected, tuple, hBinds, ?_⟩
  rintro rfl
  exact hAccepted hRejected

theorem checkCommit_of_extractFirstMatch {channels : List C} (hNodup : channels.Nodup)
    {matchCandidates : List (WaitingContinuation P K × Int)}
    (hNone : extractFirstMatch env channels matchCandidates data = none)
    {candidate : WaitingContinuation P K × Int} (hMem : candidate ∈ matchCandidates)
    {cands : List (ConsumeCandidate C A)}
    (hExtract : extractDataCandidates env (channels.zip candidate.1.patterns) data = some cands) :
    env.checkCommit candidate.1.continuation (matchedData cands) = false := by
  induction matchCandidates with
  | nil => cases hMem
  | cons head matchCandidates ih =>
    obtain ⟨cont, index⟩ := head
    have hRestored := restore_extract_of_nodup env
      ((prefix_map_fst_zip channels cont.patterns).sublist.nodup hNodup) data
    rw [extractFirstMatch] at hNone
    simp only [hRestored] at hNone
    rcases List.mem_cons.mp hMem with rfl | hLater
    · rw [extractDataCandidates] at hExtract
      rw [hExtract] at hNone
      cases hCommit : env.checkCommit cont.continuation (matchedData cands) with
      | false => rfl
      | true =>
        simp only [hCommit, if_true] at hNone
        cases hNone
    · apply ih _ hLater
      split at hNone
      next =>
        split_ifs at hNone
        exact hNone
      next => exact hNone

theorem extractFirstMatch_of_runMatcher
    {fetchMatchingContinuations : Nat → List C → List (WaitingContinuation P K × Int)}
    {fetchMatchingData : Nat → C → IndexedData A} {m : Nat} {groupedChannels : List (List C)}
    {s : HotStore C P A K}
    (hRun : (runMatcherForChannels env fetchMatchingContinuations fetchMatchingData m groupedChannels s).1 = none)
    {n : Nat} {join : List C} (hJoin : groupedChannels[n]? = some join) :
    extractFirstMatch env join (fetchMatchingContinuations (m + n) join) (fetchMatchingData (m + n)) = none := by
  induction groupedChannels generalizing m n s with
  | nil => cases hJoin
  | cons channels groupedChannels ih =>
    rw [runMatcherForChannels] at hRun
    split at hRun
    next => cases hRun
    next hNone =>
      cases n with
      | zero =>
        obtain rfl := Option.some.inj hJoin
        exact hNone
      | succ n =>
        have hLater := ih hRun hJoin
        rwa [Nat.add_right_comm] at hLater

end attempts

section step

variable {env : SpaceEnv C P A K} {s t : HotStore C P A K}

theorem within_of_sameView (h : SameView s t) : Within s t where
  data c := by rw [h.data c]
  continuations cs := by rw [h.continuations cs]
  base := ⟨h.installed, h.installedJoins, h.history⟩

theorem Within.trans {u : HotStore C P A K} (h : Within s t) (h' : Within t u) : Within s u :=
  ⟨fun c => (h.data c).trans (h'.data c), fun cs => (h.continuations cs).trans (h'.continuations cs),
    h.base.trans h'.base⟩

theorem Saturated.of_within (h : Saturated env t) (hWithin : Within s t) : Saturated env s := by
  intro channels w chosen hEnabled
  refine h channels w chosen ⟨hWithin.getContinuations hEnabled.waiting, ?_, hEnabled.matched, hEnabled.commit⟩
  exact hEnabled.stored.imp fun c x hMem => (hWithin.data c).subset hMem

variable {channels : List C}

theorem binds_of_stored {patterns : List P} {chosen : List (Datum A × A)}
    (hStored : List.Forall₂ (fun c x => x.1 ∈ s.storedData c) channels chosen)
    (hMatched : List.Forall₂ (fun p x => env.get p x.1.a = some x.2) patterns chosen) {data : C → IndexedData A}
    (hOffer : ∀ c, ∀ d ∈ s.storedData c, ∃ index, (d, index) ∈ data c) :
    Binds env data (channels.zip patterns) (chosen.map Prod.snd) := by
  induction hStored generalizing patterns with
  | nil => exact .nil
  | @cons c x channels chosen hHead hTail ih =>
    cases hMatched with
    | cons hGet hRest =>
      obtain ⟨index, hMem⟩ := hOffer c x.1 hHead
      exact .cons ⟨(x.1, index), hMem, hGet⟩ (ih hRest)

theorem exists_mem_withIndex {α : Type} {items : List α} {a : α} (hMem : a ∈ items) :
    ∃ index, (a, index) ∈ withIndex items := by
  obtain ⟨n, hItem⟩ := List.mem_iff_getElem?.mp hMem
  exact ⟨n, mem_withIndex.mpr ⟨n, rfl, hItem⟩⟩

theorem mem_fetchChannelToIndexData (sh : Shuffle C P A K) {c : C} {d : Datum A} (hMem : d ∈ s.storedData c) :
    ∃ index, (d, index) ∈ fetchChannelToIndexData sh s c := by
  obtain ⟨index, hIndexed⟩ := exists_mem_withIndex hMem
  exact ⟨index, (sh.perm_data 0 c _).mem_iff.mpr hIndexed⟩

theorem mem_fetchMatchingData (sh : Shuffle C P A K) {channel c : C} {datum d : Datum A} (n : Nat)
    (hMem : d ∈ (s.putDatum channel datum).storedData c) :
    ∃ index, (d, index) ∈ fetchMatchingData sh s channel datum n c := by
  have hShuffled : ∀ d ∈ s.storedData c, ∃ index, (d, index) ∈ sh.data n c (withIndex (s.storedData c)) := by
    intro d hd
    obtain ⟨index, hIndexed⟩ := exists_mem_withIndex hd
    exact ⟨index, (sh.perm_data n c _).mem_iff.mpr hIndexed⟩
  rw [putDatum, storedData_withData] at hMem
  rw [fetchMatchingData]
  split_ifs at hMem ⊢ with hSame
  · subst hSame
    rcases List.mem_cons.mp hMem with rfl | hMem
    · exact ⟨-1, List.mem_cons_self⟩
    · obtain ⟨index, hIndexed⟩ := hShuffled d hMem
      exact ⟨index, List.mem_cons_of_mem _ hIndexed⟩
  · exact hShuffled d hMem

omit [DecidableEq C] in
theorem nodup_zip (hNodup : channels.Nodup) (patterns : List P) :
    ((channels.zip patterns).map Prod.fst).Nodup :=
  (prefix_map_fst_zip channels patterns).sublist.nodup hNodup

theorem Saturated.keep_consume [DecidableEq P] [DecidableEq K] {sh : Shuffle C P A K} (h : Saturated env s)
    {patterns : List P} {continuation : K} {persist : Bool} {peeks : Finset Int}
    (hNodup : channels.Nodup)
    (hNone : selected env sh s (.consume channels patterns continuation persist peeks) = none)
    (hExhaustive : Exhaustive env sh s (.consume channels patterns continuation persist peeks)) :
    Saturated env (keep env s (.consume channels patterns continuation persist peeks)) := by
  rintro join w chosen ⟨hWaiting, hStored, hMatched, hCommit⟩
  simp only [keep, storedData_storeWaitingContinuation] at hStored
  rw [keep, HotStore.getContinuations, installed_storeWaitingContinuation,
    storedContinuations_storeWaitingContinuation] at hWaiting
  have hOld : w ∉ (s.getContinuations join).1 := fun hMem => h join w chosen ⟨hMem, hStored, hMatched, hCommit⟩
  -- so the continuation is the new one, on its own join
  obtain ⟨rfl, rfl⟩ : join = channels ∧ w = waiting env channels patterns continuation persist peeks := by
    rcases List.mem_append.mp hWaiting with hMem | hMem
    · exact absurd (List.mem_append_left _ hMem) hOld
    · split_ifs at hMem with hSame
      · rcases mem_insertContinuation hMem with hNew | hMem
        · exact ⟨hSame, hNew⟩
        · exact absurd (List.mem_append_right _ hMem) hOld
      · exact absurd (List.mem_append_right _ hMem) hOld
  have hVeto : ∀ cands, extractDataCandidates env (join.zip patterns) (fetchChannelToIndexData sh s) = some cands →
      env.checkCommit continuation (matchedData cands) = false := by
    intro cands hExtract
    rw [selected, hExtract, Option.map_eq_none_iff, Option.filter_eq_none_iff] at hNone
    exact eq_false_of_ne_true (hNone cands rfl)
  have hBinds := binds_of_stored hStored hMatched fun c d hMem => mem_fetchChannelToIndexData sh hMem
  have hRejected := checkCommit_of_not_passesOver (nodup_zip hNodup patterns) hVeto (hExhaustive hNone) hBinds
  exact absurd hCommit (ne_true_of_eq_false hRejected)

theorem Saturated.keep_produce {sh : Shuffle C P A K} (h : Saturated env s) (hIndex : JoinIndex s)
    {channel : C} {data : A} {persist : Bool}
    (hNone : selected env sh s (.produce channel data persist) = none)
    (hExhaustive : Exhaustive env sh s (.produce channel data persist)) :
    Saturated env (s.putDatum channel (datumOf env channel data persist)) := by
  rintro join w chosen ⟨hWaiting, hStored, hMatched, hCommit⟩
  replace hWaiting : w ∈ (s.getContinuations join).1 := hWaiting
  by_cases hOwn : channel ∈ join
  · obtain ⟨n, hJoin⟩ := List.mem_iff_getElem?.mp (hIndex.mem_getJoins hWaiting hOwn)
    have hFirst := extractFirstMatch_of_runMatcher hNone hJoin
    rw [Nat.zero_add] at hFirst
    obtain ⟨index, hIndexed⟩ := exists_mem_withIndex hWaiting
    have hTried : (w, index) ∈ fetchMatchingContinuations sh s n join :=
      (sh.perm_continuations n _).mem_iff.mpr hIndexed
    have hNodup := (hIndex.distinct join w hWaiting).1
    have hBinds := binds_of_stored hStored hMatched fun c d hMem => mem_fetchMatchingData sh n hMem
    have hRejected := checkCommit_of_not_passesOver (nodup_zip hNodup w.patterns)
      (fun cands hExtract => checkCommit_of_extractFirstMatch hNodup hFirst hTried hExtract)
      (hExhaustive hNone n join hJoin w hWaiting) hBinds
    exact absurd hCommit (ne_true_of_eq_false hRejected)
  · refine h join w chosen ⟨hWaiting, ?_, hMatched, hCommit⟩
    refine forall₂_imp_of_mem_left hStored fun c hc x hMem => ?_
    have hNe : c ≠ channel := fun hSame => hOwn (hSame ▸ hc)
    rwa [putDatum, storedData_withData, if_neg hNe] at hMem

end step

section runs

variable [DecidableEq P] [DecidableEq K] {env : SpaceEnv C P A K}

theorem within_keep {s t : HotStore C P A K} (hView : SameView s t) (op : Op C P A K) :
    Within (keep env s op) (keep env t op) := by
  have hBase : SameBase s t := ⟨hView.installed, hView.installedJoins, hView.history⟩
  cases op with
  | consume channels patterns continuation persist peeks =>
    have hPut := fun u : HotStore C P A K => (foldl_putJoin_frame channels channels
      (u.putContinuation channels (waiting env channels patterns continuation persist peeks))).2.2
    refine ⟨fun c => ?_, fun cs => ?_, ?_⟩
    · rw [keep, keep, storedData_storeWaitingContinuation, storedData_storeWaitingContinuation, hView.data]
    · rw [keep, keep, storedContinuations_storeWaitingContinuation, storedContinuations_storeWaitingContinuation,
        hView.continuations]
    · exact ⟨(hPut s).installed.trans (hBase.installed.trans (hPut t).installed.symm),
        (hPut s).installedJoins.trans (hBase.installedJoins.trans (hPut t).installedJoins.symm),
        (hPut s).history.trans (hBase.history.trans (hPut t).history.symm)⟩
  | produce channel data persist =>
    refine ⟨fun c => ?_, fun cs => ?_, ⟨hBase.installed, hBase.installedJoins, hBase.history⟩⟩
    · rw [keep, keep, putDatum, putDatum, storedData_withData, storedData_withData, hView.data, hView.data]
    · exact (within_of_sameView hView).continuations cs

theorem Saturated.step {sh : Shuffle C P A K} {st st' : RSpace C P A K} {op : Op C P A K}
    {result : MaybeConsumeResult C P A K} (h : Saturated env st.store) (hIndex : JoinIndex st.store)
    (hDistinct : DistinctChannels (.op op)) (hExhaustive : Exhaustive env sh st.store op)
    (hStep : st.step env sh op = .ok (result, st')) : Saturated env st'.store := by
  cases (step_outcome hStep).2 with
  | fired pc s hSelected hView => exact h.of_within ((within_retire pc s op).trans (within_of_sameView hView))
  | kept s hSelected hView =>
    have hKept : Saturated env (keep env st.store op) := by
      cases op with
      | consume channels patterns continuation persist peeks => exact h.keep_consume hDistinct hSelected hExhaustive
      | produce channel data persist => exact h.keep_produce hIndex hSelected hExhaustive
    exact hKept.of_within (within_keep hView op)

variable (env) in
def ExhaustiveRun : List (Op C P A K × Shuffle C P A K) → RSpace C P A K → Prop
  | [], _ => True
  | (op, sh) :: ops, st =>
    Exhaustive env sh st.store op ∧
      ∀ result st', st.step env sh op = .ok (result, st') → ExhaustiveRun ops st'

theorem Saturated.run {ops : List (Op C P A K × Shuffle C P A K)}
    (hDistinct : ∀ call ∈ ops, DistinctChannels (.op call.1)) {st final : RSpace C P A K}
    {results : List (MaybeConsumeResult C P A K)} (h : Saturated env st.store) (hIndex : JoinIndex st.store)
    (hExhaustive : ExhaustiveRun env ops st) (hRun : st.run env ops = .ok (results, final)) :
    Saturated env final.store := by
  induction ops generalizing st results with
  | nil =>
    obtain ⟨-, rfl⟩ := Prod.mk.inj (Except.ok.inj hRun)
    exact h
  | cons call ops ih =>
    obtain ⟨op, sh⟩ := call
    obtain ⟨hFirst, hRest⟩ := List.forall_mem_cons.mp hDistinct
    obtain ⟨hNow, hLater⟩ := hExhaustive
    rw [RSpace.run] at hRun
    obtain ⟨⟨result, st₁⟩, hStep, hTail⟩ := exists_of_bind_ok hRun
    obtain ⟨⟨results', st₂⟩, hRunTail, hLast⟩ := exists_of_bind_ok hTail
    obtain ⟨-, rfl⟩ := Prod.mk.inj (Except.ok.inj hLast)
    exact ih hRest (h.step hIndex hFirst hNow hStep) (hIndex.step hFirst hStep) (hLater result st₁ hStep) hRunTail

omit [DecidableEq P] [DecidableEq K] in
theorem saturated_empty : Saturated env (createFromHr (.empty C P A K)) := by
  rintro channels w chosen ⟨hWaiting, -⟩
  cases hWaiting

/-- A run from the empty space whose joins name their channels once reaches a saturated state, as long
as no operation was kept after its guard rejected one of several tuples on offer. -/
theorem saturated_of_exhaustiveRun (env : SpaceEnv C P A K) {ops : List (Op C P A K × Shuffle C P A K)}
    (hDistinct : ∀ call ∈ ops, DistinctChannels (.op call.1)) {counter : Shared.Bytes → Int}
    (hExhaustive : ExhaustiveRun env ops ⟨createFromHr (.empty C P A K), [], counter⟩)
    {st : RSpace C P A K} {results : List (MaybeConsumeResult C P A K)}
    (hRun : RSpace.run env ops ⟨createFromHr (.empty C P A K), [], counter⟩ = .ok (results, st)) :
    Saturated env st.store :=
  Saturated.run hDistinct saturated_empty joinIndex_empty hExhaustive hRun

end runs

def guardedRun : List (Op Nat Nat Nat Nat × Shuffle Nat Nat Nat Nat) :=
  [(.produce 7 1 false, .refl ..), (.produce 7 2 false, .refl ..), (.consume [7] [0] 1 false ∅, .refl ..)]

theorem guardedRun_not_saturated :
    (∀ call ∈ guardedRun, DistinctChannels (.op call.1)) ∧
      ∃ results st, emptySpace.run sampleEnv guardedRun = .ok (results, st) ∧ ¬ Saturated sampleEnv st.store := by
  refine ⟨?_, _, _, rfl, fun hSaturated => ?_⟩
  · intro call hMem
    simp only [guardedRun, List.mem_cons, List.not_mem_nil, or_false] at hMem
    rcases hMem with rfl | rfl | rfl
    · trivial
    · trivial
    · exact List.nodup_singleton 7
  · refine hSaturated [7] (waiting sampleEnv [7] [0] 1 false ∅) [(datumOf sampleEnv 7 1 false, 1)] ⟨?_, ?_, ?_, ?_⟩
    · exact List.mem_cons_self
    · exact .cons (List.mem_cons_of_mem _ List.mem_cons_self) .nil
    · exact .cons rfl .nil
    · rfl

/-- A rejected datum that stands alone is no reason to stop: the guard is asked again for the next one. -/
def filteredRun : List (Op Nat Nat Nat Nat × Shuffle Nat Nat Nat Nat) :=
  [(.produce 7 2 false, .refl ..), (.consume [7] [0] 1 false ∅, .refl ..), (.produce 7 1 false, .refl ..)]

theorem exhaustiveRun_filteredRun : ExhaustiveRun sampleEnv filteredRun emptySpace := by
  refine ⟨?_, fun result st hStep => ?_⟩
  · rintro - n join hJoin
    cases hJoin
  · obtain ⟨rfl, rfl⟩ := Prod.mk.inj (Except.ok.inj hStep)
    refine ⟨?_, fun result st hStep => ?_⟩
    · rintro - ⟨cands, hExtract, -, tuple, hBinds, hOther⟩
      obtain rfl := Option.some.inj hExtract
      apply hOther
      cases hBinds with
      | cons hItem hRest =>
        obtain ⟨item, hMem, hGet⟩ := hItem
        cases hRest
        obtain rfl := List.mem_singleton.mp hMem
        obtain rfl := Option.some.inj hGet
        rfl
    · obtain ⟨rfl, rfl⟩ := Prod.mk.inj (Except.ok.inj hStep)
      refine ⟨fun hNone => ?_, fun _ _ _ => trivial⟩
      cases hNone

theorem filteredRun_saturated :
    ExhaustiveRun sampleEnv filteredRun emptySpace ∧
      ∃ results st, emptySpace.run sampleEnv filteredRun = .ok (results, st) ∧ Saturated sampleEnv st.store := by
  obtain ⟨results, st, hRun⟩ : ∃ results st, emptySpace.run sampleEnv filteredRun = .ok (results, st) :=
    ⟨_, _, rfl⟩
  refine ⟨exhaustiveRun_filteredRun, results, st, hRun, ?_⟩
  refine saturated_of_exhaustiveRun sampleEnv ?_ exhaustiveRun_filteredRun hRun
  intro call hMem
  simp only [filteredRun, List.mem_cons, List.not_mem_nil, or_false] at hMem
  rcases hMem with rfl | rfl | rfl
  · trivial
  · exact List.nodup_singleton 7
  · trivial

end F1r3Node.Space
