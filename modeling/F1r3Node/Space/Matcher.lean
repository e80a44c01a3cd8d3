import F1r3Node.Lib.ListRelation
import F1r3Node.Space.HotStore

/-! # The space matcher

A matched datum leaves the offer of its channel unless it is persistent. The continuations of a join are tried one
after another, and what an attempt took is put back before the next one.
-/

namespace F1r3Node.Space

/-- The data on one channel, each with its index in the store, or -1 for the datum being produced. -/
abbrev IndexedData (A : Type) := List (Datum A × Int)

structure ConsumeCandidate (C A : Type) where
  channel : C
  datum : Datum A
  removedDatum : A
  datumIndex : Int
  deriving DecidableEq

structure ProduceCandidate (C P A K : Type) where
  channels : List C
  continuation : WaitingContinuation P K
  continuationIndex : Int
  dataCandidates : List (ConsumeCandidate C A)
  deriving DecidableEq

def ConsumeCandidate.origin {C A : Type} (cand : ConsumeCandidate C A) : Datum A × Int :=
  (⟨cand.removedDatum, cand.datum.persist, cand.datum.source⟩, cand.datumIndex)

section

variable {C P A K : Type} [DecidableEq C] (env : SpaceEnv C P A K)

def findMatchingDataCandidate (channel : C) (pattern : P) :
    IndexedData A → Option (ConsumeCandidate C A × IndexedData A)
  | [] => none
  | (datum, index) :: data =>
    match env.get pattern datum.a with
    | some mat =>
      some (⟨channel, ⟨mat, datum.persist, datum.source⟩, datum.a, index⟩,
        if datum.persist then (datum, index) :: data else data)
    | none =>
      (findMatchingDataCandidate channel pattern data).map fun found =>
        (found.1, (datum, index) :: found.2)

def extractDataCandidatesRollback : List (C × P) → (C → IndexedData A) →
    List (Option (ConsumeCandidate C A)) × (C → IndexedData A) × List (C × IndexedData A)
  | [], data => ([], data, [])
  | (channel, pattern) :: pairs, data =>
    match findMatchingDataCandidate env channel pattern (data channel) with
    | some (cand, rem) =>
      let rest := extractDataCandidatesRollback pairs (Function.update data channel rem)
      (some cand :: rest.1, rest.2.1, (channel, data channel) :: rest.2.2)
    | none =>
      let rest := extractDataCandidatesRollback pairs data
      (none :: rest.1, rest.2)

/-- `collect` into an option: every candidate, or none of them. -/
def collect {α : Type} : List (Option α) → Option (List α)
  | [] => some []
  | none :: _ => none
  | some x :: xs => (collect xs).map (x :: ·)

def extractDataCandidates (pairs : List (C × P)) (data : C → IndexedData A) :
    Option (List (ConsumeCandidate C A)) :=
  collect (extractDataCandidatesRollback env pairs data).1

def restore (data : C → IndexedData A) (rollback : List (C × IndexedData A)) : C → IndexedData A :=
  rollback.foldl (fun data original => Function.update data original.1 original.2) data

def matchedData (cands : List (ConsumeCandidate C A)) : List A := cands.map fun cand => cand.datum.a

def extractFirstMatch (channels : List C) :
    List (WaitingContinuation P K × Int) → (C → IndexedData A) → Option (ProduceCandidate C P A K)
  | [], _ => none
  | (cont, index) :: matchCandidates, data =>
    let extracted := extractDataCandidatesRollback env (channels.zip cont.patterns) data
    let next := extractFirstMatch channels matchCandidates (restore extracted.2.1 extracted.2.2)
    match collect extracted.1 with
    | some cands =>
      if env.checkCommit cont.continuation (matchedData cands) then
        some ⟨channels, cont, index, cands⟩
      else next
    | none => next

/-- The outcome of a scan: the candidate was on offer, matches, and has left the offer. -/
structure Found (channel : C) (pattern : P) (data : IndexedData A) (cand : ConsumeCandidate C A)
    (rem : IndexedData A) : Prop where
  channel_eq : cand.channel = channel
  matches_eq : env.get pattern cand.removedDatum = some cand.datum.a
  mem : cand.origin ∈ data
  sublist : rem.Sublist data
  rem_eq : cand.datum.persist = true → rem = data
  perm : cand.datum.persist = false → (cand.origin :: rem).Perm data

variable {env}

variable {channel : C} {pattern : P}

omit [DecidableEq C] in
theorem found_of_find {data rem : IndexedData A}
    {cand : ConsumeCandidate C A}
    (hFind : findMatchingDataCandidate env channel pattern data = some (cand, rem)) :
    Found env channel pattern data cand rem := by
  induction data generalizing cand rem with
  | nil => cases hFind
  | cons head data ih =>
    obtain ⟨datum, index⟩ := head
    rw [findMatchingDataCandidate] at hFind
    split at hFind
    next mat hGet =>
      obtain ⟨rfl, rfl⟩ := Prod.mk.inj (Option.some.inj hFind)
      refine ⟨rfl, hGet, List.mem_cons_self, ?_, ?_, ?_⟩
      · split_ifs
        · exact List.Sublist.refl _
        · exact List.sublist_cons_self _ _
      · intro hPersist
        exact if_pos hPersist
      · intro hPersist
        rw [if_neg (ne_true_of_eq_false hPersist)]
        exact List.Perm.refl _
    next hGet =>
      obtain ⟨⟨cand', rem'⟩, hTail, hEq⟩ := Option.map_eq_some_iff.mp hFind
      obtain ⟨rfl, rfl⟩ := Prod.mk.inj hEq
      obtain ⟨hChannel, hMatches, hMem, hSub, hRem, hPerm⟩ := ih hTail
      refine ⟨hChannel, hMatches, List.mem_cons_of_mem _ hMem, hSub.cons_cons _, ?_, ?_⟩
      · intro hPersist
        rw [hRem hPersist]
      · intro hPersist
        exact (List.Perm.swap _ _ _).trans ((hPerm hPersist).cons _)

omit [DecidableEq C] in
theorem find_eq_none_iff {data : IndexedData A} :
    findMatchingDataCandidate env channel pattern data = none ↔
      ∀ d ∈ data, env.get pattern d.1.a = none := by
  induction data with
  | nil => simp [findMatchingDataCandidate]
  | cons head data ih =>
    obtain ⟨datum, index⟩ := head
    rw [findMatchingDataCandidate, List.forall_mem_cons]
    cases hGet : env.get pattern datum.a with
    | some mat => simp
    | none => simp [ih]

theorem extractDataCandidates_cons (channel : C) (pattern : P) (pairs : List (C × P))
    (data : C → IndexedData A) :
    extractDataCandidates env ((channel, pattern) :: pairs) data =
      (findMatchingDataCandidate env channel pattern (data channel)).bind fun found =>
        (extractDataCandidates env pairs (Function.update data channel found.2)).map (found.1 :: ·) := by
  rw [extractDataCandidates, extractDataCandidatesRollback]
  cases findMatchingDataCandidate env channel pattern (data channel) with
  | none => rfl
  | some found => rfl

variable {pairs : List (C × P)} {data : C → IndexedData A} {cands : List (ConsumeCandidate C A)}

theorem extract_cons_eq_some
    :
    extractDataCandidates env ((channel, pattern) :: pairs) data = some cands ↔
      ∃ cand rem rest, findMatchingDataCandidate env channel pattern (data channel) = some (cand, rem) ∧
        extractDataCandidates env pairs (Function.update data channel rem) = some rest ∧
        cands = cand :: rest := by
  rw [extractDataCandidates_cons, Option.bind_eq_some_iff]
  constructor
  · rintro ⟨⟨cand, rem⟩, hFind, hRest⟩
    obtain ⟨rest, hRest, hEq⟩ := Option.map_eq_some_iff.mp hRest
    exact ⟨cand, rem, rest, hFind, hRest, hEq.symm⟩
  · rintro ⟨cand, rem, rest, hFind, hRest, rfl⟩
    exact ⟨(cand, rem), hFind, Option.map_eq_some_iff.mpr ⟨rest, hRest, rfl⟩⟩

/-- A candidate for one bind of a join: on offer on its channel and matched by its pattern. -/
structure Offered (env : SpaceEnv C P A K) (data : C → IndexedData A) (pair : C × P)
    (cand : ConsumeCandidate C A) : Prop where
  channel_eq : cand.channel = pair.1
  matches_eq : env.get pair.2 cand.removedDatum = some cand.datum.a
  mem : cand.origin ∈ data pair.1

def takenFrom (channel : C) (cands : List (ConsumeCandidate C A)) : IndexedData A :=
  (cands.filter fun cand => cand.channel = channel ∧ cand.datum.persist = false).map
    ConsumeCandidate.origin

theorem takenFrom_cons (channel : C) (cand : ConsumeCandidate C A)
    (cands : List (ConsumeCandidate C A)) :
    takenFrom channel (cand :: cands) =
      if cand.channel = channel ∧ cand.datum.persist = false then
        cand.origin :: takenFrom channel cands
      else takenFrom channel cands := by
  unfold takenFrom
  rw [List.filter_cons]
  by_cases h : cand.channel = channel ∧ cand.datum.persist = false
  · simp [h]
  · simp [h]

theorem update_sublist {rem : IndexedData A}
    (hSub : rem.Sublist (data channel)) (channel' : C) :
    (Function.update data channel rem channel').Sublist (data channel') := by
  by_cases hSame : channel' = channel
  · subst hSame
    rwa [Function.update_self]
  · rw [Function.update_of_ne hSame]

section extracted

variable (hExtract : extractDataCandidates env pairs data = some cands)

include hExtract

theorem offered_of_extract : List.Forall₂ (Offered env data) pairs cands := by
  induction pairs generalizing data cands with
  | nil =>
    obtain rfl := Option.some.inj hExtract
    exact .nil
  | cons pair pairs ih =>
    obtain ⟨channel, pattern⟩ := pair
    obtain ⟨cand, rem, rest, hFind, hRest, rfl⟩ := extract_cons_eq_some.mp hExtract
    have hFound := found_of_find hFind
    refine .cons ⟨hFound.channel_eq, hFound.matches_eq, hFound.mem⟩ ((ih hRest).imp ?_)
    rintro pair' cand' ⟨hChannel, hMatches, hMem⟩
    exact ⟨hChannel, hMatches, (update_sublist hFound.sublist pair'.1).subset hMem⟩

theorem exists_offered_of_extract {cand : ConsumeCandidate C A} (hMem : cand ∈ cands) : ∃ pair ∈ pairs, Offered env data pair cand :=
  Lib.exists_left_of_forall₂ (offered_of_extract hExtract) hMem

theorem map_channel_of_extract :
    cands.map ConsumeCandidate.channel = pairs.map Prod.fst := by
  have hOffered := offered_of_extract hExtract
  clear hExtract
  induction hOffered with
  | nil => rfl
  | cons hHead _ ih => rw [List.map_cons, List.map_cons, hHead.channel_eq, ih]

theorem takenFrom_subperm (channel : C) : (takenFrom channel cands).Subperm (data channel) := by
  induction pairs generalizing data cands with
  | nil =>
    obtain rfl := Option.some.inj hExtract
    exact List.nil_subperm
  | cons pair pairs ih =>
    obtain ⟨channel', pattern⟩ := pair
    obtain ⟨cand, rem, rest, hFind, hRest, rfl⟩ := extract_cons_eq_some.mp hExtract
    have hFound := found_of_find hFind
    have hTail := ih hRest
    rw [takenFrom_cons, hFound.channel_eq]
    by_cases hSame : channel' = channel
    · subst hSame
      rw [Function.update_self] at hTail
      cases hPersist : cand.datum.persist with
      | true =>
        rw [hFound.rem_eq hPersist] at hTail
        simpa using hTail
      | false =>
        simp only [and_self, if_true]
        exact ((List.subperm_cons _).mpr hTail).trans (hFound.perm hPersist).subperm
    · rw [Function.update_of_ne fun h => hSame h.symm] at hTail
      simpa [hSame] using hTail

end extracted

variable (env) in
theorem extractRollback_sublist (pairs : List (C × P)) (data : C → IndexedData A) :
    (∀ channel, ((extractDataCandidatesRollback env pairs data).2.1 channel).Sublist (data channel)) ∧
      ∀ original ∈ (extractDataCandidatesRollback env pairs data).2.2,
        original.2.Sublist (data original.1) := by
  induction pairs generalizing data with
  | nil => simp [extractDataCandidatesRollback]
  | cons pair pairs ih =>
    obtain ⟨channel, pattern⟩ := pair
    rw [extractDataCandidatesRollback]
    split
    next cand rem hFind =>
      have hSub := update_sublist (found_of_find hFind).sublist
      obtain ⟨hData, hRollback⟩ := ih (Function.update data channel rem)
      refine ⟨fun c => (hData c).trans (hSub c), List.forall_mem_cons.mpr ⟨List.Sublist.refl _, ?_⟩⟩
      exact fun original hMem => (hRollback original hMem).trans (hSub _)
    next hFind => exact ih data

variable {rollback : List (C × IndexedData A)}

theorem restore_sublist {base : C → IndexedData A} (hData : ∀ channel, (data channel).Sublist (base channel))
    (hRollback : ∀ original ∈ rollback, original.2.Sublist (base original.1)) (channel : C) :
    (restore data rollback channel).Sublist (base channel) := by
  induction rollback generalizing data with
  | nil => exact hData channel
  | cons original rollback ih =>
    obtain ⟨hHead, hTail⟩ := List.forall_mem_cons.mp hRollback
    refine ih (fun c => ?_) hTail
    change (Function.update data original.1 original.2 c).Sublist (base c)
    by_cases hSame : c = original.1
    · rwa [hSame, Function.update_self]
    · rw [Function.update_of_ne hSame]
      exact hData c

/-- What is known of the first match, whatever the earlier attempts left of the offer. -/
structure FirstMatch (env : SpaceEnv C P A K) (channels : List C)
    (matchCandidates : List (WaitingContinuation P K × Int)) (data : C → IndexedData A)
    (pc : ProduceCandidate C P A K) : Prop where
  channels_eq : pc.channels = channels
  mem : (pc.continuation, pc.continuationIndex) ∈ matchCandidates
  commit : env.checkCommit pc.continuation.continuation (matchedData pc.dataCandidates) = true
  extracted : ∃ data', (∀ channel, (data' channel).Sublist (data channel)) ∧
    extractDataCandidates env (channels.zip pc.continuation.patterns) data' = some pc.dataCandidates

variable {matchCandidates : List (WaitingContinuation P K × Int)} {pc : ProduceCandidate C P A K}

theorem firstMatch_of_extract {channels : List C}
    (hExtract : extractFirstMatch env channels matchCandidates data = some pc) :
    FirstMatch env channels matchCandidates data pc := by
  induction matchCandidates generalizing data with
  | nil => cases hExtract
  | cons head matchCandidates ih =>
    obtain ⟨cont, index⟩ := head
    have hNext : ∀ {data'}, (∀ channel, (data' channel).Sublist (data channel)) →
        extractFirstMatch env channels matchCandidates data' = some pc →
        FirstMatch env channels ((cont, index) :: matchCandidates) data pc := by
      intro data' hSub hTail
      obtain ⟨hChannels, hMem, hCommit, data'', hSub', hExtracted⟩ := ih hTail
      exact ⟨hChannels, List.mem_cons_of_mem _ hMem, hCommit, data'',
        fun c => (hSub' c).trans (hSub c), hExtracted⟩
    have hLeft := extractRollback_sublist env (channels.zip cont.patterns) data
    have hRestored := restore_sublist hLeft.1 hLeft.2
    rw [extractFirstMatch] at hExtract
    split at hExtract
    next cands hCollect =>
      split_ifs at hExtract with hCommit
      · obtain rfl := Option.some.inj hExtract
        exact ⟨rfl, List.mem_cons_self, hCommit, data, fun c => List.Sublist.refl _, hCollect⟩
      · exact hNext hRestored hExtract
    next => exact hNext hRestored hExtract

/-! ## Joins with distinct channels

Then each channel is read once, what an attempt took is put back as it was, and every attempt
starts from the full offer.
-/

theorem channel_mem_of_rollback
    {original : C × IndexedData A}
    (hMem : original ∈ (extractDataCandidatesRollback env pairs data).2.2) :
    original.1 ∈ pairs.map Prod.fst := by
  induction pairs generalizing data with
  | nil => cases hMem
  | cons pair pairs ih =>
    obtain ⟨channel, pattern⟩ := pair
    rw [extractDataCandidatesRollback] at hMem
    split at hMem
    next =>
      rcases List.mem_cons.mp hMem with rfl | hMem
      · exact List.mem_cons_self
      · exact List.mem_cons_of_mem _ (ih hMem)
    next => exact List.mem_cons_of_mem _ (ih hMem)

theorem restore_congr {data' : C → IndexedData A} (h : data channel = data' channel)
    (rollback : List (C × IndexedData A)) :
    restore data rollback channel = restore data' rollback channel := by
  induction rollback generalizing data data' with
  | nil => exact h
  | cons original rollback ih =>
    apply ih
    change Function.update data original.1 original.2 channel =
      Function.update data' original.1 original.2 channel
    by_cases hSame : channel = original.1
    · rw [hSame, Function.update_self, Function.update_self]
    · rw [Function.update_of_ne hSame, Function.update_of_ne hSame, h]

theorem restore_of_notMem (hNotMem : channel ∉ rollback.map Prod.fst) (data : C → IndexedData A) :
    restore data rollback channel = data channel := by
  induction rollback generalizing data with
  | nil => rfl
  | cons original rollback ih =>
    rw [List.map_cons, List.mem_cons, not_or] at hNotMem
    obtain ⟨hHead, hTail⟩ := hNotMem
    exact (ih hTail _).trans (Function.update_of_ne hHead _ _)

variable (env) in
theorem restore_extract_of_nodup (hNodup : (pairs.map Prod.fst).Nodup)
    (data : C → IndexedData A) :
    restore (extractDataCandidatesRollback env pairs data).2.1
      (extractDataCandidatesRollback env pairs data).2.2 = data := by
  induction pairs generalizing data with
  | nil => rfl
  | cons pair pairs ih =>
    obtain ⟨channel, pattern⟩ := pair
    obtain ⟨hHead, hTail⟩ := List.nodup_cons.mp hNodup
    rw [extractDataCandidatesRollback]
    split
    next cand rem hFind =>
      funext c
      by_cases hSame : c = channel
      · subst hSame
        have hNotMem : c ∉ (extractDataCandidatesRollback env pairs
            (Function.update data c rem)).2.2.map Prod.fst := by
          intro hMem
          obtain ⟨original, hOriginal, rfl⟩ := List.mem_map.mp hMem
          exact hHead (channel_mem_of_rollback hOriginal)
        exact (restore_of_notMem hNotMem _).trans (Function.update_self _ _ _)
      · have hRest := congrFun (ih hTail (Function.update data channel rem)) c
        rw [Function.update_of_ne hSame] at hRest
        exact (restore_congr (Function.update_of_ne hSame _ _) _).trans hRest
    next => exact ih hTail data

theorem prefix_map_fst_zip {α β : Type} (as : List α) (bs : List β) :
    (as.zip bs).map Prod.fst <+: as := by
  induction as generalizing bs with
  | nil => exact List.prefix_refl _
  | cons a as ih =>
    cases bs with
    | nil => exact List.nil_prefix
    | cons b bs => exact List.cons_prefix_cons.mpr ⟨rfl, ih bs⟩

theorem extract_of_firstMatch {channels : List C} (hNodup : channels.Nodup)
    (hExtract : extractFirstMatch env channels matchCandidates data = some pc) :
    extractDataCandidates env (channels.zip pc.continuation.patterns) data = some pc.dataCandidates := by
  induction matchCandidates with
  | nil => cases hExtract
  | cons head matchCandidates ih =>
    obtain ⟨cont, index⟩ := head
    have hRestored := restore_extract_of_nodup env
      ((prefix_map_fst_zip channels cont.patterns).sublist.nodup hNodup) data
    rw [extractFirstMatch] at hExtract
    simp only [hRestored] at hExtract
    split at hExtract
    next cands hCollect =>
      split_ifs at hExtract
      · obtain rfl := Option.some.inj hExtract
        exact hCollect
      · exact ih hExtract
    next => exact ih hExtract

theorem exists_cand_of_first (hNodup : (pairs.map Prod.fst).Nodup)
    (hExtract : extractDataCandidates env pairs data = some cands) {pair : C × P} (hPair : pair ∈ pairs)
    {first : Datum A × Int} {others : IndexedData A} (hFirst : data pair.1 = first :: others)
    (hGet : (env.get pair.2 first.1.a).isSome) : ∃ cand ∈ cands, cand.datumIndex = first.2 := by
  induction pairs generalizing data cands with
  | nil => cases hPair
  | cons head pairs ih =>
    obtain ⟨channel, pattern⟩ := head
    obtain ⟨hHead, hTail⟩ := List.nodup_cons.mp hNodup
    obtain ⟨cand, rem, rest, hFind, hRest, rfl⟩ := extract_cons_eq_some.mp hExtract
    rcases List.mem_cons.mp hPair with rfl | hLater
    · obtain ⟨mat, hMat⟩ := Option.isSome_iff_exists.mp hGet
      rw [hFirst, findMatchingDataCandidate, hMat] at hFind
      obtain ⟨rfl, -⟩ := Prod.mk.inj (Option.some.inj hFind)
      exact ⟨_, List.mem_cons_self, rfl⟩
    · have hOther : pair.1 ≠ channel := by
        rintro rfl
        exact hHead (List.mem_map.mpr ⟨pair, hLater, rfl⟩)
      obtain ⟨cand', hMem, hIndex⟩ := ih hTail hRest hLater (by rwa [Function.update_of_ne hOther])
      exact ⟨cand', List.mem_cons_of_mem _ hMem, hIndex⟩

end

end F1r3Node.Space
