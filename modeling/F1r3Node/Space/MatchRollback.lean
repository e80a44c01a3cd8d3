import F1r3Node.Space.Matcher

/-! # What a failed attempt puts back

An attempt logs the offer of a channel before each match on it, and the log is written back from its first entry on.
-/

namespace F1r3Node.Space

section

variable {C P A K : Type} [DecidableEq C] (env : SpaceEnv C P A K)

def foundCandidates (pairs : List (C × P)) (data : C → IndexedData A) : List (ConsumeCandidate C A) :=
  (extractDataCandidatesRollback env pairs data).1.reduceOption

/-- Nothing but persistent data is taken from a channel that is matched again afterwards. -/
def KeepsOffer (cands : List (ConsumeCandidate C A)) : Prop :=
  cands.Pairwise fun earlier later => earlier.channel = later.channel → earlier.datum.persist = true

variable {env}

theorem foundCandidates_cons_of_find {channel : C} {pattern : P} {pairs : List (C × P)} {data : C → IndexedData A}
    {cand : ConsumeCandidate C A} {rem : IndexedData A}
    (hFind : findMatchingDataCandidate env channel pattern (data channel) = some (cand, rem)) :
    foundCandidates env ((channel, pattern) :: pairs) data =
      cand :: foundCandidates env pairs (Function.update data channel rem) := by
  rw [foundCandidates, extractDataCandidatesRollback, hFind]
  rfl

theorem foundCandidates_cons_of_none {channel : C} {pattern : P} {pairs : List (C × P)} {data : C → IndexedData A}
    (hFind : findMatchingDataCandidate env channel pattern (data channel) = none) :
    foundCandidates env ((channel, pattern) :: pairs) data = foundCandidates env pairs data := by
  rw [foundCandidates, extractDataCandidatesRollback, hFind]
  rfl

theorem map_fst_rollback (pairs : List (C × P)) (data : C → IndexedData A) :
    (extractDataCandidatesRollback env pairs data).2.2.map Prod.fst =
      (foundCandidates env pairs data).map ConsumeCandidate.channel := by
  induction pairs generalizing data with
  | nil => rfl
  | cons pair pairs ih =>
    obtain ⟨channel, pattern⟩ := pair
    cases hFind : findMatchingDataCandidate env channel pattern (data channel) with
    | none =>
      rw [foundCandidates_cons_of_none hFind, ← ih, extractDataCandidatesRollback, hFind]
    | some found =>
      rw [foundCandidates_cons_of_find hFind, List.map_cons, ← ih, extractDataCandidatesRollback, hFind,
        (found_of_find hFind).channel_eq]
      rfl

theorem restore_cons (data : C → IndexedData A) (original : C × IndexedData A)
    (rollback : List (C × IndexedData A)) :
    restore data (original :: rollback) = restore (Function.update data original.1 original.2) rollback :=
  rfl

theorem restore_of_mem {channel : C} {rollback : List (C × IndexedData A)} (hMem : channel ∈ rollback.map Prod.fst)
    (data data' : C → IndexedData A) : restore data rollback channel = restore data' rollback channel := by
  induction rollback generalizing data data' with
  | nil => cases hMem
  | cons original rollback ih =>
    rw [restore_cons, restore_cons]
    by_cases hLater : channel ∈ rollback.map Prod.fst
    · exact ih hLater _ _
    · rw [List.map_cons, List.mem_cons, or_iff_left hLater] at hMem
      apply restore_congr
      rw [hMem, Function.update_self, Function.update_self]

variable (env) in
def restored (pairs : List (C × P)) (data : C → IndexedData A) : C → IndexedData A :=
  restore (extractDataCandidatesRollback env pairs data).2.1 (extractDataCandidatesRollback env pairs data).2.2

theorem restored_cons_of_none {channel : C} {pattern : P} {pairs : List (C × P)} {data : C → IndexedData A}
    (hFind : findMatchingDataCandidate env channel pattern (data channel) = none) :
    restored env ((channel, pattern) :: pairs) data = restored env pairs data := by
  rw [restored, extractDataCandidatesRollback, hFind]
  rfl

section found

variable {channel : C} {pattern : P} {pairs : List (C × P)} {data : C → IndexedData A} {cand : ConsumeCandidate C A}
  {rem : IndexedData A}
  (hFind : findMatchingDataCandidate env channel pattern (data channel) = some (cand, rem))

include hFind

theorem restored_cons_of_find : restored env ((channel, pattern) :: pairs) data =
    restore (Function.update (extractDataCandidatesRollback env pairs (Function.update data channel rem)).2.1 channel
      (data channel)) (extractDataCandidatesRollback env pairs (Function.update data channel rem)).2.2 := by
  rw [restored, extractDataCandidatesRollback, hFind]
  rfl

theorem restored_of_ne {other : C} (hne : other ≠ channel) :
    restored env ((channel, pattern) :: pairs) data other =
      restored env pairs (Function.update data channel rem) other := by
  rw [restored_cons_of_find hFind]
  exact restore_congr (Function.update_of_ne hne _ _) _

theorem restored_self : restored env ((channel, pattern) :: pairs) data channel =
    if channel ∈ (foundCandidates env pairs (Function.update data channel rem)).map ConsumeCandidate.channel then
      restored env pairs (Function.update data channel rem) channel
    else data channel := by
  rw [restored_cons_of_find hFind, ← map_fst_rollback]
  split
  · next hMem => exact restore_of_mem hMem _ _
  · next hNotMem => rw [restore_of_notMem hNotMem, Function.update_self]

end found

theorem restored_sublist (pairs : List (C × P)) (data : C → IndexedData A) (channel : C) :
    (restored env pairs data channel).Sublist (data channel) := by
  have hLeft := extractRollback_sublist env pairs data
  exact restore_sublist hLeft.1 hLeft.2 channel

omit [DecidableEq C] in
theorem length_of_find {channel : C} {pattern : P} {data rem : IndexedData A} {cand : ConsumeCandidate C A}
    (hFind : findMatchingDataCandidate env channel pattern data = some (cand, rem))
    (hTaken : cand.datum.persist = false) : rem.length + 1 = data.length :=
  ((found_of_find hFind).perm hTaken).length_eq

theorem restored_of_notMem {pairs : List (C × P)} {data : C → IndexedData A} {channel : C}
    (hNotMem : channel ∉ (foundCandidates env pairs data).map ConsumeCandidate.channel) :
    restored env pairs data channel = data channel := by
  induction pairs generalizing data with
  | nil => rfl
  | cons pair pairs ih =>
    obtain ⟨channel', pattern⟩ := pair
    cases hFind : findMatchingDataCandidate env channel' pattern (data channel') with
    | none =>
      rw [foundCandidates_cons_of_none hFind] at hNotMem
      rw [restored_cons_of_none hFind, ih hNotMem]
    | some found =>
      rw [foundCandidates_cons_of_find hFind, List.map_cons, List.mem_cons, not_or,
        (found_of_find hFind).channel_eq] at hNotMem
      rw [restored_of_ne hFind hNotMem.1, ih hNotMem.2, Function.update_of_ne hNotMem.1]

theorem restored_cons_eq_iff {channel : C} {pattern : P} {pairs : List (C × P)} {data : C → IndexedData A}
    {cand : ConsumeCandidate C A} {rem : IndexedData A}
    (hFind : findMatchingDataCandidate env channel pattern (data channel) = some (cand, rem)) :
    restored env ((channel, pattern) :: pairs) data = data ↔
      (channel ∈ (foundCandidates env pairs (Function.update data channel rem)).map ConsumeCandidate.channel →
        cand.datum.persist = true) ∧
      restored env pairs (Function.update data channel rem) = Function.update data channel rem := by
  have hFound := found_of_find hFind
  have hSelf : restored env ((channel, pattern) :: pairs) data channel = _ := restored_self hFind
  constructor
  · intro hRestored
    rw [hRestored] at hSelf
    by_cases hAgain : channel ∈ (foundCandidates env pairs (Function.update data channel rem)).map
        ConsumeCandidate.channel
    · rw [if_pos hAgain] at hSelf
      -- What the later matches put back is part of what this match left.
      have hSub : (restored env pairs (Function.update data channel rem) channel).Sublist _ :=
        restored_sublist pairs (Function.update data channel rem) channel
      rw [← hSelf, Function.update_self] at hSub
      have hRem : rem = data channel := hFound.sublist.antisymm hSub
      have hSame : Function.update data channel rem = data := by rw [hRem, Function.update_eq_self]
      refine ⟨fun _ => ?_, ?_⟩
      · by_contra hTaken
        have hLength := length_of_find hFind (Bool.eq_false_of_not_eq_true hTaken)
        rw [hRem] at hLength
        omega
      · funext other
        by_cases hOther : other = channel
        · rw [hOther, ← hSelf, hSame]
        · rw [← restored_of_ne hFind hOther, hRestored, hSame]
    · refine ⟨fun hMem => absurd hMem hAgain, ?_⟩
      funext other
      by_cases hOther : other = channel
      · rw [hOther, restored_of_notMem hAgain]
      · rw [← restored_of_ne hFind hOther, hRestored, Function.update_of_ne hOther]
  · rintro ⟨hPersist, hLater⟩
    funext other
    by_cases hOther : other = channel
    · rw [hOther, hSelf]
      split
      · next hAgain => rw [hLater, Function.update_self, hFound.rem_eq (hPersist hAgain)]
      · rfl
    · rw [restored_of_ne hFind hOther, hLater, Function.update_of_ne hOther]

theorem restored_eq_iff (pairs : List (C × P)) (data : C → IndexedData A) :
    restored env pairs data = data ↔ KeepsOffer (foundCandidates env pairs data) := by
  induction pairs generalizing data with
  | nil => exact iff_of_true rfl List.Pairwise.nil
  | cons pair pairs ih =>
    obtain ⟨channel, pattern⟩ := pair
    cases hFind : findMatchingDataCandidate env channel pattern (data channel) with
    | none => rw [restored_cons_of_none hFind, foundCandidates_cons_of_none hFind, ih]
    | some found =>
      obtain ⟨cand, rem⟩ := found
      rw [restored_cons_eq_iff hFind, ih, foundCandidates_cons_of_find hFind, KeepsOffer, KeepsOffer,
        List.pairwise_cons, (found_of_find hFind).channel_eq]
      apply and_congr_left
      intro _
      constructor
      · intro hPersist later hLater hSame
        exact hPersist (List.mem_map.mpr ⟨later, hLater, hSame.symm⟩)
      · intro hPersist hAgain
        obtain ⟨later, hLater, hSame⟩ := List.mem_map.mp hAgain
        exact hPersist later hLater hSame.symm

variable (env)

/-- The candidates of a continuation in the given data, if all are found and the commit is not vetoed. -/
def commits (channels : List C) (data : C → IndexedData A) (cont : WaitingContinuation P K) :
    Option (List (ConsumeCandidate C A)) :=
  (extractDataCandidates env (channels.zip cont.patterns) data).filter fun cands =>
    env.checkCommit cont.continuation (matchedData cands)

def firstCommit (channels : List C) (data : C → IndexedData A) :
    List (WaitingContinuation P K × Int) → Option (ProduceCandidate C P A K)
  | [] => none
  | (cont, index) :: matchCandidates =>
    match commits env channels data cont with
    | some cands => some ⟨channels, cont, index, cands⟩
    | none => firstCommit channels data matchCandidates

def attempts (channels : List C) :
    List (WaitingContinuation P K × Int) → (C → IndexedData A) → List (WaitingContinuation P K × (C → IndexedData A))
  | [], _ => []
  | (cont, _) :: matchCandidates, data =>
    (cont, data) ::
      if (commits env channels data cont).isSome then []
      else attempts channels matchCandidates (restored env (channels.zip cont.patterns) data)

def Undone (channels : List C) (data : C → IndexedData A) : List (WaitingContinuation P K × Int) → Prop
  | [] => True
  | [_] => True
  | (cont, _) :: next :: matchCandidates => (commits env channels data cont).isNone →
      KeepsOffer (foundCandidates env (channels.zip cont.patterns) data) ∧
        Undone channels data (next :: matchCandidates)

variable {env}

theorem extractFirstMatch_cons (channels : List C) (cont : WaitingContinuation P K) (index : Int)
    (matchCandidates : List (WaitingContinuation P K × Int)) (data : C → IndexedData A) :
    extractFirstMatch env channels ((cont, index) :: matchCandidates) data =
      match commits env channels data cont with
      | some cands => some ⟨channels, cont, index, cands⟩
      | none => extractFirstMatch env channels matchCandidates (restored env (channels.zip cont.patterns) data) := by
  rw [extractFirstMatch, commits, extractDataCandidates]
  cases collect (extractDataCandidatesRollback env (channels.zip cont.patterns) data).1 with
  | none => rfl
  | some cands =>
    dsimp only
    cases hCommit : env.checkCommit cont.continuation (matchedData cands) with
    | true => rw [if_pos rfl, Option.filter_some, hCommit]; rfl
    | false => rw [if_neg Bool.false_ne_true, Option.filter_some, hCommit]; rfl

/-- Every continuation is tried on the full offer, and the first one that commits there is returned, exactly if every
failed attempt with another one after it takes nothing from a channel that it matches again. -/
theorem extractFirstMatch_eq_iff (env : SpaceEnv C P A K) (channels : List C)
    (matchCandidates : List (WaitingContinuation P K × Int)) (data : C → IndexedData A) :
    (∀ attempt ∈ attempts env channels matchCandidates data, attempt.2 = data) ∧
        extractFirstMatch env channels matchCandidates data = firstCommit env channels data matchCandidates ↔
      Undone env channels data matchCandidates := by
  induction matchCandidates with
  | nil =>
    refine iff_of_true ⟨fun attempt h => ?_, rfl⟩ trivial
    cases h
  | cons head matchCandidates ih =>
    obtain ⟨cont, index⟩ := head
    rw [attempts, List.forall_mem_cons, extractFirstMatch_cons, firstCommit]
    cases hCommits : commits env channels data cont with
    | some cands =>
      refine iff_of_true ⟨⟨rfl, fun attempt h => ?_⟩, rfl⟩ ?_
      · cases h
      · cases matchCandidates with
        | nil => trivial
        | cons next rest =>
          rw [Undone, hCommits]
          intro hNone
          cases hNone
    | none =>
      cases matchCandidates with
      | nil =>
        refine iff_of_true ⟨⟨rfl, fun attempt h => ?_⟩, rfl⟩ trivial
        cases h
      | cons next rest =>
        have hUndone : Undone env channels data ((cont, index) :: next :: rest) ↔
            KeepsOffer (foundCandidates env (channels.zip cont.patterns) data) ∧
              Undone env channels data (next :: rest) := by
          rw [Undone, hCommits]
          exact ⟨fun h => h rfl, fun h _ => h⟩
        rw [hUndone, ← restored_eq_iff, ← ih]
        dsimp only
        rw [Option.isSome_none, if_neg Bool.false_ne_true]
        constructor
        · rintro ⟨⟨-, hAttempts⟩, hResult⟩
          have hRestored : restored env (channels.zip cont.patterns) data = data :=
            hAttempts _ List.mem_cons_self
          rw [hRestored] at hAttempts hResult
          exact ⟨hRestored, hAttempts, hResult⟩
        · rintro ⟨hRestored, hAttempts, hResult⟩
          rw [hRestored]
          exact ⟨⟨rfl, hAttempts⟩, hResult⟩

end

/-- Numbers on numbered channels; a pattern is a number or anything, and a continuation says if it commits. -/
def guardedEnv : SpaceEnv Nat (Option Nat) Nat Bool where
  blake := ⟨fun _ => List.replicate 32 0, fun _ => rfl⟩
  encodeChannel n := [UInt8.ofNat n]
  encodePattern p := p.toList.map UInt8.ofNat
  encodeDatum n := [UInt8.ofNat n]
  encodeContinuation b := [if b then 1 else 0]
  get pattern n := if pattern = none ∨ pattern = some n then some n else none
  checkCommit commit _ := commit

def guardedDatum (n : Nat) : Datum Nat := ⟨n, false, ⟨[], [], false, true, [], false⟩⟩

def guardedContinuation (patterns : List (Option Nat)) (commit : Bool) : WaitingContinuation (Option Nat) Bool :=
  ⟨patterns, commit, false, ∅, ⟨[], [], false⟩⟩

/-- Two data on a channel joined with itself. The first continuation takes both and is vetoed; the offer then lacks what
the second one needs. -/
theorem not_extractFirstMatch_eq : ¬ ∀ (channels : List Nat)
    (matchCandidates : List (WaitingContinuation (Option Nat) Bool × Int)) (data : Nat → IndexedData Nat),
    extractFirstMatch guardedEnv channels matchCandidates data =
      firstCommit guardedEnv channels data matchCandidates := by
  intro hClaim
  have hSearch := hClaim [0, 0]
    [(guardedContinuation [none, none] false, 0), (guardedContinuation [some 1, some 2] true, 1)]
    fun _ => [(guardedDatum 1, 0), (guardedDatum 2, 1)]
  have hFound := congrArg Option.isSome hSearch
  revert hFound
  decide

end F1r3Node.Space
