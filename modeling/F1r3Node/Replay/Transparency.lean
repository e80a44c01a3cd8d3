import F1r3Node.Replay.RuntimeManager

/-! # When an answer from the cache is the answer of a replay

The key of an entry says nothing about the event logs, the block number, the time or the invalid blocks of its play, all
of which a replay reads.
-/

namespace F1r3Node.Replay

open Shared

section

variable {Ev : Type} {cache : InMemoryReplayCache Ev} {key : ReplayCacheKey} {entry : ReplayCacheEntry Ev}

theorem mem_of_mem_evict {maxEntries maxBytes : Nat} {items : List (ReplayCacheKey × ReplayCacheEntry Ev)}
    {retainedBytes : Nat} {item : ReplayCacheKey × ReplayCacheEntry Ev}
    (h : item ∈ (evict maxEntries maxBytes items retainedBytes).1) : item ∈ items := by
  induction items generalizing retainedBytes with
  | nil => exact h
  | cons first rest ih =>
    rw [evict] at h
    split_ifs at h
    · exact List.mem_cons_of_mem first (ih h)
    · exact h

namespace InMemoryReplayCache

variable {item : ReplayCacheKey × ReplayCacheEntry Ev}

theorem mem_of_mem_without (h : item ∈ cache.without key) :
    item ∈ cache.map :=
  List.mem_of_mem_filter h

theorem mem_of_get {cache' : InMemoryReplayCache Ev} (h : cache.get key = some (entry, cache')) :
    (key, entry) ∈ cache.map ∧ ∀ item ∈ cache'.map, item ∈ cache.map := by
  obtain ⟨⟨key', entry'⟩, hFind, hEq⟩ := Option.map_eq_some_iff.mp h
  obtain ⟨rfl, rfl⟩ := Prod.mk.inj hEq
  have hMem := List.mem_of_find?_eq_some hFind
  obtain rfl : key' = key := by simpa using List.find?_some hFind
  refine ⟨hMem, fun item hItem => ?_⟩
  obtain hKept | hMoved := List.mem_append.mp hItem
  · exact mem_of_mem_without hKept
  · rwa [List.mem_singleton.mp hMoved]

theorem mem_of_mem_put (h : item ∈ (cache.put key entry).map) :
    item ∈ cache.map ∨ item = (key, entry) := by
  rw [put] at h
  split_ifs at h
  · exact .inl h
  · obtain hKept | hNew := List.mem_append.mp (mem_of_mem_evict h)
    · exact .inl (mem_of_mem_without hKept)
    · exact .inr (List.mem_singleton.mp hNew)

end InMemoryReplayCache

end

section

variable {D Ev E : Type} {R : Runtime D Ev E}

def Play.toReplay (play : Play D Ev) : ReplayInputs D Ev :=
  ⟨play.startHash, play.usrProcessed, play.sysProcessed, play.blockData, play.invalidBlocks, false⟩

def Filed (R : Runtime D Ev E) (plays : List (Call D Ev)) (manager : RuntimeManager Ev) : Prop :=
  ∀ cache, manager.replayCache = some cache → ∀ item ∈ cache.map,
    ∃ play, .compute play ∈ plays ∧ item.1 = play.key R ∧ item.2.postState = play.postState

variable {manager : RuntimeManager Ev}

theorem Filed.mono {plays plays' : List (Call D Ev)} (h : Filed R plays manager)
    (hSub : ∀ call ∈ plays, call ∈ plays') : Filed R plays' manager := by
  intro cache hCache item hItem
  obtain ⟨play, hPlay, hKey, hPost⟩ := h cache hCache item hItem
  exact ⟨play, hSub _ hPlay, hKey, hPost⟩

theorem mem_of_mem_cachePlay {play : Play D Ev} {cache : InMemoryReplayCache Ev}
    {item : ReplayCacheKey × ReplayCacheEntry Ev} (h : item ∈ (cachePlay R play cache).map) :
    item ∈ cache.map ∨ item.1 = play.key R ∧ item.2.postState = play.postState := by
  rw [cachePlay] at h
  split_ifs at h
  · refine (InMemoryReplayCache.mem_of_mem_put h).imp_right ?_
    rintro rfl
    exact ⟨rfl, rfl⟩
  · exact .inl h

theorem replayCache_fullReplay (manager : RuntimeManager Ev) (inputs : ReplayInputs D Ev) :
    (manager.fullReplay R inputs).1.replayCache = manager.replayCache := by
  rw [RuntimeManager.fullReplay]
  split <;> rfl

theorem answer_fullReplay (manager : RuntimeManager Ev) (inputs : ReplayInputs D Ev) :
    (manager.fullReplay R inputs).2 = R.replay inputs := by
  rw [RuntimeManager.fullReplay]
  split <;> simp_all

theorem replayComputeState_cases (manager : RuntimeManager Ev) (inputs : ReplayInputs D Ev) :
    (∃ cache entry cache', manager.replayCache = some cache ∧ cache.get (inputs.key R) = some (entry, cache') ∧
      inputs.blockData.mergeableKey entry.postState ∈ manager.mergeableStore ∧
      manager.replayComputeState R inputs = ({ manager with replayCache := some cache' }, .ok entry.postState)) ∨
    (manager.replayComputeState R inputs).2 = R.replay inputs := by
  cases hGet : manager.replayCache.bind fun cache => cache.get (inputs.key R) with
  | none =>
    refine .inr ?_
    rw [RuntimeManager.replayComputeState, hGet]
    exact answer_fullReplay manager inputs
  | some found =>
    obtain ⟨entry, cache'⟩ := found
    obtain ⟨cache, hCache, hFound⟩ := Option.bind_eq_some_iff.mp hGet
    rw [RuntimeManager.replayComputeState, hGet]
    dsimp only
    split_ifs with hMergeable
    · exact .inl ⟨cache, entry, cache', hCache, hFound, hMergeable, rfl⟩
    · exact .inr (answer_fullReplay _ inputs)

theorem filed_replayComputeState {plays : List (Call D Ev)} (h : Filed R plays manager)
    (inputs : ReplayInputs D Ev) : Filed R plays (manager.replayComputeState R inputs).1 := by
  cases hGet : manager.replayCache.bind fun cache => cache.get (inputs.key R) with
  | none =>
    rw [RuntimeManager.replayComputeState, hGet]
    intro cache hCache
    rw [replayCache_fullReplay] at hCache
    exact h cache hCache
  | some found =>
    obtain ⟨entry, cache'⟩ := found
    obtain ⟨cache, hCache, hFound⟩ := Option.bind_eq_some_iff.mp hGet
    have hTouched : Filed R plays { manager with replayCache := some cache' } := by
      intro cache'' hEq item hItem
      obtain rfl := Option.some.inj hEq
      exact h cache hCache item ((InMemoryReplayCache.mem_of_get hFound).2 item hItem)
    rw [RuntimeManager.replayComputeState, hGet]
    dsimp only
    split_ifs
    · exact hTouched
    · intro cache'' hEq
      rw [replayCache_fullReplay] at hEq
      exact hTouched cache'' hEq

theorem filed_step {before : List (Call D Ev)} (h : Filed R before manager)
    (call : Call D Ev) : Filed R (before ++ [call]) (manager.step R call).1 := by
  have hMono : Filed R (before ++ [call]) manager := h.mono fun _ hMem => List.mem_append_left _ hMem
  cases call with
  | compute play =>
    intro cache hCache item hItem
    obtain ⟨cache₀, hCache₀, rfl⟩ := Option.map_eq_some_iff.mp hCache
    obtain hOld | ⟨hKey, hPost⟩ := mem_of_mem_cachePlay hItem
    · exact hMono cache₀ hCache₀ item hOld
    · exact ⟨play, List.mem_append_right _ List.mem_cons_self, hKey, hPost⟩
  | replay inputs => exact filed_replayComputeState hMono inputs
  | collect key => exact hMono

def Hits (R : Runtime D Ev E) (manager : RuntimeManager Ev) (inputs : ReplayInputs D Ev) : Prop :=
  ∃ cache entry cache', manager.replayCache = some cache ∧ cache.get (inputs.key R) = some (entry, cache') ∧
    inputs.blockData.mergeableKey entry.postState ∈ manager.mergeableStore

/-- The play and the replay agree in what the key covers. -/
structure SharesKey (play : Play D Ev) (inputs : ReplayInputs D Ev) : Prop where
  startHash : play.startHash = inputs.startHash
  sender : play.blockData.sender = inputs.blockData.sender
  seqNum : play.blockData.seqNum = inputs.blockData.seqNum
  payload : replayPayload play.usrProcessed play.sysProcessed false =
    replayPayload inputs.terms inputs.systemDeploys inputs.isGenesis

/-- Every replay that is answered from the cache repeats each earlier play with which it shares its key, and that play
is one that the runtime replays to its own post-state. -/
def Repeats (R : Runtime D Ev E) (manager : RuntimeManager Ev) (calls : List (Call D Ev)) : Prop :=
  ∀ before inputs after, calls = before ++ .replay inputs :: after → Hits R (manager.state R before) inputs →
    ∀ play, .compute play ∈ before → SharesKey play inputs →
      inputs = play.toReplay ∧ R.replay play.toReplay = .ok play.postState

def payloads (calls : List (Call D Ev)) : Set Bytes :=
  {x | (∃ play, .compute play ∈ calls ∧ x = replayPayload play.usrProcessed play.sysProcessed false) ∨
    ∃ inputs, .replay inputs ∈ calls ∧ x = replayPayload inputs.terms inputs.systemDeploys inputs.isGenesis}

theorem int32_toInt64_injective {x y : Int32} (h : x.toInt64 = y.toInt64) : x = y := by
  rw [← Int32.toInt_inj, ← Int32.toInt_toInt64 x, ← Int32.toInt_toInt64 y, h]

theorem sharesKey_of_key_eq {play : Play D Ev} {inputs : ReplayInputs D Ev} {S : Set Bytes}
    (hInj : Set.InjOn R.blake.hash S) (hPlay : replayPayload play.usrProcessed play.sysProcessed false ∈ S)
    (hInputs : replayPayload inputs.terms inputs.systemDeploys inputs.isGenesis ∈ S)
    (hKey : inputs.key R = play.key R) : SharesKey play inputs := by
  obtain ⟨hStart, hSender, hSeq, hHash⟩ := ReplayCacheKey.mk.inj hKey
  exact ⟨hStart.symm, hSender.symm, (int32_toInt64_injective hSeq).symm, hInj hPlay hInputs hHash.symm⟩

def fullAnswers (R : Runtime D Ev E) : List (Call D Ev) → List (Except E Bytes)
  | [] => []
  | .replay inputs :: rest => R.replay inputs :: fullAnswers R rest
  | .compute _ :: rest => fullAnswers R rest
  | .collect _ :: rest => fullAnswers R rest

theorem answers_uncached (calls : List (Call D Ev)) (hNone : manager.replayCache = none) :
    manager.answers R calls = fullAnswers R calls := by
  induction calls generalizing manager with
  | nil => rfl
  | cons call calls ih =>
    cases call with
    | compute play =>
      apply ih
      rw [RuntimeManager.step, RuntimeManager.computeState]
      simp [RuntimeManager.saveMergeableChannels, hNone]
    | replay inputs =>
      have hFull : manager.replayComputeState R inputs = manager.fullReplay R inputs := by
        rw [RuntimeManager.replayComputeState, hNone]
        rfl
      rw [RuntimeManager.answers, RuntimeManager.step, hFull, answer_fullReplay]
      exact congrArg (List.cons _) (ih (by rw [replayCache_fullReplay, hNone]))
    | collect key => exact ih hNone

theorem state_concat (manager : RuntimeManager Ev) (before : List (Call D Ev)) (call : Call D Ev) :
    manager.state R (before ++ [call]) = ((manager.state R before).step R call).1 := by
  induction before generalizing manager with
  | nil => rfl
  | cons first before ih => exact ih _

theorem filed_state (h : Filed R [] manager) (before : List (Call D Ev)) :
    Filed R before (manager.state R before) := by
  induction before using List.reverseRecOn with
  | nil => exact h
  | append_singleton before call ih =>
    rw [state_concat]
    exact filed_step ih call

theorem answer_of_repeats {calls before after : List (Call D Ev)}
    {inputs : ReplayInputs D Ev} (hFiled : Filed R before (manager.state R before))
    (hInj : Set.InjOn R.blake.hash (payloads calls)) (hRepeats : Repeats R manager calls)
    (hCalls : calls = before ++ .replay inputs :: after) :
    ((manager.state R before).replayComputeState R inputs).2 = R.replay inputs := by
  obtain ⟨cache, entry, cache', hCache, hGet, hMergeable, hEq⟩ | hFull :=
    replayComputeState_cases (manager.state R before) inputs
  · obtain ⟨play, hPlay, hKey, hPost⟩ := hFiled cache hCache _ (InMemoryReplayCache.mem_of_get hGet).1
    have hPlayIn : .compute play ∈ calls := hCalls ▸ List.mem_append_left _ hPlay
    have hInputsIn : .replay inputs ∈ calls := hCalls ▸ List.mem_append_right _ List.mem_cons_self
    have hShares := sharesKey_of_key_eq hInj (.inl ⟨play, hPlayIn, rfl⟩) (.inr ⟨inputs, hInputsIn, rfl⟩) hKey
    obtain ⟨hSame, hReplay⟩ :=
      hRepeats before inputs after hCalls ⟨cache, entry, cache', hCache, hGet, hMergeable⟩ play hPlay hShares
    rw [hEq, hSame, hReplay, ← hPost]
  · exact hFull

theorem answers_of_repeats {calls : List (Call D Ev)} (before rest : List (Call D Ev))
    (hEmpty : Filed R [] manager) (hInj : Set.InjOn R.blake.hash (payloads calls)) (hRepeats : Repeats R manager calls)
    (hCalls : calls = before ++ rest) :
    (manager.state R before).answers R rest = fullAnswers R rest := by
  induction rest generalizing before with
  | nil => rfl
  | cons call rest ih =>
    have hRest := ih (before ++ [call]) (by rw [hCalls, List.append_assoc, List.singleton_append])
    rw [state_concat] at hRest
    cases call with
    | compute play => exact hRest
    | replay inputs =>
      rw [RuntimeManager.answers, hRest, RuntimeManager.step,
        answer_of_repeats (filed_state hEmpty before) hInj hRepeats hCalls]
      rfl
    | collect key => exact hRest

def freshManager (Ev : Type) : RuntimeManager Ev := ⟨some (.withLimits maxReplayCacheEntries maxReplayCacheBytes), ∅⟩

def uncachedManager (Ev : Type) : RuntimeManager Ev := ⟨none, ∅⟩

/-- Where every replay that is answered from the cache repeats the play behind the entry, the calls are answered as
they are without the cache. -/
theorem replayCache_transparent {calls : List (Call D Ev)} (hInj : Set.InjOn R.blake.hash (payloads calls))
    (hRepeats : Repeats R (freshManager Ev) calls) :
    (freshManager Ev).answers R calls = (uncachedManager Ev).answers R calls := by
  have hEmpty : Filed R [] (freshManager Ev) := by
    intro cache hCache item hItem
    obtain rfl := Option.some.inj hCache
    cases hItem
  have hUncached : (uncachedManager Ev).answers R calls = fullAnswers R calls := answers_uncached calls rfl
  rw [hUncached]
  exact answers_of_repeats [] calls hEmpty hInj hRepeats rfl

end

/-- A runtime that, as the replay of a deploy does, refuses a log that holds an event the deploy does not use. -/
def strictRuntime : Runtime Unit Nat String where
  blake := paddingDigest
  replay inputs := if inputs.terms.map ProcessedDeploy.deployLog = [[1]] then .ok [9] else .error "unused COMM event"
  logBytes log := log.length

def loggedPlay (deployLog : List Nat) : Play Unit Nat where
  startHash := [1]
  usrProcessed := [⟨⟨(), [7]⟩, 10, deployLog, false, none⟩]
  sysProcessed := []
  blockData := ⟨100, 5, [2], 3⟩
  invalidBlocks := ∅
  postState := [9]

theorem injOn_logged (deployLog deployLog' : List Nat) : Set.InjOn strictRuntime.blake.hash
    (payloads [.compute (loggedPlay deployLog), .replay (loggedPlay deployLog').toReplay]) := by
  have hOnly : ∀ x ∈ payloads [.compute (loggedPlay deployLog), .replay (loggedPlay deployLog').toReplay],
      x = replayPayload (loggedPlay []).usrProcessed [] false := by
    rintro x (⟨play, hMem, rfl⟩ | ⟨inputs, hMem, rfl⟩)
    · obtain rfl : play = loggedPlay deployLog := by simpa using hMem
      rfl
    · obtain rfl : inputs = (loggedPlay deployLog').toReplay := by simpa using hMem
      rfl
  intro x hx y hy _
  rw [hOnly x hx, hOnly y hy]

/-- A play followed by the replay of what was played. -/
theorem playedBlock_transparent :
    (freshManager Nat).answers strictRuntime [.compute (loggedPlay [1]), .replay (loggedPlay [1]).toReplay] =
      (uncachedManager Nat).answers strictRuntime [.compute (loggedPlay [1]), .replay (loggedPlay [1]).toReplay] := by
  apply replayCache_transparent (injOn_logged [1] [1])
  intro before inputs after hCalls hHits play hPlay hShares
  match before with
  | [] => cases hCalls
  | [first] =>
    obtain ⟨rfl, hRest⟩ := List.cons.inj hCalls
    obtain rfl : play = loggedPlay [1] := by simpa using hPlay
    have hInputs := Call.replay.inj (List.cons.inj hRest).1
    exact ⟨hInputs.symm, rfl⟩
  | first :: second :: rest =>
    have hLength := congrArg List.length hCalls
    simp at hLength

/-- The replay with one more event in its log is answered from the cache, although the runtime refuses it; the digest is
free of collisions in this run. -/
theorem padded_log_answered_from_cache :
    Set.InjOn strictRuntime.blake.hash
      (payloads [.compute (loggedPlay [1]), .replay (loggedPlay [1, 2]).toReplay]) ∧
    strictRuntime.replay (loggedPlay [1]).toReplay = .ok (loggedPlay [1]).postState ∧
    (freshManager Nat).answers strictRuntime [.compute (loggedPlay [1]), .replay (loggedPlay [1, 2]).toReplay] =
      [.ok [9]] ∧
    (uncachedManager Nat).answers strictRuntime [.compute (loggedPlay [1]), .replay (loggedPlay [1, 2]).toReplay] =
      [.error "unused COMM event"] :=
  ⟨injOn_logged [1] [1, 2], rfl, by decide, by decide⟩

end F1r3Node.Replay
