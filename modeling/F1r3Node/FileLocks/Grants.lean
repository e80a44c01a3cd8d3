import F1r3Node.FileLocks.LockRun

/-! # What a call does

What an event makes of the table is said once, with the locks that it grants in their order, each with the table just
before the lock is added.
-/

namespace F1r3Node.FileLocks

def LockRegistry.drawn (reg : LockRegistry) : Nat := if reg.nextLockId = 0 then 1 else reg.nextLockId

def LockRegistry.afterDraw (reg : LockRegistry) : LockRegistry := { reg with nextLockId := (reg.drawn + 1) % 2 ^ 64 }

theorem lockIdCeiling_lt : lockIdCeiling < i64Max := by decide

theorem mintNextLockId_eq (reg : LockRegistry) :
    reg.mintNextLockId = (if lockIdCeiling < reg.drawn then .error .quotaExceeded else .ok reg.drawn, reg.afterDraw) := by
  have hCeiling := lockIdCeiling_lt
  change (if lockIdCeiling < reg.drawn then (Except.error LockError.quotaExceeded, reg.afterDraw)
    else if i64Max < reg.drawn then (.error .quotaExceeded, reg.afterDraw) else (.ok reg.drawn, reg.afterDraw)) = _
  split_ifs
  · rfl
  · omega
  · rfl

def Event.request (s : LockSystem) : Event → Option (DevInode × Waiter)
  | .tryAcquireRange file offset length mode holder deploy =>
    some (file, ⟨s.registry.drawn, .range offset length mode, holder, deploy, s.channels⟩)
  | .tryAcquireRangeWait file offset length mode holder deploy =>
    some (file, ⟨s.registry.drawn, .range offset length mode, holder, deploy, s.channels⟩)
  | .tryAcquireSequential file holder deploy => some (file, ⟨s.registry.drawn, .sequential, holder, deploy, s.channels⟩)
  | .tryAcquireSequentialWait file holder deploy =>
    some (file, ⟨s.registry.drawn, .sequential, holder, deploy, s.channels⟩)
  | _ => none

structure Grant where
  file : DevInode
  table : DevInode → FileLockState
  request : Waiter

def wakeGrants (alive : Channel → Bool) (table : DevInode → FileLockState) (file : DevInode) :
    List Waiter → FileLockState → List Grant
  | [], _ => []
  | head :: rest, state =>
    if admissible state head then
      let left := { state with waiters := rest }
      if alive head.admission then
        ⟨file, Function.update table file left, head⟩ :: wakeGrants alive table file rest (promote left head)
      else wakeGrants alive table file rest (rollBack (promote left head) head)
    else []

def sweepGrants (alive : Channel → Bool) (drop : FileLockState → FileLockState) :
    List DevInode → (DevInode → FileLockState) → List Grant
  | [], _ => []
  | file :: files, table =>
    wakeGrants alive table file (drop (table file)).waiters (drop (table file)) ++
      sweepGrants alive drop files (Function.update table file (wakeWaiters alive (drop (table file))).2)

def LockSystem.grantOf (s : LockSystem) (e : Event) (granted : Bool) : List Grant :=
  match e.request s with
  | some (file, w) => if granted then [⟨file, s.table, w⟩] else []
  | none => []

def grantedAtOnce : Except LockError AcquireOutcome → Bool
  | .ok (.immediate _) => true
  | _ => false

def LockSystem.grants (s : LockSystem) : Event → List Grant
  | .tryAcquireRange file offset length mode holder deploy =>
    s.grantOf (.tryAcquireRange file offset length mode holder deploy)
      (s.registry.tryAcquireRange file offset length mode holder deploy).1.isOk
  | .tryAcquireRangeWait file offset length mode holder deploy =>
    s.grantOf (.tryAcquireRangeWait file offset length mode holder deploy)
      (grantedAtOnce (s.registry.tryAcquireRangeWait s.channels file offset length mode holder deploy).1)
  | .tryAcquireSequential file holder deploy =>
    s.grantOf (.tryAcquireSequential file holder deploy) (s.registry.tryAcquireSequential file holder deploy).1.isOk
  | .tryAcquireSequentialWait file holder deploy =>
    s.grantOf (.tryAcquireSequentialWait file holder deploy)
      (grantedAtOnce (s.registry.tryAcquireSequentialWait s.channels file holder deploy).1)
  | .release lockId holder =>
    match s.registry.firstFile (releaseIn lockId holder) with
    | some (file, state) => wakeGrants s.alive s.table file state.waiters state
    | none => []
  | .releaseAllForHolder holder =>
    sweepGrants s.alive (removeHeld (·.holder == holder) (·.holder == holder)) s.registry.inner.keys s.table
  | .releaseAllForDeploy deploy =>
    if deploy = sentinelScope then []
    else sweepGrants s.alive (removeHeld (·.deploy == deploy) (·.deploy == deploy)) s.registry.inner.keys s.table
  | _ => []

def LockSystem.uncancelled (s : LockSystem) (file : DevInode) : Event → List Waiter
  | .cancelWait lockId holder =>
    match s.registry.firstFile (cancelIn lockId holder) with
    | some (found, state) => if found = file then state.waiters else (s.table file).waiters
    | none => (s.table file).waiters
  | .cancelAllWaitersForHolder holder => (removeWaiters (·.holder == holder) (s.table file)).waiters
  | .cancelAllWaitersForDeploy deploy =>
    if deploy = sentinelScope then (s.table file).waiters
    else (removeWaiters (·.deploy == deploy) (s.table file)).waiters
  | _ => (s.table file).waiters

/-- What an acquire returns, with the checks it has passed. -/
inductive Acquired (reg : LockRegistry) (file : DevInode) (w : Waiter) :
    Except LockError AcquireOutcome × LockRegistry → Prop
  | refused (err : LockError) : Acquired reg file w (.error err, reg)
  | exhausted (err : LockError) : Acquired reg file w (.error err, reg.afterDraw)
  | granted (hAdmissible : admissible (reg.stateOf file) w = true) (hDrawn : w.lockId ≤ lockIdCeiling) :
      Acquired reg file w
        (.ok (.immediate w.lockId), reg.afterDraw.put file (promote (reg.stateOf file) w))
  | parked (hAdmissible : admissible (reg.stateOf file) w = false) (hDrawn : w.lockId ≤ lockIdCeiling)
      (hCycle : wouldCloseCycle reg.inner w.deploy file = false) :
      Acquired reg file w
        (.ok (.parked w.lockId w.admission),
          reg.afterDraw.put file
            { reg.stateOf file with waiters := (reg.stateOf file).waiters ++ [w] })

variable {state : FileLockState}

theorem admissible_range (id offset length : Nat) (mode : LockMode) (holder : HolderId)
    (deploy : DeployScope) (channel : Channel) (hFull : ¬ maxRangesPerFile ≤ state.ranges.length) :
    admissible state ⟨id, .range offset length mode, holder, deploy, channel⟩ =
      !rangeConflicts state offset length mode holder := by
  change (decide (state.ranges.length < maxRangesPerFile) && !rangeConflicts state offset length mode holder) = _
  rw [decide_eq_true (Nat.not_le.mp hFull), Bool.true_and]

theorem admissible_sequential (state : FileLockState) (id : Nat) (holder : HolderId) (deploy : DeployScope)
    (channel : Channel) :
    admissible state ⟨id, .sequential, holder, deploy, channel⟩ = !sequentialConflicts state := rfl

section acquire

variable (reg : LockRegistry) (channel : Channel) (file : DevInode) (offset length : Nat) (mode : LockMode)
  (holder : HolderId) (deploy : DeployScope)

theorem acquired_tryAcquireRange :
    Acquired reg file ⟨reg.drawn, .range offset length mode, holder, deploy, channel⟩
      ((reg.tryAcquireRange file offset length mode holder deploy).1.map .immediate,
        (reg.tryAcquireRange file offset length mode holder deploy).2) := by
  rw [LockRegistry.tryAcquireRange]
  dsimp only
  rw [mintNextLockId_eq]
  split_ifs with hLength hFull hConflict hCeiling
  · exact .refused _
  · exact .refused _
  · exact .refused _
  · exact .exhausted _
  · have hAdmissible := admissible_range reg.drawn offset length mode holder deploy channel hFull
    rw [Bool.eq_false_iff.mpr hConflict, Bool.not_false] at hAdmissible
    exact .granted hAdmissible (Nat.not_lt.mp hCeiling)

theorem acquired_tryAcquireRangeWait :
    Acquired reg file ⟨reg.drawn, .range offset length mode, holder, deploy, channel⟩
      (reg.tryAcquireRangeWait channel file offset length mode holder deploy) := by
  rw [LockRegistry.tryAcquireRangeWait]
  dsimp only
  rw [mintNextLockId_eq]
  split_ifs with hLength hFull hConflict hCeiling hQueue hCycle hCeiling
  · exact .refused _
  · exact .refused _
  · exact .exhausted _
  · have hAdmissible := admissible_range reg.drawn offset length mode holder deploy channel hFull
    rw [hConflict, Bool.not_false] at hAdmissible
    exact .granted hAdmissible (Nat.not_lt.mp hCeiling)
  · exact .refused _
  · exact .refused _
  · exact .exhausted _
  · have hAdmissible := admissible_range reg.drawn offset length mode holder deploy channel hFull
    rw [Bool.of_not_eq_false hConflict, Bool.not_true] at hAdmissible
    exact .parked hAdmissible (Nat.not_lt.mp hCeiling) (Bool.eq_false_iff.mpr hCycle)

theorem acquired_tryAcquireSequential :
    Acquired reg file ⟨reg.drawn, .sequential, holder, deploy, channel⟩
      ((reg.tryAcquireSequential file holder deploy).1.map .immediate,
        (reg.tryAcquireSequential file holder deploy).2) := by
  have hAdmissible := admissible_sequential (reg.stateOf file) reg.drawn holder deploy channel
  rw [LockRegistry.tryAcquireSequential, mintNextLockId_eq]
  split_ifs with hConflict hCeiling
  · exact .refused _
  · exact .exhausted _
  · rw [Bool.eq_false_iff.mpr hConflict, Bool.not_false] at hAdmissible
    exact .granted hAdmissible (Nat.not_lt.mp hCeiling)

theorem acquired_tryAcquireSequentialWait :
    Acquired reg file ⟨reg.drawn, .sequential, holder, deploy, channel⟩
      (reg.tryAcquireSequentialWait channel file holder deploy) := by
  have hAdmissible := admissible_sequential (reg.stateOf file) reg.drawn holder deploy channel
  rw [LockRegistry.tryAcquireSequentialWait, mintNextLockId_eq]
  split_ifs with hConflict hCeiling hQueue hCycle hCeiling
  · exact .exhausted _
  · rw [hConflict, Bool.not_false] at hAdmissible
    exact .granted hAdmissible (Nat.not_lt.mp hCeiling)
  · exact .refused _
  · exact .refused _
  · exact .exhausted _
  · rw [Bool.of_not_eq_false hConflict, Bool.not_true] at hAdmissible
    exact .parked hAdmissible (Nat.not_lt.mp hCeiling) (Bool.eq_false_iff.mpr hCycle)

end acquire

/-- The table after locks were taken away and waiters woken on one file after the other. -/
def sweepTable (alive : Channel → Bool) (drop : FileLockState → FileLockState) (files : List DevInode)
    (table : DevInode → FileLockState) : DevInode → FileLockState :=
  files.foldl (fun table file => Function.update table file (wakeWaiters alive (drop (table file))).2) table

/-- What one event makes of the table, with all its checks and what it grants. -/
inductive Change (s : LockSystem) (e : Event) (s' : LockSystem) : Prop
  | quiet (hTable : s'.table = s.table) (hGrants : s.grants e = [])
      (hNext : s'.registry.nextLockId = s.registry.nextLockId ∨
        s'.registry.nextLockId = s.registry.afterDraw.nextLockId)
      (hChannels : s'.channels = s.channels)
  | granted {file : DevInode} {w : Waiter} (hRequest : e.request s = some (file, w))
      (hAdmissible : admissible (s.table file) w = true)
      (hTable : s'.table = Function.update s.table file (promote (s.table file) w))
      (hGrants : s.grants e = [⟨file, s.table, w⟩])
      (hNext : s'.registry.nextLockId = s.registry.afterDraw.nextLockId) (hChannels : s'.channels = s.channels)
  | parked {file : DevInode} {w : Waiter} (hRequest : e.request s = some (file, w))
      (hAdmissible : admissible (s.table file) w = false)
      (hCycle : wouldCloseCycle s.registry.inner w.deploy file = false)
      (hTable : s'.table =
        Function.update s.table file { s.table file with waiters := (s.table file).waiters ++ [w] })
      (hGrants : s.grants e = [])
      (hNext : s'.registry.nextLockId = s.registry.afterDraw.nextLockId) (hChannels : s'.channels = s.channels + 1)
  | released {drop : FileLockState → FileLockState} {files : List DevInode} (hRequest : e.request s = none)
      (hFiles : files.Nodup)
      (hDropped : ∀ file ∈ files, Dropped (s.table file) (drop (s.table file)))
      (hTable : s'.table = sweepTable s.alive drop files s.table)
      (hGrants : s.grants e = sweepGrants s.alive drop files s.table)
      (hNext : s'.registry.nextLockId = s.registry.nextLockId) (hChannels : s'.channels = s.channels)
  | cancelled (hTable : ∀ file, s'.table file = { s.table file with waiters := s.uncancelled file e })
      (hGrants : s.grants e = [])
      (hNext : s'.registry.nextLockId = s.registry.nextLockId) (hChannels : s'.channels = s.channels)

variable {s : LockSystem} {e : Event}

theorem Change.refl (hGrants : s.grants e = []) : Change s e s :=
  .quiet rfl hGrants (.inl rfl) rfl

theorem change_of_acquired {file : DevInode} {w : Waiter}
    {result : Except LockError AcquireOutcome × LockRegistry} (hAcquired : Acquired s.registry file w result)
    (hRequest : e.request s = some (file, w)) (hStep : s.step e = s.afterWait result)
    (hGrants : s.grants e = s.grantOf e (grantedAtOnce result.1)) : Change s e (s.step e) := by
  rw [LockSystem.grantOf, hRequest] at hGrants
  rw [hStep]
  cases hAcquired with
  | refused err => exact .refl hGrants
  | exhausted err => exact .quiet rfl hGrants (.inr rfl) rfl
  | granted hAdmissible hDrawn => exact .granted hRequest hAdmissible (stateOf_put _ _ _) hGrants rfl rfl
  | parked hAdmissible hDrawn hCycle => exact .parked hRequest hAdmissible hCycle (stateOf_put _ _ _) hGrants rfl rfl

theorem firstFile_eq_some {reg : LockRegistry} {f : FileLockState → Option FileLockState} {file : DevInode}
    (h : reg.firstFile f = some (file, state)) : f (reg.stateOf file) = some state := by
  obtain ⟨entry, hMem, hEntry⟩ := List.exists_of_findSome?_eq_some h
  obtain ⟨state', hState, hEq⟩ := Option.map_eq_some_iff.mp hEntry
  cases hEq
  rw [stateOf_of_mem hMem, hState]

variable {drop : FileLockState → FileLockState}

theorem sweepTable_apply {alive : Channel → Bool} {files : List DevInode}
    (hFiles : files.Nodup) (table : DevInode → FileLockState) (file : DevInode) :
    sweepTable alive drop files table file =
      if file ∈ files then (wakeWaiters alive (drop (table file))).2 else table file := by
  induction files generalizing table with
  | nil => rfl
  | cons first files ih =>
    obtain ⟨hFirst, hRest⟩ := List.nodup_cons.mp hFiles
    change sweepTable alive drop files _ file = _
    rw [ih hRest]
    dsimp only
    rcases eq_or_ne file first with rfl | hNe
    · rw [if_neg hFirst, if_pos List.mem_cons_self, Function.update_self]
    · simp only [List.mem_cons, hNe, false_or, Function.update_of_ne hNe]

theorem change_release (s : LockSystem) (lockId : LockId) (holder : HolderId) :
    Change s (.release lockId holder) (s.step (.release lockId holder)) := by
  cases hFirst : s.registry.firstFile (releaseIn lockId holder) with
  | none =>
    rw [LockSystem.step, LockRegistry.release, hFirst]
    exact .refl (by rw [LockSystem.grants, hFirst])
  | some found =>
    obtain ⟨file, state⟩ := found
    rw [LockSystem.step, LockRegistry.release, hFirst]
    refine @Change.released _ _ _ (fun _ => state) [file] rfl (List.nodup_singleton file) ?_ (stateOf_keep _ _ _) ?_ ?_
      rfl
    · intro other hOther
      cases List.mem_singleton.mp hOther
      exact releaseIn_dropped (firstFile_eq_some hFirst)
    · rw [LockSystem.grants, hFirst, sweepGrants, sweepGrants, List.append_nil]
    · change (s.registry.keep file _).nextLockId = _
      rw [LockRegistry.keep]
      split_ifs <;> rfl

theorem change_sweepHeld (hRequest : e.request s = none) (ofRange : RangeEntry → Bool)
    (ofSequential : SequentialEntry → Bool)
    (hGrants : s.grants e = sweepGrants s.alive (removeHeld ofRange ofSequential) s.registry.inner.keys s.table) :
    Change s e
      { s with
        registry := s.registry.sweep fun state => (wakeWaiters s.alive (removeHeld ofRange ofSequential state)).2 } := by
  refine .released hRequest s.registry.inner.keys_nodup (fun file _ => removeHeld_dropped ofRange ofSequential _) ?_
    hGrants rfl rfl
  funext file
  rw [sweepTable_apply s.registry.inner.keys_nodup]
  change (s.registry.sweep _).stateOf file = _
  rw [stateOf_sweep _ rfl]
  split_ifs with hMem
  · rfl
  · have hNone : s.registry.stateOf file = {} := by
      rw [LockRegistry.stateOf, AList.lookup_eq_none.mpr hMem, Option.getD_none]
    rw [LockSystem.table, hNone]
    rfl

theorem cancelIn_eq_some {lockId : LockId} {holder : HolderId} {state' : FileLockState}
    (h : cancelIn lockId holder state = some state') :
    state' = { state with waiters := state'.waiters } ∧ state'.waiters.Sublist state.waiters := by
  rw [cancelIn] at h
  split_ifs at h
  cases h
  exact ⟨rfl, List.eraseP_sublist⟩

def Event.isCancel : Event → Bool
  | .cancelWait .. => true
  | .cancelAllWaitersForHolder _ => true
  | .cancelAllWaitersForDeploy _ => true
  | _ => false

theorem table_cancelWait (s : LockSystem) (lockId : LockId) (holder : HolderId) (file : DevInode) :
    (s.step (.cancelWait lockId holder)).table file =
      { s.table file with waiters := s.uncancelled file (.cancelWait lockId holder) } := by
  rw [LockSystem.step, LockRegistry.cancelWait, LockSystem.uncancelled]
  cases hFirst : s.registry.firstFile (cancelIn lockId holder) with
  | none => rfl
  | some found =>
    obtain ⟨found, state⟩ := found
    change (s.registry.keep found state).stateOf file = _
    rw [stateOf_keep]
    dsimp only
    rcases eq_or_ne found file with rfl | hNe
    · rw [Function.update_self, if_pos rfl]
      exact (cancelIn_eq_some (firstFile_eq_some hFirst)).1
    · rw [Function.update_of_ne hNe.symm, if_neg hNe]
      rfl

theorem table_of_isCancel (s : LockSystem) (h : e.isCancel = true) (file : DevInode) :
    (s.step e).table file = { s.table file with waiters := s.uncancelled file e } := by
  cases e with
  | cancelWait lockId holder => exact table_cancelWait s lockId holder file
  | cancelAllWaitersForHolder holder => exact stateOf_sweep s.registry rfl file
  | cancelAllWaitersForDeploy deploy =>
    rw [LockSystem.step, LockRegistry.cancelAllWaitersForDeploy, LockSystem.uncancelled]
    split_ifs
    · rfl
    · exact stateOf_sweep s.registry rfl file
  | _ => cases h

theorem uncancelled_of_not_isCancel (s : LockSystem) (h : e.isCancel = false) (file : DevInode) :
    s.uncancelled file e = (s.table file).waiters := by
  cases e with
  | cancelWait _ _ => cases h
  | cancelAllWaitersForHolder _ => cases h
  | cancelAllWaitersForDeploy _ => cases h
  | _ => rfl

theorem change_cancelWait (s : LockSystem) (lockId : LockId) (holder : HolderId) :
    Change s (.cancelWait lockId holder) (s.step (.cancelWait lockId holder)) := by
  refine .cancelled (table_cancelWait s lockId holder) rfl ?_ rfl
  rw [LockSystem.step, LockRegistry.cancelWait]
  cases s.registry.firstFile (cancelIn lockId holder) with
  | none => rfl
  | some found =>
    change (s.registry.keep found.1 found.2).nextLockId = _
    rw [LockRegistry.keep]
    split_ifs <;> rfl

theorem step_change (s : LockSystem) (e : Event) : Change s e (s.step e) := by
  cases e with
  | tryAcquireRange file offset length mode holder deploy =>
    refine change_of_acquired (acquired_tryAcquireRange s.registry s.channels file offset length mode holder deploy) rfl
      ?_ ?_
    · rw [LockSystem.step]
      cases (s.registry.tryAcquireRange file offset length mode holder deploy).1 <;> rfl
    · rw [LockSystem.grants]
      cases (s.registry.tryAcquireRange file offset length mode holder deploy).1 <;> rfl
  | tryAcquireRangeWait file offset length mode holder deploy =>
    exact change_of_acquired (acquired_tryAcquireRangeWait ..) rfl rfl rfl
  | tryAcquireSequential file holder deploy =>
    refine change_of_acquired (acquired_tryAcquireSequential s.registry s.channels file holder deploy) rfl ?_ ?_
    · rw [LockSystem.step]
      cases (s.registry.tryAcquireSequential file holder deploy).1 <;> rfl
    · rw [LockSystem.grants]
      cases (s.registry.tryAcquireSequential file holder deploy).1 <;> rfl
  | tryAcquireSequentialWait file holder deploy =>
    exact change_of_acquired (acquired_tryAcquireSequentialWait ..) rfl rfl rfl
  | release lockId holder => exact change_release s lockId holder
  | releaseAllForHolder holder => exact change_sweepHeld rfl _ _ rfl
  | releaseAllForDeploy deploy =>
    rw [LockSystem.step, LockRegistry.releaseAllForDeploy]
    split_ifs with hSentinel
    · exact .refl (by rw [LockSystem.grants, if_pos hSentinel])
    · exact change_sweepHeld rfl _ _ (by rw [LockSystem.grants, if_neg hSentinel])
  | cancelWait lockId holder => exact change_cancelWait s lockId holder
  | cancelAllWaitersForHolder holder => exact .cancelled (table_of_isCancel s rfl) rfl rfl rfl
  | cancelAllWaitersForDeploy deploy =>
    refine .cancelled (table_of_isCancel s rfl) rfl ?_ ?_
    · rw [LockSystem.step, LockRegistry.cancelAllWaitersForDeploy]
      split_ifs <;> rfl
    · rw [LockSystem.step, LockRegistry.cancelAllWaitersForDeploy]
      split_ifs <;> rfl
  | dropReceiver channel => exact .quiet rfl rfl (.inl rfl) rfl
  | rehash inner =>
    rw [LockSystem.step]
    split_ifs with hPerm
    · refine .quiet ?_ rfl (.inl rfl) rfl
      funext file
      exact congrArg (Option.getD · {}) (AList.perm_lookup hPerm)
    · exact .refl rfl

theorem released_of_sweepTable {files : List DevInode}
    (hFiles : files.Nodup) (hDropped : ∀ file ∈ files, Dropped (s.table file) (drop (s.table file))) (file : DevInode) :
    sweepTable s.alive drop files s.table file = s.table file ∨
      Released s.alive (s.table file) (sweepTable s.alive drop files s.table file) := by
  rw [sweepTable_apply hFiles]
  split_ifs with hMem
  · exact .inr (wakeWaiters_released (hDropped file hMem))
  · exact .inl rfl

theorem uncancelled_sublist (s : LockSystem) (file : DevInode) (e : Event) :
    (s.uncancelled file e).Sublist (s.table file).waiters := by
  cases e with
  | cancelWait lockId holder =>
    rw [LockSystem.uncancelled]
    cases hFirst : s.registry.firstFile (cancelIn lockId holder) with
    | none => exact .refl _
    | some found =>
      obtain ⟨found, state⟩ := found
      dsimp only
      split_ifs with hFile
      · exact hFile ▸ (cancelIn_eq_some (firstFile_eq_some hFirst)).2
      · exact .refl _
  | cancelAllWaitersForHolder holder => exact List.filter_sublist
  | cancelAllWaitersForDeploy deploy =>
    rw [LockSystem.uncancelled]
    split_ifs
    · exact .refl _
    · exact List.filter_sublist
  | _ => exact .refl _

theorem registry_afterWait (s : LockSystem) (result : Except LockError AcquireOutcome × LockRegistry) :
    (s.afterWait result).registry = result.2 := by
  obtain ⟨_ | _ | _, reg⟩ := result <;> rfl

theorem tidy_step (s : LockSystem) (e : Event) : Tidy s.registry (s.step e).registry := by
  have hAcquired : ∀ {file w result}, Acquired s.registry file w result → Tidy s.registry result.2 := by
    intro file w result h
    cases h with
    | refused err => exact .refl _
    | exhausted err => exact fun _ h => .inl h
    | granted _ _ => exact tidy_put s.registry.afterDraw file (stateIsEmpty_promote _ _)
    | parked _ _ _ => exact tidy_put s.registry.afterDraw file (by simp [stateIsEmpty])
  cases e with
  | tryAcquireRange file offset length mode holder deploy =>
    exact hAcquired (acquired_tryAcquireRange s.registry s.channels file offset length mode holder deploy)
  | tryAcquireRangeWait file offset length mode holder deploy =>
    rw [LockSystem.step, registry_afterWait]
    exact hAcquired (acquired_tryAcquireRangeWait ..)
  | tryAcquireSequential file holder deploy =>
    exact hAcquired (acquired_tryAcquireSequential s.registry s.channels file holder deploy)
  | tryAcquireSequentialWait file holder deploy =>
    rw [LockSystem.step, registry_afterWait]
    exact hAcquired (acquired_tryAcquireSequentialWait ..)
  | release lockId holder =>
    rw [LockSystem.step, LockRegistry.release]
    cases s.registry.firstFile (releaseIn lockId holder) with
    | none => exact .refl _
    | some found => exact tidy_keep _ _ _
  | releaseAllForHolder holder => exact tidy_sweep _ _
  | releaseAllForDeploy deploy =>
    rw [LockSystem.step, LockRegistry.releaseAllForDeploy]
    split_ifs
    · exact .refl _
    · exact tidy_sweep _ _
  | cancelWait lockId holder =>
    rw [LockSystem.step, LockRegistry.cancelWait]
    cases s.registry.firstFile (cancelIn lockId holder) with
    | none => exact .refl _
    | some found => exact tidy_keep _ _ _
  | cancelAllWaitersForHolder holder => exact tidy_sweep _ _
  | cancelAllWaitersForDeploy deploy =>
    rw [LockSystem.step, LockRegistry.cancelAllWaitersForDeploy]
    split_ifs
    · exact .refl _
    · exact tidy_sweep _ _
  | dropReceiver channel => exact .refl _
  | rehash inner =>
    rw [LockSystem.step]
    split_ifs with hPerm
    · exact fun entry h => .inl (hPerm.mem_iff.mp h)
    · exact .refl _

end F1r3Node.FileLocks
