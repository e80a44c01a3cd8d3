import Mathlib.Data.List.AList
import F1r3Node.Lib.DepthFirst
import F1r3Node.Shared.Bytes

/-! # The file-lock registry

A oneshot channel is named by the number of channels opened before it, and `alive` says whose receiver is still there.
The hash map is an association list in its iteration order.
-/

namespace F1r3Node.FileLocks

open F1r3Node.Shared F1r3Node.Lib

abbrev DevInode := Nat × Nat

abbrev DeployScope := Bytes

abbrev HolderId := Bytes

abbrev LockId := Nat

abbrev Channel := Nat

inductive LockMode
  | read
  | write
  deriving DecidableEq

def maxRangesPerFile : Nat := 1024

def maxWaitersPerFile : Nat := 1024

/-- `i64::MAX`. -/
def i64Max : Nat := 2 ^ 63 - 1

def lockIdCeiling : Nat := i64Max - 2 ^ 16

/-- `u64::MAX`. -/
def u64Max : Nat := 2 ^ 64 - 1

inductive LockError
  | busy
  | closed
  | badArg
  | quotaExceeded
  | cancelled
  | deadlock
  deriving DecidableEq

structure RangeEntry where
  id : LockId
  offset : Nat
  length : Nat
  mode : LockMode
  holder : HolderId
  deploy : DeployScope
  deriving DecidableEq

structure SequentialEntry where
  id : LockId
  holder : HolderId
  deploy : DeployScope
  deriving DecidableEq

inductive WaitKind
  | range (offset length : Nat) (mode : LockMode)
  | sequential
  deriving DecidableEq

structure Waiter where
  lockId : LockId
  kind : WaitKind
  holder : HolderId
  deploy : DeployScope
  admission : Channel
  deriving DecidableEq

structure FileLockState where
  ranges : List RangeEntry := []
  sequentialHolder : Option SequentialEntry := none
  waiters : List Waiter := []
  deriving DecidableEq

inductive AcquireOutcome
  | immediate (lockId : LockId)
  | parked (lockId : LockId) (admission : Channel)
  deriving DecidableEq

structure LockRegistry where
  inner : AList fun _ : DevInode => FileLockState
  nextLockId : Nat

def LockRegistry.new : LockRegistry := ⟨∅, 0⟩

def LockRegistry.stateOf (reg : LockRegistry) (file : DevInode) : FileLockState := (reg.inner.lookup file).getD {}

def LockRegistry.put (reg : LockRegistry) (file : DevInode) (state : FileLockState) : LockRegistry :=
  { reg with inner := reg.inner.insert file state }

def saturatingAdd (a b : Nat) : Nat := min (a + b) u64Max

def rangesOverlap (a b : Nat × Nat) : Bool :=
  if a.2 = 0 ∨ b.2 = 0 then false
  else
    let aEnd := saturatingAdd a.1 a.2
    let bEnd := saturatingAdd b.1 b.2
    a.1 < bEnd && b.1 < aEnd

def entryConflicts (entry : RangeEntry) (offset length : Nat) (mode : LockMode) (holder : HolderId) : Bool :=
  rangesOverlap (entry.offset, entry.length) (offset, length) &&
    !(mode == .read && entry.mode == .read) && !(entry.holder == holder)

def rangeConflicts (state : FileLockState) (offset length : Nat) (mode : LockMode) (holder : HolderId) : Bool :=
  state.sequentialHolder.isSome || state.ranges.any fun entry => entryConflicts entry offset length mode holder

def sequentialConflicts (state : FileLockState) : Bool := state.sequentialHolder.isSome || !state.ranges.isEmpty

def stateIsEmpty (state : FileLockState) : Bool :=
  state.ranges.isEmpty && state.sequentialHolder.isNone && state.waiters.isEmpty

def admissible (state : FileLockState) (head : Waiter) : Bool :=
  match head.kind with
  | .range offset length mode =>
    state.ranges.length < maxRangesPerFile && !rangeConflicts state offset length mode head.holder
  | .sequential => !sequentialConflicts state

def promote (state : FileLockState) (waiter : Waiter) : FileLockState :=
  match waiter.kind with
  | .range offset length mode =>
    { state with ranges := state.ranges ++ [⟨waiter.lockId, offset, length, mode, waiter.holder, waiter.deploy⟩] }
  | .sequential => { state with sequentialHolder := some ⟨waiter.lockId, waiter.holder, waiter.deploy⟩ }

def rollBack (state : FileLockState) (waiter : Waiter) : FileLockState :=
  match waiter.kind with
  | .range .. => { state with ranges := state.ranges.dropLast }
  | .sequential => { state with sequentialHolder := none }

/-- The loop over the queue; the result lists the waiters that were told `Ok`. -/
def wakeFrom (alive : Channel → Bool) : List Waiter → FileLockState → List Waiter × FileLockState
  | [], state => ([], { state with waiters := [] })
  | head :: rest, state =>
    if admissible state head then
      let promoted := promote { state with waiters := rest } head
      if alive head.admission then
        let (woken, state) := wakeFrom alive rest promoted
        (head :: woken, state)
      else wakeFrom alive rest (rollBack promoted head)
    else ([], { state with waiters := head :: rest })

def wakeWaiters (alive : Channel → Bool) (state : FileLockState) : List Waiter × FileLockState :=
  wakeFrom alive state.waiters state

def holderDeploys (state : FileLockState) : List DeployScope :=
  state.ranges.map (·.deploy) ++ state.sequentialHolder.toList.map (·.deploy)

def parkedDeploys (state : FileLockState) : List DeployScope := state.waiters.map (·.deploy)

/-- The deploys that hold a lock on a file on which `node` is parked. -/
def waitsOn (inner : AList fun _ : DevInode => FileLockState) (node : DeployScope) : List DeployScope :=
  inner.entries.flatMap fun entry =>
    if node ∈ parkedDeploys entry.2 then (holderDeploys entry.2).filter (· ≠ node) else []

def holderCount (inner : AList fun _ : DevInode => FileLockState) : Nat :=
  (inner.entries.flatMap fun entry => holderDeploys entry.2).length

def wouldCloseCycle (inner : AList fun _ : DevInode => FileLockState) (waiterDeploy : DeployScope)
    (target : DevInode) : Bool :=
  let seeds := (holderDeploys ((inner.lookup target).getD {})).filter (· ≠ waiterDeploy)
  let count := holderCount inner
  DepthFirst.search (waitsOn inner) waiterDeploy (count * count + count + 1) [] seeds.reverse

/-- The counter wraps at `2 ^ 64`, also when the id is refused. -/
def LockRegistry.mintNextLockId (reg : LockRegistry) : Except LockError LockId × LockRegistry :=
  let raw := if reg.nextLockId = 0 then 1 else reg.nextLockId
  let reg := { reg with nextLockId := (raw + 1) % 2 ^ 64 }
  if lockIdCeiling < raw then (.error .quotaExceeded, reg)
  else if i64Max < raw then (.error .quotaExceeded, reg)
  else (.ok raw, reg)

def LockRegistry.tryAcquireRange (reg : LockRegistry) (file : DevInode) (offset length : Nat) (mode : LockMode)
    (holder : HolderId) (deploy : DeployScope) : Except LockError LockId × LockRegistry :=
  if length = 0 then (.error .badArg, reg)
  else
    let state := reg.stateOf file
    if maxRangesPerFile ≤ state.ranges.length then (.error .quotaExceeded, reg)
    else if rangeConflicts state offset length mode holder then (.error .busy, reg)
    else
      match reg.mintNextLockId with
      | (.error e, reg) => (.error e, reg)
      | (.ok id, reg) =>
        (.ok id, reg.put file { state with ranges := state.ranges ++ [⟨id, offset, length, mode, holder, deploy⟩] })

def LockRegistry.tryAcquireRangeWait (reg : LockRegistry) (channel : Channel) (file : DevInode) (offset length : Nat)
    (mode : LockMode) (holder : HolderId) (deploy : DeployScope) : Except LockError AcquireOutcome × LockRegistry :=
  if length = 0 then (.error .badArg, reg)
  else
    let state := reg.stateOf file
    if maxRangesPerFile ≤ state.ranges.length then (.error .quotaExceeded, reg)
    else if rangeConflicts state offset length mode holder = false then
      match reg.mintNextLockId with
      | (.error e, reg) => (.error e, reg)
      | (.ok id, reg) =>
        (.ok (.immediate id),
          reg.put file { state with ranges := state.ranges ++ [⟨id, offset, length, mode, holder, deploy⟩] })
    else if maxWaitersPerFile ≤ state.waiters.length then (.error .quotaExceeded, reg)
    else if wouldCloseCycle reg.inner deploy file then (.error .deadlock, reg)
    else
      match reg.mintNextLockId with
      | (.error e, reg) => (.error e, reg)
      | (.ok id, reg) =>
        (.ok (.parked id channel),
          reg.put file
            { state with waiters := state.waiters ++ [⟨id, .range offset length mode, holder, deploy, channel⟩] })

def LockRegistry.tryAcquireSequential (reg : LockRegistry) (file : DevInode) (holder : HolderId)
    (deploy : DeployScope) : Except LockError LockId × LockRegistry :=
  let state := reg.stateOf file
  if sequentialConflicts state then (.error .busy, reg)
  else
    match reg.mintNextLockId with
    | (.error e, reg) => (.error e, reg)
    | (.ok id, reg) => (.ok id, reg.put file { state with sequentialHolder := some ⟨id, holder, deploy⟩ })

def LockRegistry.tryAcquireSequentialWait (reg : LockRegistry) (channel : Channel) (file : DevInode)
    (holder : HolderId) (deploy : DeployScope) : Except LockError AcquireOutcome × LockRegistry :=
  let state := reg.stateOf file
  if sequentialConflicts state = false then
    match reg.mintNextLockId with
    | (.error e, reg) => (.error e, reg)
    | (.ok id, reg) =>
      (.ok (.immediate id), reg.put file { state with sequentialHolder := some ⟨id, holder, deploy⟩ })
  else if maxWaitersPerFile ≤ state.waiters.length then (.error .quotaExceeded, reg)
  else if wouldCloseCycle reg.inner deploy file then (.error .deadlock, reg)
  else
    match reg.mintNextLockId with
    | (.error e, reg) => (.error e, reg)
    | (.ok id, reg) =>
      (.ok (.parked id channel),
        reg.put file { state with waiters := state.waiters ++ [⟨id, .sequential, holder, deploy, channel⟩] })

def releaseIn (lockId : LockId) (holder : HolderId) (state : FileLockState) : Option FileLockState :=
  if state.ranges.any fun e => e.id == lockId && e.holder == holder then
    some { state with ranges := state.ranges.eraseP fun e => e.id == lockId && e.holder == holder }
  else if state.sequentialHolder.any fun s => s.id == lockId && s.holder == holder then
    some { state with sequentialHolder := none }
  else none

/-- The first file, in the order of iteration, to which the call applies, with what the call makes of its state. -/
def LockRegistry.firstFile (reg : LockRegistry) (f : FileLockState → Option FileLockState) :
    Option (DevInode × FileLockState) :=
  reg.inner.entries.findSome? fun entry => (f entry.2).map fun state => (entry.1, state)

def LockRegistry.keep (reg : LockRegistry) (file : DevInode) (state : FileLockState) : LockRegistry :=
  if stateIsEmpty state then { reg with inner := reg.inner.erase file } else reg.put file state

def LockRegistry.release (reg : LockRegistry) (alive : Channel → Bool) (lockId : LockId) (holder : HolderId) :
    Except LockError Unit × LockRegistry :=
  match reg.firstFile (releaseIn lockId holder) with
  | none => (.error .closed, reg)
  | some (file, state) => (.ok (), reg.keep file (wakeWaiters alive state).2)

def LockRegistry.sweep (reg : LockRegistry) (f : FileLockState → FileLockState) : LockRegistry :=
  let entries := reg.inner.entries.map fun entry => ⟨entry.1, f entry.2⟩
  { reg with
    inner :=
      ⟨entries.filter fun entry => !stateIsEmpty entry.2, by
        have hKeys : entries.keys = reg.inner.keys := by
          simp only [entries, List.keys, List.map_map, AList.keys]
          rfl
        have hNodup : entries.keys.Nodup := hKeys ▸ reg.inner.keys_nodup
        exact (List.filter_sublist.map _).nodup hNodup⟩ }

def removeHeld (ofRange : RangeEntry → Bool) (ofSequential : SequentialEntry → Bool) (state : FileLockState) :
    FileLockState :=
  { state with
    ranges := state.ranges.filter fun e => !ofRange e
    sequentialHolder := state.sequentialHolder.filter fun s => !ofSequential s }

def LockRegistry.countHeld (reg : LockRegistry) (ofRange : RangeEntry → Bool) (ofSequential : SequentialEntry → Bool) :
    Nat :=
  (reg.inner.entries.map fun entry =>
    entry.2.ranges.countP ofRange + entry.2.sequentialHolder.toList.countP ofSequential).sum

def LockRegistry.releaseAllForHolder (reg : LockRegistry) (alive : Channel → Bool) (holder : HolderId) :
    Nat × LockRegistry :=
  (reg.countHeld (·.holder == holder) (·.holder == holder),
    reg.sweep fun state => (wakeWaiters alive (removeHeld (·.holder == holder) (·.holder == holder) state)).2)

def sentinelScope : DeployScope := List.replicate 32 0

def LockRegistry.releaseAllForDeploy (reg : LockRegistry) (alive : Channel → Bool) (deploy : DeployScope) :
    Option (Nat × LockRegistry) :=
  if deploy = sentinelScope then none
  else
    some (reg.countHeld (·.deploy == deploy) (·.deploy == deploy),
      reg.sweep fun state => (wakeWaiters alive (removeHeld (·.deploy == deploy) (·.deploy == deploy) state)).2)

def cancelIn (lockId : LockId) (holder : HolderId) (state : FileLockState) : Option FileLockState :=
  if state.waiters.any fun w => w.lockId == lockId && w.holder == holder then
    some { state with waiters := state.waiters.eraseP fun w => w.lockId == lockId && w.holder == holder }
  else none

def LockRegistry.cancelWait (reg : LockRegistry) (lockId : LockId) (holder : HolderId) :
    Except LockError Unit × LockRegistry :=
  match reg.firstFile (cancelIn lockId holder) with
  | none => (.error .closed, reg)
  | some (file, state) => (.ok (), reg.keep file state)

def removeWaiters (p : Waiter → Bool) (state : FileLockState) : FileLockState :=
  { state with waiters := state.waiters.filter fun w => !p w }

def LockRegistry.countWaiters (reg : LockRegistry) (p : Waiter → Bool) : Nat :=
  (reg.inner.entries.map fun entry => entry.2.waiters.countP p).sum

def LockRegistry.cancelAllWaitersForHolder (reg : LockRegistry) (holder : HolderId) : Nat × LockRegistry :=
  (reg.countWaiters (·.holder == holder), reg.sweep (removeWaiters (·.holder == holder)))

def LockRegistry.cancelAllWaitersForDeploy (reg : LockRegistry) (deploy : DeployScope) : Option (Nat × LockRegistry) :=
  if deploy = sentinelScope then none
  else some (reg.countWaiters (·.deploy == deploy), reg.sweep (removeWaiters (·.deploy == deploy)))

end F1r3Node.FileLocks
