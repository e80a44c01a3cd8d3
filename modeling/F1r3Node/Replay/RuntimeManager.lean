import F1r3Node.Shared.Bytes
import Mathlib.Data.Finmap

/-! # The replay cache of the runtime manager

The runtime that replays is a parameter: a function of everything that a replay is given.
-/

namespace F1r3Node.Replay

open Shared

structure BlockData where
  timeStamp : Int64
  blockNumber : Int64
  sender : Bytes
  seqNum : Int32
  deriving DecidableEq

/-- `data` is what the signature covers, together with the key and the algorithm. -/
structure Signed (D : Type) where
  data : D
  sig : Bytes

structure ProcessedDeploy (D Ev : Type) where
  deploy : Signed D
  cost : UInt64
  deployLog : List Ev
  isFailed : Bool
  systemDeployError : Option String

inductive SystemDeployData where
  | slash (invalidBlockHash issuerPublicKey : Bytes) (targetActivationEpoch : Int64)
  | closeBlockSystemDeployData
  | empty

inductive ProcessedSystemDeploy (Ev : Type) where
  | succeeded (eventList : List Ev) (systemDeploy : SystemDeployData)
  | failed (eventList : List Ev) (errorMsg : String)

abbrev InvalidBlocks := Finmap fun _ : Bytes => Bytes

structure ReplayInputs (D Ev : Type) where
  startHash : Bytes
  terms : List (ProcessedDeploy D Ev)
  systemDeploys : List (ProcessedSystemDeploy Ev)
  blockData : BlockData
  invalidBlocks : InvalidBlocks
  isGenesis : Bool

/-- A call of `compute_state` or `compute_state_with_bonds` that got as far as the cache. -/
structure Play (D Ev : Type) where
  startHash : Bytes
  usrProcessed : List (ProcessedDeploy D Ev)
  sysProcessed : List (ProcessedSystemDeploy Ev)
  blockData : BlockData
  invalidBlocks : InvalidBlocks
  postState : Bytes

section

variable {D Ev : Type}

def pushLenPrefixed (data : Bytes) : Bytes := toLeBytes 8 data.length ++ data

def ProcessedDeploy.fingerprint (pd : ProcessedDeploy D Ev) : Bytes :=
  pushLenPrefixed pd.deploy.sig ++ toLeBytes 8 pd.cost.toNat ++ [if pd.isFailed then 1 else 0] ++
    match pd.systemDeployError with
    | some err => 1 :: pushLenPrefixed (asBytes err)
    | none => [0]

def SystemDeployData.fingerprint : SystemDeployData → Bytes
  | .slash invalidBlockHash issuerPublicKey targetActivationEpoch =>
    0 :: (pushLenPrefixed invalidBlockHash ++ pushLenPrefixed issuerPublicKey ++
      toLeBytes 8 targetActivationEpoch.toInt)
  | .closeBlockSystemDeployData => [1]
  | .empty => [2]

def ProcessedSystemDeploy.fingerprint : ProcessedSystemDeploy Ev → Bytes
  | .succeeded _ systemDeploy => 0 :: systemDeploy.fingerprint
  | .failed _ errorMsg => 1 :: pushLenPrefixed (asBytes errorMsg)

def replayPayload (usrProcessed : List (ProcessedDeploy D Ev)) (sysProcessed : List (ProcessedSystemDeploy Ev))
    (isGenesis : Bool) : Bytes :=
  toLeBytes 8 usrProcessed.length ++ usrProcessed.flatMap ProcessedDeploy.fingerprint ++
    toLeBytes 8 sysProcessed.length ++ sysProcessed.flatMap ProcessedSystemDeploy.fingerprint ++
    [if isGenesis then 1 else 0]

def ProcessedSystemDeploy.eventList : ProcessedSystemDeploy Ev → List Ev
  | .succeeded eventList _ => eventList
  | .failed eventList _ => eventList

def collectReplayLogs (usrProcessed : List (ProcessedDeploy D Ev)) (sysProcessed : List (ProcessedSystemDeploy Ev)) :
    List Ev :=
  usrProcessed.flatMap ProcessedDeploy.deployLog ++ sysProcessed.flatMap ProcessedSystemDeploy.eventList

end

structure ReplayCacheKey where
  parentState : Bytes
  senderPk : Bytes
  seqNum : Int64
  payloadHash : Bytes
  deriving DecidableEq

def ReplayCacheKey.heapBytes (key : ReplayCacheKey) : Nat :=
  key.parentState.length + key.senderPk.length + key.payloadHash.length

structure MergeableKey where
  stateHash : Bytes
  creator : Bytes
  seqNum : Int32
  deriving DecidableEq

structure ReplayCacheEntry (Ev : Type) where
  eventLog : List Ev
  postState : Bytes
  retainedBytes : Nat

/-- The entries from the least to the most recently used one. -/
structure InMemoryReplayCache (Ev : Type) where
  map : List (ReplayCacheKey × ReplayCacheEntry Ev)
  retainedBytes : Nat
  maxEntries : Nat
  maxBytes : Nat

section

variable {Ev : Type}

def ReplayCacheEntry.new (logBytes : List Ev → Nat) (eventLog : List Ev) (postState : Bytes) : ReplayCacheEntry Ev :=
  ⟨eventLog, postState, logBytes eventLog + postState.length⟩

def chargedBytes (item : ReplayCacheKey × ReplayCacheEntry Ev) : Nat := item.1.heapBytes + item.2.retainedBytes

/-- The eviction loop of `put`. -/
def evict (maxEntries maxBytes : Nat) :
    List (ReplayCacheKey × ReplayCacheEntry Ev) → Nat → List (ReplayCacheKey × ReplayCacheEntry Ev) × Nat
  | [], retainedBytes => ([], if maxBytes < retainedBytes then 0 else retainedBytes)
  | item :: rest, retainedBytes =>
    if maxEntries < rest.length + 1 ∨ maxBytes < retainedBytes then
      evict maxEntries maxBytes rest (retainedBytes - chargedBytes item)
    else (item :: rest, retainedBytes)

namespace InMemoryReplayCache

variable (cache : InMemoryReplayCache Ev)

def withLimits (maxEntries maxBytes : Nat) : InMemoryReplayCache Ev := ⟨[], 0, maxEntries, maxBytes⟩

def find (key : ReplayCacheKey) : Option (ReplayCacheKey × ReplayCacheEntry Ev) :=
  cache.map.find? fun item => item.1 = key

def without (key : ReplayCacheKey) : List (ReplayCacheKey × ReplayCacheEntry Ev) :=
  cache.map.filter fun item => item.1 ≠ key

def get (key : ReplayCacheKey) : Option (ReplayCacheEntry Ev × InMemoryReplayCache Ev) :=
  (cache.find key).map fun item => (item.2, { cache with map := cache.without key ++ [item] })

def put (key : ReplayCacheKey) (entry : ReplayCacheEntry Ev) : InMemoryReplayCache Ev :=
  let charged := chargedBytes (key, entry)
  if cache.maxEntries = 0 ∨ cache.maxBytes < charged then cache
  else
    let credited := match cache.find key with
      | some replaced => cache.retainedBytes - chargedBytes replaced
      | none => cache.retainedBytes
    let kept := evict cache.maxEntries cache.maxBytes (cache.without key ++ [(key, entry)]) (credited + charged)
    { cache with map := kept.1, retainedBytes := kept.2 }

end InMemoryReplayCache

end

def maxReplayCacheEntries : Nat := 192

def maxReplayCacheBytes : Nat := 32 * 1024 * 1024

def maxReplayCacheEventLogEntries : Nat := 1536

/-- What the manager relies on: the digest, the runtime that replays, and the size of an event log in memory. -/
structure Runtime (D Ev E : Type) where
  blake : Blake2b256
  replay : ReplayInputs D Ev → Except E Bytes
  logBytes : List Ev → Nat

structure RuntimeManager (Ev : Type) where
  replayCache : Option (InMemoryReplayCache Ev)
  mergeableStore : Finset MergeableKey

inductive Call (D Ev : Type) where
  | compute (play : Play D Ev)
  | replay (inputs : ReplayInputs D Ev)
  | collect (key : MergeableKey)

section

variable {D Ev E : Type} (R : Runtime D Ev E)

def replayPayloadHash (usrProcessed : List (ProcessedDeploy D Ev)) (sysProcessed : List (ProcessedSystemDeploy Ev))
    (isGenesis : Bool) : Bytes :=
  R.blake.hash (replayPayload usrProcessed sysProcessed isGenesis)

def Play.key (play : Play D Ev) : ReplayCacheKey :=
  ⟨play.startHash, play.blockData.sender, play.blockData.seqNum.toInt64,
    replayPayloadHash R play.usrProcessed play.sysProcessed false⟩

def ReplayInputs.key (inputs : ReplayInputs D Ev) : ReplayCacheKey :=
  ⟨inputs.startHash, inputs.blockData.sender, inputs.blockData.seqNum.toInt64,
    replayPayloadHash R inputs.terms inputs.systemDeploys inputs.isGenesis⟩

def BlockData.mergeableKey (blockData : BlockData) (postState : Bytes) : MergeableKey :=
  ⟨postState, blockData.sender, blockData.seqNum⟩

def cachePlay (play : Play D Ev) (cache : InMemoryReplayCache Ev) : InMemoryReplayCache Ev :=
  let allLogs := collectReplayLogs play.usrProcessed play.sysProcessed
  if allLogs ≠ [] ∧ allLogs.length ≤ maxReplayCacheEventLogEntries then
    cache.put (play.key R) (.new R.logBytes allLogs play.postState)
  else cache

namespace RuntimeManager

variable (manager : RuntimeManager Ev)

def saveMergeableChannels (key : MergeableKey) : RuntimeManager Ev :=
  { manager with mergeableStore := insert key manager.mergeableStore }

def computeState (play : Play D Ev) : RuntimeManager Ev :=
  let saved := manager.saveMergeableChannels (play.blockData.mergeableKey play.postState)
  { saved with replayCache := saved.replayCache.map (cachePlay R play) }

def fullReplay (inputs : ReplayInputs D Ev) : RuntimeManager Ev × Except E Bytes :=
  match R.replay inputs with
  | .ok postState => (manager.saveMergeableChannels (inputs.blockData.mergeableKey postState), .ok postState)
  | .error error => (manager, .error error)

def replayComputeState (inputs : ReplayInputs D Ev) : RuntimeManager Ev × Except E Bytes :=
  match manager.replayCache.bind fun cache => cache.get (inputs.key R) with
  | none => manager.fullReplay R inputs
  | some (entry, cache) =>
    let touched := { manager with replayCache := some cache }
    -- a fresh runtime is rigged with the log of the entry and dropped
    if inputs.blockData.mergeableKey entry.postState ∈ manager.mergeableStore then (touched, .ok entry.postState)
    else touched.fullReplay R inputs

/-- A call and, for a replay, its answer; the mergeable entries may be collected in between. -/
def step : Call D Ev → RuntimeManager Ev × Option (Except E Bytes)
  | .compute play => (manager.computeState R play, none)
  | .replay inputs => ((manager.replayComputeState R inputs).1, some (manager.replayComputeState R inputs).2)
  | .collect key => ({ manager with mergeableStore := manager.mergeableStore.erase key }, none)

def state : RuntimeManager Ev → List (Call D Ev) → RuntimeManager Ev
  | manager, [] => manager
  | manager, call :: rest => state (manager.step R call).1 rest

def answers : RuntimeManager Ev → List (Call D Ev) → List (Except E Bytes)
  | _, [] => []
  | manager, call :: rest => (manager.step R call).2.toList ++ answers (manager.step R call).1 rest

end RuntimeManager

end

end F1r3Node.Replay
