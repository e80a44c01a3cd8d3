import F1r3Node.DagStorage.BlockDagStorage
import Mathlib.Data.Finmap

/-! # The block requester of the last finalized state

The stream takes one event at a time. A block that arrives is marked as received before its hash is looked at.
-/

namespace F1r3Node.StateSync

open Shared
open Casper (BlockMessage BlockCodec Justification hashBlock)
open DagStorage (HashOrder)

inductive ReqStatus where
  | init
  | requested
  | received
  deriving DecidableEq

structure ReceiveInfo where
  requested : Bool
  latest : Bool
  lastlatest : Bool

structure ST (K : Type) where
  d : Finmap fun _ : K => ReqStatus
  latest : Finset K
  lowerBound : Int64
  heightMap : Finmap fun _ : Int64 => Finset K
  finished : Finset K
  mergeableD : Finmap fun _ : K => ReqStatus

section

variable {K : Type} [DecidableEq K]

def allAt (status : ReqStatus) (keys : Finset K) : Finmap fun _ : K => ReqStatus where
  entries := keys.val.map fun k => ⟨k, status⟩
  nodupKeys := by
    rw [← Multiset.nodup_keys, Multiset.keys, Multiset.map_map]
    exact keys.nodup.map fun _ _ h => h

omit [DecidableEq K] in
theorem mem_allAt {status : ReqStatus} {keys : Finset K} {k : K} : k ∈ allAt status keys ↔ k ∈ keys := by
  rw [Finmap.mem_def, allAt, Multiset.keys, Multiset.map_map]
  simp

theorem lookup_allAt {status : ReqStatus} {keys : Finset K} {k : K} (h : k ∈ keys) :
    (allAt status keys).lookup k = some status := by
  rw [Finmap.lookup_eq_some_iff, allAt]
  exact Multiset.mem_map.mpr ⟨k, h, rfl⟩

theorem lookup_allAt_union (status : ReqStatus) (keys : Finset K) (d : Finmap fun _ : K => ReqStatus) (k : K) :
    (allAt status keys ∪ d).lookup k = if k ∈ keys then some status else d.lookup k := by
  split
  · next h => rw [Finmap.lookup_union_left (mem_allAt.mpr h), lookup_allAt h]
  · next h => rw [Finmap.lookup_union_right fun hMem => h (mem_allAt.mp hMem)]

namespace ST

def new (initial : Finset K) (latest : Option (Finset K)) (lowerBound : Option Int64) : ST K where
  d := allAt .init initial
  latest := latest.getD ∅
  lowerBound := lowerBound.getD 0
  heightMap := ∅
  finished := ∅
  mergeableD := ∅

variable (st : ST K)

def add (keys : Finset K) : ST K :=
  { st with d := allAt .init (keys.filter fun k => k ∉ st.finished ∧ k ∉ st.d) ∪ st.d }

def mergeablePending (key : K) : ST K := { st with mergeableD := st.mergeableD.insert key .init }

def due (resend : Bool) (status : Option ReqStatus) : Bool :=
  status = some .init || resend && status = some .requested

def getNextMergeable (resend : Bool) : ST K × Finset K :=
  let requestKeys := st.mergeableD.keys.filter fun k => due resend (st.mergeableD.lookup k)
  ({ st with mergeableD := allAt .requested requestKeys ∪ st.mergeableD }, requestKeys)

def mergeableReceived (key : K) : ST K × Bool :=
  ({ st with mergeableD := st.mergeableD.erase key }, decide (key ∈ st.mergeableD))

/-- The status of a key among the requests; a latest message without one counts as initialized. -/
def requestStatus (k : K) : Option ReqStatus :=
  (st.d.lookup k).or (if k ∈ st.latest then some .init else none)

def requestKeys (resend : Bool) : Finset K :=
  (st.d.keys ∪ st.latest).filter fun k => due resend (st.requestStatus k) ∧ (st.latest = ∅ ∨ k ∈ st.latest)

def getNext (resend : Bool) : ST K × Finset K :=
  ({ st with d := allAt .requested (st.requestKeys resend) ∪ st.d }, st.requestKeys resend)

def received (k : K) (height : Int64) (latestReplacement : Option K) (lowersBound : Bool) : ST K × ReceiveInfo :=
  if st.d.lookup k = some .requested then
    let isLatest := decide (k ∈ st.latest)
    let adjLatest := st.latest.erase k
    let newLatest := latestReplacement.elim adjLatest fun replacement => insert replacement adjLatest
    ({ st with
        d := st.d.insert k .received
        latest := newLatest
        lowerBound := if isLatest && lowersBound then min (height - 1) st.lowerBound else st.lowerBound
        heightMap := st.heightMap.insert height (insert k ((st.heightMap.lookup height).getD ∅)) },
      ⟨true, isLatest, isLatest && decide (newLatest = ∅)⟩)
  else (st, ⟨false, false, false⟩)

def done (k : K) : ST K :=
  if st.d.lookup k = some .received then { st with d := st.d.erase k, finished := insert k st.finished } else st

def isFinished : Bool := decide (st.latest = ∅) && decide (st.d.keys = ∅)

end ST

end

section

variable {D S : Type}

def blockNumber (block : BlockMessage D S) : Int64 := block.body.state.blockNumber

/-- `Validate::block_hash`. -/
def blockHashValid (E : BlockCodec D S) (block : BlockMessage D S) : Bool := decide (block.blockHash = hashBlock E block)

/-- `validate_block` of the initializing engine. -/
def validateBlock (E : BlockCodec D S) (block : BlockMessage D S) : Bool :=
  if blockNumber block = 0 then true else blockHashValid E block

def creatorJustification (block : BlockMessage D S) : Option Justification :=
  block.justifications.find? fun j => j.validator = block.sender

def dependenciesHashesOf (block : BlockMessage D S) : Finset Bytes :=
  block.header.parentsHashList.toFinset ∪ (block.justifications.map Justification.latestBlockHash).toFinset

/-- The latest messages of the approved block; of two with one hash the later validator counts. -/
def latestMessagesOf (justifications : List Justification) : Finmap fun _ : Bytes => Bytes :=
  justifications.foldl (fun messages j => messages.insert j.latestBlockHash j.validator) ∅

def slotIsOwnTestimony (latestMessages : Finmap fun _ : Bytes => Bytes) (block : BlockMessage D S) : Bool :=
  decide (latestMessages.lookup block.blockHash = some block.sender)

/-- The requester with its block store, its two queues and the state of its stream. -/
structure Requester (D S : Type) where
  st : ST Bytes
  blockStore : Finmap fun _ : Bytes => BlockMessage D S
  requestQueue : List Bool
  responseHashes : List Bytes
  consecutiveErrors : Nat
  ended : Bool

structure Faults where
  contains : Bytes → Bool
  put : Bool
  request : Bool
  importEntry : Bool

structure Setup (D S : Type) where
  validate : BlockMessage D S → Bool
  latestMessages : Finmap fun _ : Bytes => Bytes
  order : HashOrder

def startOf (approvedBlock : BlockMessage D S) (initialMinimumHeight : Int64)
    (blockStore : Finmap fun _ : Bytes => BlockMessage D S) : Requester D S where
  st := ST.new {approvedBlock.blockHash} (some (latestMessagesOf approvedBlock.justifications).keys)
    (some initialMinimumHeight)
  blockStore := blockStore
  requestQueue := [false]
  responseHashes := []
  consecutiveErrors := 0
  ended := false

variable (setup : Setup D S) (faults : Faults) (r : Requester D S)

def containsBlock (hash : Bytes) : Bool := !faults.contains hash && decide (hash ∈ r.blockStore)

/-- Hashes of blocks that are there go to the response queue. The flag tells whether the requests were sent. -/
def requestNext (resend : Bool) : Requester D S × Bool :=
  let (st, hashes) := r.st.getNext resend
  let existing := (setup.order.toList hashes).filter (containsBlock faults r)
  let missing := (setup.order.toList hashes).filter fun hash => !containsBlock faults r hash
  ({ r with st, responseHashes := r.responseHashes ++ existing },
    r.st.isFinished || missing.isEmpty || !faults.request)

def markReceived (block : BlockMessage D S) : ST Bytes × ReceiveInfo :=
  let lmReplacement :=
    if block.blockHash ∈ setup.latestMessages then (creatorJustification block).map Justification.latestBlockHash else none
  r.st.received block.blockHash (blockNumber block) lmReplacement (slotIsOwnTestimony setup.latestMessages block)

/-- The state with the block marked as received, and whether it was requested and is valid. -/
def validateReceivedBlock (block : BlockMessage D S) : ST Bytes × Bool :=
  let (st, info) := markReceived setup r block
  if info.requested && setup.validate block then
    let accepted := info.latest || info.requested && decide (st.lowerBound ≤ blockNumber block)
    (if accepted then st.add (dependenciesHashesOf block) else st, info.requested)
  else (st, false)

def saveBlock (block : BlockMessage D S) : Requester D S × Bool :=
  if containsBlock faults r block.blockHash then
    ({ r with st := (r.st.done block.blockHash).mergeablePending block.blockHash }, true)
  else if faults.put then (r, false)
  else
    ({ r with
        st := (r.st.done block.blockHash).mergeablePending block.blockHash
        blockStore := r.blockStore.insert block.blockHash block }, true)

def processBlock (block : BlockMessage D S) : Requester D S × Bool :=
  let (st, isValid) := validateReceivedBlock setup r block
  let (saved, isSaved) := if isValid then saveBlock faults { r with st } block else ({ r with st }, true)
  if isSaved then requestNext setup faults saved false else (saved, false)

structure MergeableEntryResponse where
  blockHash : Bytes
  serializedEntry : Bytes

def processMergeableEntry (resp : MergeableEntryResponse) : Requester D S × Bool :=
  if resp.blockHash ∉ r.st.mergeableD then (r, true)
  else if resp.serializedEntry ≠ [] ∧ faults.importEntry then (r, false)
  else ({ r with st := (r.st.mergeableReceived resp.blockHash).1 }, true)

inductive Event (D S : Type) where
  | request
  | idle
  | mergeableEntry (resp : MergeableEntryResponse)
  | block (block : BlockMessage D S)
  | existing

def maxConsecutiveErrors : Nat := 5

/-- What follows a processed event: the errors are counted, and a finished state ends the stream. -/
def afterEvent (outcome : Requester D S × Bool) : Requester D S :=
  let (r, succeeded) := outcome
  if succeeded then { r with consecutiveErrors := 0, ended := r.st.isFinished }
  else { r with
    consecutiveErrors := r.consecutiveErrors + 1
    ended := decide (maxConsecutiveErrors ≤ r.consecutiveErrors + 1) }

def streamStep (event : Event D S) : Requester D S :=
  if r.ended then r
  else
    match event with
    | .request =>
      match r.requestQueue with
      | [] => r
      | resend :: queue => afterEvent (requestNext setup faults { r with requestQueue := queue } resend)
    | .idle =>
      let r := { r with st := (r.st.getNextMergeable true).1 }
      if r.requestQueue.length < 2 then { r with requestQueue := r.requestQueue ++ [true] }
      else { r with ended := r.st.isFinished }
    | .mergeableEntry resp =>
      let (r, succeeded) := processMergeableEntry faults r resp
      if succeeded then { r with ended := r.st.isFinished } else r
    | .block block => afterEvent (processBlock setup faults r block)
    | .existing =>
      match r.responseHashes with
      | [] => r
      | hash :: hashes =>
        match r.blockStore.lookup hash with
        | none => { r with ended := true }  -- `get_unsafe` panics
        | some block => afterEvent (processBlock setup faults { r with responseHashes := hashes } block)

end

end F1r3Node.StateSync
