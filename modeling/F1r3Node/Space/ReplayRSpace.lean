import F1r3Node.Space.RSpace
import F1r3Node.Lib.MultisetMultiMap

/-! # The replaying tuple space

A log is rigged into the space as the COMMs that each of its events still has to take part in. The iteration orders of
the hash maps are one parameter of each operation.
-/

namespace F1r3Node.Space

open Shared Lib

/-- COMMs by the hash of their consume and the hash of one of their produces. -/
abbrev ConsumeReplayIndex := Bytes → Bytes → List COMM

structure ReplayRSpace (C P A K : Type) where
  store : HotStore C P A K
  produceCounter : Bytes → Int
  replayData : MultisetMultiMap IOEvent COMM
  consumeReplayIndex : ConsumeReplayIndex

structure HashOrder where
  comms : List COMM → List COMM
  hashes : List Bytes → List Bytes
  perm_comms : ∀ l, (comms l).Perm l
  perm_hashes : ∀ l, (hashes l).Perm l

def HashOrder.refl : HashOrder := ⟨id, id, fun _ => .refl _, fun _ => .refl _⟩

def addToIndex (index : ConsumeReplayIndex) (comm : COMM) (produce : Produce) : ConsumeReplayIndex :=
  Function.update index comm.consume.hash (Function.update (index comm.consume.hash) produce.hash
    (index comm.consume.hash produce.hash ++ [comm]))

def removeFromIndex (index : ConsumeReplayIndex) (comm : COMM) (produce : Produce) :
    ConsumeReplayIndex :=
  Function.update index comm.consume.hash (Function.update (index comm.consume.hash) produce.hash
    ((index comm.consume.hash produce.hash).eraseP (· == comm)))

def COMM.ioEvents (comm : COMM) : List IOEvent :=
  .consume comm.consume :: comm.produces.map .produce

def Event.ioEvent? : Event → Option IOEvent
  | .comm _ => none
  | .ioEvent e => some e

def Event.comm? : Event → Option COMM
  | .comm c => some c
  | .ioEvent _ => none

def rigReplayData (log : Log) : MultisetMultiMap IOEvent COMM :=
  let newStuff := log.filterMap Event.ioEvent?
  (log.filterMap Event.comm?).foldl (fun replayData comm =>
    comm.ioEvents.foldl (fun replayData e =>
      if newStuff.any (· == e) then replayData.addBinding e comm else replayData) replayData) .empty

def rigIndex (log : Log) : ConsumeReplayIndex :=
  (log.filterMap Event.comm?).foldl (fun index comm =>
    comm.produces.foldl (fun index p => addToIndex index comm p) index) fun _ _ => []

/-- The events of one COMM that were produced or consumed are no longer waiting for it. -/
def removeBindings (replayData : MultisetMultiMap IOEvent COMM) (comm : COMM) :
    MultisetMultiMap IOEvent COMM :=
  comm.ioEvents.foldl (fun replayData e => replayData.removeBindingInPlace e comm) replayData

/-- Whether a datum produced by `source` takes part in `comm`. A persistent datum is not counted. -/
def takesPart (comm : COMM) (counter : Bytes → Int) (source : Produce) (persist : Bool) : Bool :=
  comm.produces.any (·.hash = source.hash) &&
    (persist || decide (comm.timesRepeated.lookup source.hash = some (counter source.hash)))

def pushDistinct (out : List COMM) (comm : COMM) : List COMM :=
  if out.any (· == comm) then out else out ++ [comm]

def distinctComms (comms : List COMM) : List COMM := comms.foldl pushDistinct []

def getCommOrCandidate {β : Type} (comms : List COMM) (runMatcher : COMM → Option β) :
    Except Panic (Option (COMM × β)) :=
  if comms = [] then .error .commsEmpty
  else .ok (comms.findSome? fun comm => (runMatcher comm).map fun candidate => (comm, candidate))

namespace ReplayRSpace

variable {C P A K : Type} [DecidableEq C] [DecidableEq P] [DecidableEq K]

/-- `rig_and_reset` on the store of the start root. -/
def rigAndReset (store : HotStore C P A K) (log : Log) : ReplayRSpace C P A K :=
  ⟨store, fun _ => 0, rigReplayData log, rigIndex log⟩

/-- `check_replay_data`: no recorded COMM is left. -/
def checkReplayData (st : ReplayRSpace C P A K) : Bool := st.replayData.isEmpty

def removeBindingsFor (st : ReplayRSpace C P A K) (comm : COMM) : ReplayRSpace C P A K :=
  { st with
    replayData := removeBindings st.replayData comm
    consumeReplayIndex := comm.produces.foldl (fun index p => removeFromIndex index comm p)
      st.consumeReplayIndex }

def presentProduceHashes (st : ReplayRSpace C P A K) (channels : List C) : List Bytes :=
  ((channels.flatMap st.store.storedData).map fun d => d.source.hash).dedup

variable (env : SpaceEnv C P A K) (ord : HashOrder)

def consumeComms (st : ReplayRSpace C P A K) (consumeRef : Consume) (present : List Bytes) :
    Option (List COMM) :=
  let narrowed := distinctComms ((ord.hashes present).flatMap (st.consumeReplayIndex consumeRef.hash))
  if narrowed ≠ [] then some narrowed
  else (st.replayData.get? (.consume consumeRef)).map ord.comms

def runMatcherConsume (st : ReplayRSpace C P A K) (channelPatterns : List (C × P)) (comm : COMM) :
    Option (List (ConsumeCandidate C A)) :=
  extractDataCandidates env channelPatterns fun c =>
    (withIndex (st.store.storedData c)).filter fun d =>
      takesPart comm st.produceCounter d.1.source d.1.persist

def finishConsume (st : ReplayRSpace C P A K) (channels : List C) (wk : WaitingContinuation P K)
    (comms : List COMM) (cands : List (ConsumeCandidate C A)) :
    Except Panic (MaybeConsumeResult C P A K × ReplayRSpace C P A K) :=
  let commRef := COMM.new (sources cands) wk.source wk.peeks st.produceCounter
  if comms.any (· == commRef) then
    .ok (some (wrapResult channels wk cands),
      { st with store := storePersistentData cands st.store }.removeBindingsFor commRef)
  else .error (.commNotInTrace commRef comms)

def storeConsume (st : ReplayRSpace C P A K) (channels : List C) (wk : WaitingContinuation P K) :
    Except Panic (MaybeConsumeResult C P A K × ReplayRSpace C P A K) :=
  .ok (none, { st with store := storeWaitingContinuation channels wk st.store })

def lockedConsume (st : ReplayRSpace C P A K) (channels : List C) (patterns : List P) (continuation : K)
    (persist : Bool) (peeks : Finset Int) (consumeRef : Consume) :
    Except Panic (MaybeConsumeResult C P A K × ReplayRSpace C P A K) :=
  let wk : WaitingContinuation P K := ⟨patterns, continuation, persist, peeks, consumeRef⟩
  let present := st.presentProduceHashes channels
  let filled := { st with store := st.store.fillData channels }
  if present = [] then filled.storeConsume channels wk
  else
    match st.consumeComms ord consumeRef present with
    | none => filled.storeConsume channels wk
    | some comms => do
      match ← getCommOrCandidate comms (st.runMatcherConsume env (channels.zip patterns)) with
      | none => filled.storeConsume channels wk
      | some (_, cands) => filled.finishConsume channels wk comms cands

def fetchMatchingContinuations (s : HotStore C P A K) (comm : COMM) (channels : List C) :
    List (WaitingContinuation P K × Int) :=
  (withIndex (s.getContinuations channels).1).filter fun wc => comm.consume = wc.1.source

def fetchMatchingData (st : ReplayRSpace C P A K) (channel : C) (datum : Datum A) (comm : COMM) (c : C) :
    IndexedData A :=
  let produced := if c = channel ∧ takesPart comm st.produceCounter datum.source datum.persist then
    [(datum, -1)] else []
  produced ++ (withIndex (st.store.storedData c)).filter fun d =>
    takesPart comm st.produceCounter d.1.source d.1.persist

def runMatcherProduce (st : ReplayRSpace C P A K) (channel : C) (datum : Datum A) (comm : COMM)
    (groupedChannels : List (List C)) (s : HotStore C P A K) :
    Option (ProduceCandidate C P A K) × HotStore C P A K :=
  runMatcherForChannels env (fun _ => fetchMatchingContinuations st.store comm)
    (fun _ => st.fetchMatchingData channel datum comm) 0 groupedChannels s

def getCommOrProduceCandidate (st : ReplayRSpace C P A K) (channel : C) (datum : Datum A)
    (groupedChannels : List (List C)) : List COMM → HotStore C P A K →
    Option (COMM × ProduceCandidate C P A K) × HotStore C P A K
  | [], s => (none, s)
  | comm :: comms, s =>
    let found := st.runMatcherProduce env channel datum comm groupedChannels s
    match found.1 with
    | some pc => (some (comm, pc), found.2)
    | none => getCommOrProduceCandidate st channel datum groupedChannels comms found.2

def handleMatch (st : ReplayRSpace C P A K) (pc : ProduceCandidate C P A K) (comms : List COMM) :
    Except Panic ((ContResult C P K × List (RSpaceResult C A)) × ReplayRSpace C P A K) :=
  let commRef := COMM.new (sources pc.dataCandidates) pc.continuation.source pc.continuation.peeks
    st.produceCounter
  if comms.any (· == commRef) then
    let store := if pc.continuation.persist then st.store
      else st.store.removeContinuation pc.channels pc.continuationIndex
    .ok (wrapResult pc.channels pc.continuation pc.dataCandidates,
      { st with store := removeMatchedDatumAndJoin pc.channels pc.dataCandidates store }.removeBindingsFor
        commRef)
  else .error (.commNotInTrace commRef comms)

def storeData (st : ReplayRSpace C P A K) (channel : C) (datum : Datum A) :
    Except Panic (MaybeProduceResult C P A K × ReplayRSpace C P A K) :=
  .ok (none, { st with store := st.store.putDatum channel datum })

/-- The end of a produce that has recorded COMMs: the produce that is returned is the recorded one. -/
def finishProduce (st : ReplayRSpace C P A K) (channel : C) (datum : Datum A) (comms : List COMM) :
    Option (COMM × ProduceCandidate C P A K) →
    Except Panic (MaybeProduceResult C P A K × ReplayRSpace C P A K)
  | some (comm, pc) => do
    let produce := (comm.produces.find? (·.hash = datum.source.hash)).getD datum.source
    let (result, st) ← st.handleMatch pc comms
    return (some (result.1, result.2, produce), st)
  | none => st.storeData channel datum

def lockedProduce (st : ReplayRSpace C P A K) (channel : C) (data : A) (persist : Bool)
    (produceRef : Produce) : Except Panic (MaybeProduceResult C P A K × ReplayRSpace C P A K) :=
  let joins := st.store.getJoins channel
  let st := { st with
    store := joins.2
    produceCounter := countProduce st.produceCounter produceRef persist }
  let datum : Datum A := ⟨data, persist, produceRef⟩
  match (st.replayData.get? (.produce produceRef)).map ord.comms with
  | none => st.storeData channel datum
  | some comms =>
    if comms = [] then .error .commsEmpty
    else
      let found := st.getCommOrProduceCandidate env channel datum joins.1 comms st.store
      { st with store := found.2 }.finishProduce channel datum comms found.1

def consume (st : ReplayRSpace C P A K) (channels : List C) (patterns : List P) (continuation : K)
    (persist : Bool) (peeks : Finset Int) :
    Except Panic (MaybeConsumeResult C P A K × ReplayRSpace C P A K) :=
  if channels = [] then .error .channelsEmpty
  else if channels.length ≠ patterns.length then .error .lengthsDiffer
  else st.lockedConsume env ord channels patterns continuation persist peeks
    (Consume.create env channels patterns continuation persist)

def produce (st : ReplayRSpace C P A K) (channel : C) (data : A) (persist : Bool) :
    Except Panic (MaybeProduceResult C P A K × ReplayRSpace C P A K) :=
  st.lockedProduce env ord channel data persist (Produce.create env channel data persist)

def step (st : ReplayRSpace C P A K) :
    Op C P A K → Except Panic (MaybeConsumeResult C P A K × ReplayRSpace C P A K)
  | .consume channels patterns continuation persist peeks =>
    st.consume env ord channels patterns continuation persist peeks
  | .produce channel data persist => do
    let (result, st) ← st.produce env ord channel data persist
    return (result.map fun r => (r.1, r.2.1), st)

def run : List (Op C P A K × HashOrder) → ReplayRSpace C P A K →
    Except Panic (List (MaybeConsumeResult C P A K) × ReplayRSpace C P A K)
  | [], st => .ok ([], st)
  | (op, ord) :: ops, st => do
    let (result, st) ← st.step env ord op
    let (results, st) ← run ops st
    return (result :: results, st)

end ReplayRSpace

end F1r3Node.Space
