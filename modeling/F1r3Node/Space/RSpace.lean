import F1r3Node.Space.Matcher

/-! # The playing tuple space

An operation that finds a match logs a COMM, retires what the match used up and returns its result; any other is stored.
The random shuffles are a parameter.
-/

namespace F1r3Node.Space

open Shared

structure RSpaceResult (C A : Type) where
  channel : C
  matchedDatum : A
  removedDatum : A
  persistent : Bool
  deriving DecidableEq

structure ContResult (C P K : Type) where
  continuation : K
  persistent : Bool
  channels : List C
  patterns : List P
  peek : Bool
  deriving DecidableEq

abbrev MaybeConsumeResult (C P A K : Type) := Option (ContResult C P K × List (RSpaceResult C A))

abbrev MaybeProduceResult (C P A K : Type) :=
  Option (ContResult C P K × List (RSpaceResult C A) × Produce)

inductive Panic where
  | channelsEmpty
  | lengthsDiffer
  | commsEmpty
  | commNotInTrace (comm : COMM) (comms : List COMM)
  deriving DecidableEq

inductive Op (C P A K : Type) where
  | consume (channels : List C) (patterns : List P) (continuation : K) (persist : Bool)
      (peeks : Finset Int)
  | produce (channel : C) (data : A) (persist : Bool)
  deriving DecidableEq

/-- The shuffles of one operation, for each attempt of the matcher. -/
structure Shuffle (C P A K : Type) where
  data : Nat → C → IndexedData A → IndexedData A
  continuations : Nat → List (WaitingContinuation P K × Int) → List (WaitingContinuation P K × Int)
  perm_data : ∀ n c l, (data n c l).Perm l
  perm_continuations : ∀ n l, (continuations n l).Perm l

def Shuffle.refl (C P A K : Type) : Shuffle C P A K :=
  ⟨fun _ _ l => l, fun _ l => l, fun _ _ _ => .refl _, fun _ _ => .refl _⟩

def Shuffle.reverse (C P A K : Type) : Shuffle C P A K :=
  ⟨fun _ _ l => l.reverse, fun _ l => l.reverse, fun _ _ l => l.reverse_perm, fun _ l => l.reverse_perm⟩

def withIndex {α : Type} (items : List α) : List (α × Int) :=
  items.zipIdx.map fun item => (item.1, (item.2 : Int))

structure RSpace (C P A K : Type) where
  store : HotStore C P A K
  eventLog : Log
  produceCounter : Bytes → Int

section store

variable {C P A K : Type} [DecidableEq C]

def HotStore.fillData (s : HotStore C P A K) (channels : List C) : HotStore C P A K :=
  channels.foldl (fun s c => (s.getData c).2) s

def HotStore.fillJoin (s : HotStore C P A K) (channels : List C) : HotStore C P A K :=
  (s.getContinuations channels).2.fillData channels

def sortByIndex (cands : List (ConsumeCandidate C A)) : List (ConsumeCandidate C A) :=
  cands.insertionSort fun a b => a.datumIndex ≤ b.datumIndex

/-- The matched data that are not persistent leave the store, by ascending index; an index that is
out of bounds by then is ignored. -/
def storePersistentData (cands : List (ConsumeCandidate C A)) (s : HotStore C P A K) :
    HotStore C P A K :=
  (sortByIndex cands).foldl (fun s cand =>
    if cand.datum.persist then s else (s.removeDatum cand.channel cand.datumIndex).2) s

def removeMatchedDatumAndJoin (channels : List C) (cands : List (ConsumeCandidate C A))
    (s : HotStore C P A K) : HotStore C P A K :=
  (sortByIndex cands).foldl (fun s cand =>
    if (0 : Int) ≤ cand.datumIndex ∧ cand.datum.persist = false then
      match s.removeDatum cand.channel cand.datumIndex with
      | (.error _, s) => s
      | (.ok _, s) => s.removeJoin cand.channel channels
    else s.removeJoin cand.channel channels) s

def storeWaitingContinuation [DecidableEq P] [DecidableEq K] (channels : List C)
    (wc : WaitingContinuation P K) (s : HotStore C P A K) : HotStore C P A K :=
  channels.foldl (fun s c => s.putJoin c channels) (s.putContinuation channels wc)

def wrapResult (channels : List C) (wk : WaitingContinuation P K)
    (cands : List (ConsumeCandidate C A)) : ContResult C P K × List (RSpaceResult C A) :=
  (⟨wk.continuation, wk.persist, channels, wk.patterns, decide (wk.peeks ≠ ∅)⟩,
    cands.map fun cand => ⟨cand.channel, cand.datum.a, cand.removedDatum, cand.datum.persist⟩)

/-- The sources of the candidates, from which `COMM::new` builds the event. -/
def sources (cands : List (ConsumeCandidate C A)) : List Produce :=
  cands.map fun cand => cand.datum.source

variable (env : SpaceEnv C P A K)

/-- The joins are tried in turn; each attempt reads the continuations and data of its join. -/
def runMatcherForChannels
    (fetchMatchingContinuations : Nat → List C → List (WaitingContinuation P K × Int))
    (fetchMatchingData : Nat → C → IndexedData A) :
    Nat → List (List C) → HotStore C P A K → Option (ProduceCandidate C P A K) × HotStore C P A K
  | _, [], s => (none, s)
  | n, channels :: groupedChannels, s =>
    match extractFirstMatch env channels (fetchMatchingContinuations n channels)
        (fetchMatchingData n) with
    | some pc => (some pc, s.fillJoin channels)
    | none =>
      runMatcherForChannels fetchMatchingContinuations fetchMatchingData (n + 1) groupedChannels
        (s.fillJoin channels)

end store

/-- The counter after a produce was logged: only produces that are not persistent are counted. -/
def countProduce (counter : Bytes → Int) (p : Produce) (persist : Bool) : Bytes → Int :=
  if persist then counter else Function.update counter p.hash (counter p.hash + 1)

namespace RSpace

variable {C P A K : Type} [DecidableEq C] [DecidableEq P] [DecidableEq K]

def logComm (st : RSpace C P A K) (comm : COMM) : RSpace C P A K :=
  { st with eventLog := st.eventLog ++ [.comm comm] }

def logConsume (st : RSpace C P A K) (c : Consume) : RSpace C P A K :=
  { st with eventLog := st.eventLog ++ [.ioEvent (.consume c)] }

def logProduce (st : RSpace C P A K) (p : Produce) (persist : Bool) : RSpace C P A K :=
  { st with
    eventLog := st.eventLog ++ [.ioEvent (.produce p)]
    produceCounter := countProduce st.produceCounter p persist }

variable (env : SpaceEnv C P A K) (sh : Shuffle C P A K)

def fetchChannelToIndexData (s : HotStore C P A K) (channel : C) : IndexedData A :=
  sh.data 0 channel (withIndex (s.storedData channel))

def lockedConsume (st : RSpace C P A K) (channels : List C) (patterns : List P) (continuation : K)
    (persist : Bool) (peeks : Finset Int) (consumeRef : Consume) :
    MaybeConsumeResult C P A K × RSpace C P A K :=
  let st := st.logConsume consumeRef
  let options :=
    extractDataCandidates env (channels.zip patterns) (fetchChannelToIndexData sh st.store)
  let store := st.store.fillData channels
  let wk : WaitingContinuation P K := ⟨patterns, continuation, persist, peeks, consumeRef⟩
  let stored := (none, { st with store := storeWaitingContinuation channels wk store })
  match options with
  | some cands =>
    if env.checkCommit continuation (matchedData cands) then
      (some (wrapResult channels wk cands),
        { st.logComm (COMM.new (sources cands) consumeRef peeks st.produceCounter) with
          store := storePersistentData cands store })
    else stored
  | none => stored

def fetchMatchingContinuations (s : HotStore C P A K) (attempt : Nat) (channels : List C) :
    List (WaitingContinuation P K × Int) :=
  sh.continuations attempt (withIndex (s.getContinuations channels).1)

def fetchMatchingData (s : HotStore C P A K) (batChannel : C) (datum : Datum A) (attempt : Nat)
    (channel : C) : IndexedData A :=
  let shuffledData := sh.data attempt channel (withIndex (s.storedData channel))
  if channel = batChannel then (datum, -1) :: shuffledData else shuffledData

def extractProduceCandidate (s : HotStore C P A K) (groupedChannels : List (List C)) (batChannel : C)
    (datum : Datum A) : Option (ProduceCandidate C P A K) × HotStore C P A K :=
  runMatcherForChannels env (fetchMatchingContinuations sh s) (fetchMatchingData sh s batChannel datum)
    0 groupedChannels s

def processMatchFound (st : RSpace C P A K) (pc : ProduceCandidate C P A K) :
    (ContResult C P K × List (RSpaceResult C A)) × RSpace C P A K :=
  let comm := COMM.new (sources pc.dataCandidates) pc.continuation.source pc.continuation.peeks
    st.produceCounter
  let store := if pc.continuation.persist then st.store
    else st.store.removeContinuation pc.channels pc.continuationIndex
  (wrapResult pc.channels pc.continuation pc.dataCandidates,
    { st.logComm comm with store := removeMatchedDatumAndJoin pc.channels pc.dataCandidates store })

/-- The end of a produce: a candidate is processed, and without one the datum is stored. -/
def finishProduce (st : RSpace C P A K) (channel : C) (datum : Datum A) :
    Option (ProduceCandidate C P A K) → MaybeProduceResult C P A K × RSpace C P A K
  | some pc =>
    let found := st.processMatchFound pc
    (some (found.1.1, found.1.2, datum.source), found.2)
  | none => (none, { st with store := st.store.putDatum channel datum })

def lockedProduce (st : RSpace C P A K) (channel : C) (data : A) (persist : Bool)
    (produceRef : Produce) : MaybeProduceResult C P A K × RSpace C P A K :=
  let joins := st.store.getJoins channel
  let st := st.logProduce produceRef persist
  let datum : Datum A := ⟨data, persist, produceRef⟩
  let extracted := extractProduceCandidate env sh joins.2 joins.1 channel datum
  { st with store := extracted.2 }.finishProduce channel datum extracted.1

def consume (st : RSpace C P A K) (channels : List C) (patterns : List P) (continuation : K)
    (persist : Bool) (peeks : Finset Int) : Except Panic (MaybeConsumeResult C P A K × RSpace C P A K) :=
  if channels = [] then .error .channelsEmpty
  else if channels.length ≠ patterns.length then .error .lengthsDiffer
  else .ok (st.lockedConsume env sh channels patterns continuation persist peeks
    (Consume.create env channels patterns continuation persist))

def produce (st : RSpace C P A K) (channel : C) (data : A) (persist : Bool) :
    MaybeProduceResult C P A K × RSpace C P A K :=
  st.lockedProduce env sh channel data persist (Produce.create env channel data persist)

def step (st : RSpace C P A K) : Op C P A K → Except Panic (MaybeConsumeResult C P A K × RSpace C P A K)
  | .consume channels patterns continuation persist peeks =>
    st.consume env sh channels patterns continuation persist peeks
  | .produce channel data persist =>
    let (result, st) := st.produce env sh channel data persist
    .ok (result.map fun r => (r.1, r.2.1), st)

def run : List (Op C P A K × Shuffle C P A K) → RSpace C P A K →
    Except Panic (List (MaybeConsumeResult C P A K) × RSpace C P A K)
  | [], st => .ok ([], st)
  | (op, sh) :: ops, st => do
    let (result, st) ← st.step env sh op
    let (results, st) ← run ops st
    return (result :: results, st)

end RSpace

end F1r3Node.Space
