import F1r3Node.Lib.KeyedSet
import F1r3Node.Space.Event

/-! # The index of an event log

What a branch did, sorted into the sets that merging compares. Produces are told apart by their
hash, consumes by all of their fields.
-/

namespace F1r3Node.Merging

open Shared Space Lib

inductive MergeType where
  | integerAdd
  | bitmaskOr
  deriving DecidableEq

/-- The diffs of the mergeable channels, by ascending channel. -/
abbrev NumberChannelsDiff := AList fun _ : Bytes => Int × MergeType

abbrev ProduceSet := KeyedSet Produce.hash

abbrev ConsumeSet := KeyedSet (id : Consume → Consume)

structure EventLogIndex where
  producesLinear : ProduceSet
  producesPersistent : ProduceSet
  producesConsumed : ProduceSet
  producesPeeked : ProduceSet
  producesCopiedByPeek : ProduceSet
  producesTouchingBaseJoins : ProduceSet
  consumesLinearAndPeeks : ConsumeSet
  consumesPersistent : ConsumeSet
  consumesProduced : ConsumeSet
  producesMergeable : ProduceSet
  consumesMergeable : ConsumeSet
  numberChannelsData : NumberChannelsDiff

namespace EventLogIndex

def produceOf : Event → Option Produce
  | .ioEvent (.produce p) => some p
  | _ => none

def consumeOf : Event → Option Consume
  | .ioEvent (.consume c) => some c
  | _ => none

def commOf : Event → Option COMM
  | .comm c => some c
  | _ => none

def new (eventLog : Log) (produceExistsInPreState produceTouchPreStateJoin : Produce → Bool)
    (mergeableChs : NumberChannelsDiff) : EventLogIndex :=
  let allProduces := eventLog.filterMap produceOf
  let allConsumes := eventLog.filterMap consumeOf
  let allComms := eventLog.filterMap commOf
  let producesLinear := KeyedSet.ofList Produce.hash (allProduces.filter fun p => !p.persistent)
  let producesPersistent := KeyedSet.ofList Produce.hash (allProduces.filter fun p => p.persistent)
  let producesConsumed := KeyedSet.ofList Produce.hash
    ((allComms.filter fun comm => comm.peeks = ∅).flatMap COMM.produces)
  let producesPeeked := KeyedSet.ofList Produce.hash
    ((allComms.filter fun comm => comm.peeks ≠ ∅).flatMap COMM.produces)
  let consumesLinearAndPeeks := KeyedSet.ofList id (allConsumes.filter fun c => !c.persistent)
  let consumesPersistent := KeyedSet.ofList id (allConsumes.filter fun c => c.persistent)
  let consumesProduced := KeyedSet.ofList id (allComms.map COMM.consume)
  { producesLinear, producesPersistent, producesConsumed, producesPeeked
    producesCopiedByPeek := .ofList Produce.hash (allProduces.filter produceExistsInPreState)
    producesTouchingBaseJoins := .ofList Produce.hash (allProduces.filter produceTouchPreStateJoin)
    consumesLinearAndPeeks, consumesPersistent, consumesProduced
    producesMergeable := (KeyedSet.ofList Produce.hash (producesLinear.items ++ producesPersistent.items ++
      producesConsumed.items ++ producesPeeked.items)).filter fun p => p.channelHash ∈ mergeableChs
    consumesMergeable := (KeyedSet.ofList id (consumesLinearAndPeeks.items ++ consumesPersistent.items ++
      consumesProduced.items)).filter fun c => c.channelHashes.any (· ∈ mergeableChs)
    numberChannelsData := mergeableChs }

def produces (e : EventLogIndex) : List Produce :=
  e.producesLinear.items ++ e.producesPersistent.items ++ e.producesConsumed.items ++
    e.producesPeeked.items ++ e.producesCopiedByPeek.items ++ e.producesTouchingBaseJoins.items ++
    e.producesMergeable.items

def consumes (e : EventLogIndex) : List Consume :=
  e.consumesLinearAndPeeks.items ++ e.consumesPersistent.items ++ e.consumesProduced.items ++
    e.consumesMergeable.items

end EventLogIndex

end F1r3Node.Merging
