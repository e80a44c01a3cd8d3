import F1r3Node.Merging.EventLogIndex
import Mathlib.Data.Finset.Sort

/-! # Dependencies and conflicts of event logs

The two relations between branches, as predicates on a pair of indexes and as maps that are built
from inverted indexes over all branches at once.
-/

namespace F1r3Node.Merging

open Shared Space Lib

section pairwise

variable (a b e : EventLogIndex)

def producesCreatedAndNotDestroyed : ProduceSet :=
  ((e.producesLinear.diff e.producesConsumed).union e.producesPersistent).diff e.producesCopiedByPeek

def consumesCreatedAndNotDestroyed : ConsumeSet :=
  (e.consumesLinearAndPeeks.diff e.consumesProduced).union e.consumesPersistent

/-- If target depends on source. -/
def depends (target source : EventLogIndex) : Bool :=
  let producesSource := (producesCreatedAndNotDestroyed source).diff source.producesMergeable
  let producesTarget := target.producesConsumed.diff source.producesMergeable
  let consumesSource := consumesCreatedAndNotDestroyed source
  !(producesSource.inter producesTarget).isEmpty || !(consumesSource.inter target.consumesProduced).isEmpty

def consumeRaces : ConsumeSet :=
  ((a.consumesProduced.inter b.consumesProduced).diff (a.consumesMergeable.inter b.consumesMergeable)).filter
    fun c => !c.persistent

def produceRaces : ProduceSet :=
  ((a.producesConsumed.inter b.producesConsumed).diff (a.producesMergeable.inter b.producesMergeable)).filter
    fun p => !p.persistent

def racesForSameIoEvent : Finset Bytes :=
  (((consumeRaces a b).items.flatMap Consume.channelHashes) ++
    (produceRaces a b).items.map Produce.channelHash).toFinset

def potentialComms (left right : EventLogIndex) : Finset Bytes :=
  ((producesCreatedAndNotDestroyed left).items.flatMap fun produce =>
    (consumesCreatedAndNotDestroyed right).items.filterMap fun consume =>
      if produce.channelHash ∈ consume.channelHashes then some produce.channelHash else none).toFinset

def produceTouchBaseJoin : Finset Bytes :=
  ((a.producesTouchingBaseJoins.items ++ b.producesTouchingBaseJoins.items).map Produce.channelHash).toFinset

def conflicts : Finset Bytes :=
  racesForSameIoEvent a b ∪ (potentialComms a b ∪ potentialComms b a) ∪ produceTouchBaseJoin a b

def areConflicting : Bool := conflicts a b ≠ ∅

end pairwise

/-- A map from each branch to the branches it is related to. -/
abbrev RelationMap (R : Type) := AList fun _ : R => Finset R

def pairsOf : List Nat → List (Nat × Nat)
  | [] => []
  | a :: rest => rest.map (a, ·) ++ pairsOf rest

def loHi (a b : Nat) : Nat × Nat := if a < b then (a, b) else (b, a)

/-- The races for one kind of event: every two branches that destroy the event, unless it is
persistent or mergeable in both. -/
def racePairs {α κ : Type} [DecidableEq κ] (persistent : α → Bool)
    (destroyedBy mergeableBy : InvertedIndex α κ) : List (Nat × Nat) :=
  destroyedBy.entries.flatMap fun entry =>
    if persistent entry.2.1 ∨ entry.2.2.card < 2 then []
    else (pairsOf (entry.2.2.sort (· ≤ ·))).filterMap fun (a, b) =>
      let bothMergeable := match mergeableBy.lookup entry.1 with
        | some (_, branches) => decide (a ∈ branches) && decide (b ∈ branches)
        | none => false
      if bothMergeable then none else some (loHi a b)

def meetingPairs {α β κ : Type} [DecidableEq κ] (left : InvertedIndex α κ) (right : InvertedIndex β κ) :
    List (Nat × Nat) :=
  left.entries.flatMap fun entry =>
    match right.lookup entry.1 with
    | some (_, others) => (entry.2.2.sort (· ≤ ·)).flatMap fun s =>
        (others.sort (· ≤ ·)).filterMap fun t => if s ≠ t then some (loHi s t) else none
    | none => []

def globalPairs (n : Nat) (globalBranches : List Nat) : List (Nat × Nat) :=
  globalBranches.flatMap fun g => (List.range n).filterMap fun o => if o ≠ g then some (loHi g o) else none

section maps

variable {R : Type} [DecidableEq R]

/-- `get_mut` with `insert`: only keys that are there already get a member. -/
def RelationMap.relate (result : RelationMap R) (r r' : R) : RelationMap R :=
  match result.lookup r with
  | some related => result.insert r (insert r' related)
  | none => result

def relationMap (branches : List R) (pairs : List (Nat × Nat)) : RelationMap R :=
  pairs.foldl (fun result pair =>
    match branches[pair.1]?, branches[pair.2]? with
    | some a, some b => (RelationMap.relate result a b).relate b a
    | _, _ => result)
    (branches.foldl (fun result b => result.insert b ∅) ∅)

def survivingProduces (e : EventLogIndex) : List Produce :=
  e.producesLinear.items.filter (fun p => !e.producesConsumed.contains p && !e.producesCopiedByPeek.contains p) ++
    e.producesPersistent.items.filter fun p => !e.producesCopiedByPeek.contains p

def survivingConsumes (e : EventLogIndex) : List Consume :=
  e.consumesLinearAndPeeks.items.filter (fun c => !e.consumesProduced.contains c) ++ e.consumesPersistent.items

def conflictPairs (eventLogs : List EventLogIndex) : List (Nat × Nat) :=
  let producesConsumedByBranches :=
    InvertedIndex.build Produce.hash (fun e => e.producesConsumed.items) eventLogs
  let producesMergeableByBranches :=
    InvertedIndex.build Produce.hash (fun e => e.producesMergeable.items) eventLogs
  let consumesProducedByBranches := InvertedIndex.build id (fun e => e.consumesProduced.items) eventLogs
  let consumesMergeableByBranches := InvertedIndex.build id (fun e => e.consumesMergeable.items) eventLogs
  let unconsumedProducesByChannel :=
    InvertedIndex.build id (fun e => (survivingProduces e).map Produce.channelHash) eventLogs
  let unconsumedConsumesByChannel :=
    InvertedIndex.build id (fun e => (survivingConsumes e).flatMap Consume.channelHashes) eventLogs
  let globalBranches := eventLogs.zipIdx.filterMap fun (e, idx) =>
    if e.producesTouchingBaseJoins.isEmpty then none else some idx
  racePairs Produce.persistent producesConsumedByBranches producesMergeableByBranches ++
    racePairs Consume.persistent consumesProducedByBranches consumesMergeableByBranches ++
    meetingPairs unconsumedProducesByChannel unconsumedConsumesByChannel ++
    globalPairs eventLogs.length globalBranches

/-- `none` stands for the failed assertion on the lengths. -/
def computeConflictMapEventIndexed (branches : List R) (eventLogs : List EventLogIndex) :
    Option (RelationMap R) :=
  if branches.length ≠ eventLogs.length then none
  else some (relationMap branches (if branches.length < 2 then [] else conflictPairs eventLogs))

def sourceProduces (e : EventLogIndex) : List Produce :=
  e.producesLinear.items.filter (fun p => !e.producesConsumed.contains p && !e.producesCopiedByPeek.contains p &&
      !e.producesMergeable.contains p) ++
    e.producesPersistent.items.filter fun p => !e.producesCopiedByPeek.contains p && !e.producesMergeable.contains p

def dependsPairs (eventLogs : List EventLogIndex) : List (Nat × Nat) :=
  let produceSourceBranches := InvertedIndex.build Produce.hash sourceProduces eventLogs
  let produceTargetBranches := InvertedIndex.build Produce.hash (fun e => e.producesConsumed.items) eventLogs
  let consumeSourceBranches := InvertedIndex.build id survivingConsumes eventLogs
  let consumeTargetBranches := InvertedIndex.build id (fun e => e.consumesProduced.items) eventLogs
  meetingPairs produceSourceBranches produceTargetBranches ++
    meetingPairs consumeSourceBranches consumeTargetBranches

def computeDependsMapEventIndexed (branches : List R) (eventLogs : List EventLogIndex) :
    Option (RelationMap R) :=
  if branches.length ≠ eventLogs.length then none
  else some (relationMap branches (if branches.length < 2 then [] else dependsPairs eventLogs))

end maps

end F1r3Node.Merging
