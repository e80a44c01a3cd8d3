import F1r3Node.Merging.EventLogIndex

/-! # State changes

What a branch adds to the channels and removes from them. Changes of one channel are combined by the
union of multisets, after which what was added and removed cancels.
-/

namespace F1r3Node.Merging

open Shared

structure ChannelChange (A : Type) where
  added : List A
  removed : List A
  deriving DecidableEq

namespace ChannelChange

variable {A : Type} [DecidableEq A]

def vecDiff (items toRemove : List A) : List A := toRemove.foldl List.erase items

def vecUnion (left right : List A) : List A := left ++ vecDiff right left

def cancelCommon : List A → List A → List A × List A
  | [], removed => ([], removed)
  | a :: added, removed =>
    if a ∈ removed then cancelCommon added (removed.erase a)
    else
      let (addedRest, removedRest) := cancelCommon added removed
      (a :: addedRest, removedRest)

def combine (self other : ChannelChange A) : ChannelChange A :=
  let (added, removed) := cancelCommon (vecUnion self.added other.added) (vecUnion self.removed other.removed)
  ⟨added, removed⟩

end ChannelChange

structure StateChange where
  datumsChanges : AList fun _ : Bytes => ChannelChange Bytes
  contChanges : AList fun _ : List Bytes => ChannelChange Bytes
  consumeChannelsToJoinSerializedMap : AList fun _ : List Bytes => Bytes

namespace StateChange

def empty : StateChange := ⟨∅, ∅, ∅⟩

def combineChange {κ : Type} [DecidableEq κ] (changes : AList fun _ : κ => ChannelChange Bytes)
    (entry : Sigma fun _ : κ => ChannelChange Bytes) : AList fun _ : κ => ChannelChange Bytes :=
  match changes.lookup entry.1 with
  | some current => changes.insert entry.1 (current.combine entry.2)
  | none => changes.insert entry.1 entry.2

def combine (self other : StateChange) : StateChange where
  datumsChanges := other.datumsChanges.entries.foldl combineChange self.datumsChanges
  contChanges := other.contChanges.entries.foldl combineChange self.contChanges
  consumeChannelsToJoinSerializedMap := other.consumeChannelsToJoinSerializedMap.entries.foldl
    (fun joins entry => joins.insert entry.1 entry.2) self.consumeChannelsToJoinSerializedMap

end StateChange

structure Contributors (S : Type) where
  survivors : Nat
  sources : Finset S

abbrev Contributions (S : Type) := AList fun _ : Bytes => AList fun _ : Bytes => Contributors S

structure OrderDependenceGuard (S : Type) where
  added : Contributions S
  removed : Contributions S

namespace OrderDependenceGuard

variable {S : Type} [DecidableEq S]

def default : OrderDependenceGuard S := ⟨∅, ∅⟩

def addContributor (source : S) (perChannel : AList fun _ : Bytes => Contributors S) (datum : Bytes) :
    AList fun _ : Bytes => Contributors S :=
  let contributors := (perChannel.lookup datum).getD ⟨0, ∅⟩
  perChannel.insert datum ⟨contributors.survivors + 1, insert source contributors.sources⟩

def observeSide (source : S) (side : Contributions S) (channel : Bytes) (datums : List Bytes) : Contributions S :=
  side.insert channel (datums.dedup.foldl (addContributor source) ((side.lookup channel).getD ∅))

def observeChange (source : S) (order : OrderDependenceGuard S) (entry : Sigma fun _ : Bytes => ChannelChange Bytes) :
    OrderDependenceGuard S :=
  ⟨observeSide source order.added entry.1 entry.2.added, observeSide source order.removed entry.1 entry.2.removed⟩

def observe (order : OrderDependenceGuard S) (source : S) (changes : StateChange) : OrderDependenceGuard S :=
  changes.datumsChanges.entries.foldl (observeChange source) order

/-- Two sources contribute a datum, or two survivors of one source do while it is also on the
opposite side. -/
def offends (channel : Bytes) (datums : AList fun _ : Bytes => Contributors S) (opposite : Contributions S) : Bool :=
  datums.entries.any fun entry => 2 ≤ entry.2.sources.card ||
    2 ≤ entry.2.survivors && (opposite.lookup channel).any fun other => entry.1 ∈ other

/-- The lowest channel on which the fold may depend on the order; number channels are not looked at. -/
def firstOffender (order : OrderDependenceGuard S) (mergeableKeys : Finset Bytes) : Option Bytes :=
  let sides := order.added.entries.map (fun entry => (entry.1, entry.2, order.removed)) ++
    order.removed.entries.map fun entry => (entry.1, entry.2, order.added)
  ((sides.filter fun side => side.1 ∉ mergeableKeys ∧ offends side.1 side.2.1 side.2.2).map Prod.fst).min?

end OrderDependenceGuard

section survivors

variable {S : Type} [DecidableEq S]

/-- The guard after all survivors, each with its source. -/
def observeAll (survivors : List (S × StateChange)) : OrderDependenceGuard S :=
  survivors.foldl (fun order survivor => order.observe survivor.1 survivor.2) .default

def combineAll (survivors : List (S × StateChange)) : StateChange :=
  survivors.foldl (fun combined survivor => combined.combine survivor.2) .empty

end survivors

end F1r3Node.Merging
