import F1r3Node.Lib.KeyedWrites
import F1r3Node.Merging.MergedState

/-! # The changes of a block

A state change is read off the states before and after a log, at the channels the log affects.
-/

namespace F1r3Node.Merging

open Shared Space Lib

section affected

variable (e : EventLogIndex)

def producesCreated : ProduceSet :=
  (e.producesLinear.union e.producesPersistent).diff e.producesCopiedByPeek

def consumesCreated : ConsumeSet := e.consumesLinearAndPeeks.union e.consumesPersistent

/-- Produces created and left by the log, and those it destroyed of the ones before it. -/
def producesAffected : ProduceSet :=
  let externalProducesDestroyed := (e.producesConsumed.diff (producesCreated e)).filter fun p => !p.persistent
  (producesCreatedAndNotDestroyed e).union externalProducesDestroyed

def consumesAffected : ConsumeSet :=
  let externalConsumesDestroyed := (e.consumesProduced.diff (consumesCreated e)).filter fun c => !c.persistent
  (consumesCreatedAndNotDestroyed e).union externalConsumesDestroyed

theorem mem_consumes_of_affected {consume : Consume} (h : consume ∈ (consumesAffected e).items) :
    consume ∈ e.consumes := by
  rw [EventLogIndex.consumes]
  simp only [List.mem_append]
  rcases KeyedSet.union_subset h with hLeft | hDestroyed
  · rcases KeyedSet.union_subset hLeft with hLinear | hPersistent
    · exact Or.inl (Or.inl (Or.inl (KeyedSet.mem_diff.mp hLinear).1))
    · exact Or.inl (Or.inl (Or.inr hPersistent))
  · exact Or.inl (Or.inr (KeyedSet.mem_diff.mp (KeyedSet.mem_filter.mp hDestroyed).1).1)

end affected

/-- Channels with their hash, and joins as the history stores them. -/
structure JoinCodec (C : Type) where
  hash : C → Bytes
  serialize : List C → Bytes
  deserialize : Bytes → Option (List C)
  deserialize_serialize (join : List C) : deserialize (serialize join) = some join

section joins

variable {C : Type} (codec : JoinCodec C)

def JoinCodec.joinChannels (join : List C) : List Bytes := sortByKey id (join.map codec.hash)

def JoinCodec.recordKey (rawJoin : Bytes) : Option (List Bytes) := (codec.deserialize rawJoin).map codec.joinChannels

@[simp] theorem JoinCodec.recordKey_serialize (join : List C) :
    codec.recordKey (codec.serialize join) = some (codec.joinChannels join) := by
  rw [recordKey, codec.deserialize_serialize, Option.map_some]

end joins

structure HistoryReader (C : Type) where
  getDataProjBinary : Bytes → Except HistoryError (List Bytes)
  getContinuationsProjBinary : Bytes → Except HistoryError (List Bytes)
  getJoins : Bytes → Except HistoryError (List (List C))

inductive StateChangeFailure where
  | history (error : HistoryError)
  | panicked (message : String)

namespace StateChange

def computeValueChange (historyPointer : Bytes) (startValue endValue : Bytes → Except HistoryError (List Bytes)) :
    Except StateChangeFailure (ChannelChange Bytes) :=
  Except.mapError .history do
    let start ← startValue historyPointer
    let finish ← endValue historyPointer
    return ⟨multisetDiff finish start, multisetDiff start finish⟩

def retained {κ : Type} (changes : List (Sigma fun _ : κ => ChannelChange Bytes)) :
    List (Sigma fun _ : κ => ChannelChange Bytes) :=
  changes.filter fun entry => !(entry.2.added.isEmpty && entry.2.removed.isEmpty)

section new

variable {C : Type} (blake : Blake2b256) (codec : JoinCodec C) (preStateReader postStateReader : HistoryReader C)

/-- The first join of the channels, among those before the log and then those after it. -/
def findJoin (consumeChannels : List Bytes) : Except StateChangeFailure (Sigma fun _ : List Bytes => Bytes) :=
  match consumeChannels with
  | [] => .error (.panicked "index out of bounds: the len is 0 but the index is 0")
  | historyPointer :: _ => do
    let pre ← (preStateReader.getJoins historyPointer).mapError .history
    let post ← (postStateReader.getJoins historyPointer).mapError .history
    let sorted := sortByKey id consumeChannels
    match (pre ++ post).find? fun join => sorted == codec.joinChannels join with
    | some join => return ⟨sorted, codec.serialize join⟩
    | none => .error (.panicked ("Tuple space inconsistency found: channel of consume does not contain " ++
        "join record corresponding to the consume channels."))

def new (eventLogIndex : EventLogIndex) : Except StateChangeFailure StateChange := do
  let uniqueProduceChannels := ((producesAffected eventLogIndex).items.map Produce.channelHash).dedup
  let uniqueConsumeChannels := ((consumesAffected eventLogIndex).items.map Consume.channelHashes).dedup
  let datumsDiff ← uniqueProduceChannels.mapM fun historyPointer => do
    let change ← computeValueChange historyPointer preStateReader.getDataProjBinary postStateReader.getDataProjBinary
    return (⟨historyPointer, change⟩ : Sigma fun _ : Bytes => ChannelChange Bytes)
  let contDiff ← uniqueConsumeChannels.mapM fun consumeChannels => do
    let change ← computeValueChange (hashFromHashes blake consumeChannels) preStateReader.getContinuationsProjBinary
      postStateReader.getContinuationsProjBinary
    return (⟨consumeChannels, change⟩ : Sigma fun _ : List Bytes => ChannelChange Bytes)
  let joins ← uniqueConsumeChannels.mapM (findJoin codec preStateReader postStateReader)
  return {
    datumsChanges := (retained datumsDiff).toAList
    contChanges := (retained contDiff).toAList
    consumeChannelsToJoinSerializedMap := joins.toAList }

theorem findJoin_eq_ok {consumeChannels : List Bytes} {entry : Sigma fun _ : List Bytes => Bytes}
    (h : findJoin codec preStateReader postStateReader consumeChannels = .ok entry) :
    entry.1 = sortByKey id consumeChannels ∧ codec.recordKey entry.2 = some entry.1 := by
  cases consumeChannels with
  | nil => cases h
  | cons historyPointer rest =>
    obtain ⟨pre, -, h⟩ := exists_of_bind_ok h
    obtain ⟨post, -, h⟩ := exists_of_bind_ok h
    dsimp only at h
    cases hFind : (pre ++ post).find? fun join =>
        sortByKey id (historyPointer :: rest) == codec.joinChannels join with
    | none =>
      rw [hFind] at h
      cases h
    | some join =>
      rw [hFind] at h
      obtain rfl := Except.ok.inj h
      refine ⟨rfl, ?_⟩
      have hSame := List.find?_some hFind
      rw [codec.recordKey_serialize, ← beq_iff_eq.mp hSame]

end new

end StateChange

section recordsJoins

variable {C : Type} {codec : JoinCodec C}

/-- Every join whose continuations change comes with its serialized form. -/
structure RecordsJoins (codec : JoinCodec C) (change : StateChange) : Prop where
  recorded : ∀ consumeChannels ∈ change.contChanges, consumeChannels ∈ change.consumeChannelsToJoinSerializedMap
  recordKey : ∀ consumeChannels rawJoin, change.consumeChannelsToJoinSerializedMap.lookup consumeChannels = some rawJoin →
    codec.recordKey rawJoin = some consumeChannels

variable {change : StateChange}

theorem RecordsJoins.exists_record (h : RecordsJoins codec change) {consumeChannels : List Bytes}
    (hMem : consumeChannels ∈ change.contChanges) :
    ∃ rawJoin, change.consumeChannelsToJoinSerializedMap.lookup consumeChannels = some rawJoin ∧
      codec.recordKey rawJoin = some consumeChannels := by
  obtain ⟨rawJoin, hLookup⟩ := Option.isSome_iff_exists.mp (AList.lookup_isSome.mpr (h.recorded _ hMem))
  exact ⟨rawJoin, hLookup, h.recordKey _ _ hLookup⟩

theorem recordsJoins_empty : RecordsJoins codec .empty where
  recorded := fun _ h => absurd h (AList.notMem_empty _)
  recordKey := by
    intro consumeChannels rawJoin h
    simp [StateChange.empty] at h

theorem recordsJoins_new {blake : Blake2b256} {preStateReader postStateReader : HistoryReader C} {e : EventLogIndex}
    (h : StateChange.new blake codec preStateReader postStateReader e = .ok change)
    (hSorted : ∀ consume ∈ e.consumes, sortByKey id consume.channelHashes = consume.channelHashes) : RecordsJoins codec change := by
  obtain ⟨datumsDiff, -, h⟩ := exists_of_bind_ok h
  obtain ⟨contDiff, hCont, h⟩ := exists_of_bind_ok h
  obtain ⟨joins, hJoins, h⟩ := exists_of_bind_ok h
  obtain rfl := Except.ok.inj h
  constructor
  · intro consumeChannels hMem
    have hKeys : consumeChannels ∈ (StateChange.retained contDiff).keys := List.dlookup_isSome.mp (by
      rw [← AList.lookup_to_alist]
      exact AList.lookup_isSome.mpr hMem)
    obtain ⟨entry, hEntry, rfl⟩ := List.mem_map.mp hKeys
    obtain ⟨ks, hks, hChange⟩ := (mem_of_mapM_ok hCont entry).mp (List.mem_of_mem_filter hEntry)
    obtain ⟨change, -, hChange⟩ := exists_of_bind_ok hChange
    obtain rfl := Except.ok.inj hChange
    obtain ⟨join, hJoin, hFind⟩ := exists_of_mapM_ok hJoins hks
    obtain ⟨consume, hConsume, rfl⟩ := List.mem_map.mp (List.mem_dedup.mp hks)
    have hKey : join.1 = consume.channelHashes :=
      (StateChange.findJoin_eq_ok _ _ _ hFind).1.trans
        (hSorted consume (mem_consumes_of_affected e hConsume))
    dsimp only
    rw [← hKey, ← AList.lookup_isSome, AList.lookup_to_alist]
    exact List.dlookup_isSome.mpr (List.mem_map_of_mem hJoin)
  · intro consumeChannels rawJoin hLookup
    rw [AList.lookup_to_alist] at hLookup
    obtain ⟨ks, -, hFind⟩ := (mem_of_mapM_ok hJoins ⟨consumeChannels, rawJoin⟩).mp (List.of_mem_dlookup hLookup)
    exact (StateChange.findJoin_eq_ok _ _ _ hFind).2

variable {κ : Type}

theorem mem_foldl_combineChange [DecidableEq κ] (entries : List (Sigma fun _ : κ => ChannelChange Bytes))
    (changes : AList fun _ : κ => ChannelChange Bytes) (k : κ) :
    k ∈ entries.foldl StateChange.combineChange changes ↔ k ∈ changes ∨ k ∈ entries.keys := by
  induction entries generalizing changes with
  | nil => simp
  | cons entry entries ih =>
    have hStep : k ∈ StateChange.combineChange changes entry ↔ k = entry.1 ∨ k ∈ changes := by
      rw [StateChange.combineChange]
      split <;> exact AList.mem_insert _
    rw [List.foldl_cons, ih, hStep, List.keys_cons, List.mem_cons]
    tauto

theorem mem_of_lookup_foldl_insert [DecidableEq κ] {ν : Type} (entries : List (Sigma fun _ : κ => ν))
    (joins : AList fun _ : κ => ν) (k : κ) (v : ν)
    (h : (entries.foldl (fun joins entry => joins.insert entry.1 entry.2) joins).lookup k = some v) :
    joins.lookup k = some v ∨ ⟨k, v⟩ ∈ entries := by
  induction entries generalizing joins with
  | nil => exact Or.inl h
  | cons entry entries ih =>
    rcases ih _ h with hHead | hTail
    · obtain rfl | hNe := eq_or_ne k entry.1
      · rw [AList.lookup_insert] at hHead
        obtain rfl := Option.some.inj hHead
        exact Or.inr List.mem_cons_self
      · rw [AList.lookup_insert_ne hNe] at hHead
        exact Or.inl hHead
    · exact Or.inr (List.mem_cons_of_mem _ hTail)

theorem mem_foldl_insert [DecidableEq κ] {ν : Type} (entries : List (Sigma fun _ : κ => ν))
    (joins : AList fun _ : κ => ν) (k : κ) :
    k ∈ entries.foldl (fun joins entry => joins.insert entry.1 entry.2) joins ↔ k ∈ joins ∨ k ∈ entries.keys := by
  induction entries generalizing joins with
  | nil => simp
  | cons entry entries ih =>
    rw [List.foldl_cons, ih, AList.mem_insert, List.keys_cons, List.mem_cons]
    tauto

theorem RecordsJoins.combine {other : StateChange} (h : RecordsJoins codec change)
    (hOther : RecordsJoins codec other) : RecordsJoins codec (change.combine other) := by
  constructor
  · intro consumeChannels hMem
    refine (mem_foldl_insert _ _ _).mpr ?_
    rcases (mem_foldl_combineChange _ _ _).mp hMem with hLeft | hRight
    · exact Or.inl (h.recorded _ hLeft)
    · exact Or.inr (hOther.recorded _ hRight)
  · intro consumeChannels rawJoin hLookup
    rcases mem_of_lookup_foldl_insert _ _ _ _ hLookup with hLeft | hRight
    · exact h.recordKey _ _ hLeft
    · exact hOther.recordKey _ _ (AList.mem_lookup_iff.mpr hRight)

/-- The changes of the logs of any blocks, combined one after the other. The channel hashes of a consume
are in ascending order, as `Consume.create` makes them. -/
inductive FromLogs (blake : Blake2b256) (codec : JoinCodec C) : StateChange → Prop
  | empty : FromLogs blake codec .empty
  | combine {change block : StateChange} (preStateReader postStateReader : HistoryReader C) (e : EventLogIndex) :
    FromLogs blake codec change → (∀ consume ∈ e.consumes, sortByKey id consume.channelHashes = consume.channelHashes) →
    StateChange.new blake codec preStateReader postStateReader e = .ok block →
    FromLogs blake codec (change.combine block)

theorem FromLogs.recordsJoins {blake : Blake2b256} (h : FromLogs blake codec change) :
    RecordsJoins codec change := by
  induction h with
  | empty => exact recordsJoins_empty
  | combine preStateReader postStateReader e _ hSorted hNew ih => exact ih.combine (recordsJoins_new hNew hSorted)

end recordsJoins

end F1r3Node.Merging
