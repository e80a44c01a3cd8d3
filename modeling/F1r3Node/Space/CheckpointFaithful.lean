import F1r3Node.History.HistoryIndependence
import F1r3Node.Space.HistoryRepository
import F1r3Node.Space.MatchedData
import Mathlib.Logic.Equiv.Finset
import Mathlib.Tactic.DeriveEncodable

/-! # What a checkpoint keeps of the joins

The hot store keys the waiting continuations by the ordered list of their channels, the history by the hash of the
sorted channel hashes.
-/

namespace F1r3Node.Space

open Shared History HotStore

variable {C P A K : Type}

section conditions

variable (env : RepositoryEnv C P A K) (s : HotStore C P A K)

def storageActions : List (ColdAction × HistoryAction) :=
  (s.changes.map (transform env)).map (calculateStorageActions env)

def historyActions : List HistoryAction := (storageActions env s).map Prod.snd

/-- The digest has no collision among what one checkpoint hashes, and no two kinds of leaves have
the same bytes. -/
structure NoCollision : Prop where
  continuations : ∀ cs ∈ s.continuations.keys, ∀ cs' ∈ s.continuations.keys,
    env.space.hashFromVec cs = env.space.hashFromVec cs' → cs.Perm cs'
  data : ∀ c ∈ s.data.keys, ∀ c' ∈ s.data.keys, env.space.hash c = env.space.hash c' → c = c'
  joins : ∀ c ∈ s.joins.keys, ∀ c' ∈ s.joins.keys, env.space.hash c = env.space.hash c' → c = c'
  leaves : ∀ a ∈ coldLeaves (storageActions env s), ∀ b ∈ coldLeaves (storageActions env s),
    a.1 = b.1 → a.2 = b.2
  nodes : Set.InjOn env.tree.ptr (runNodes env.tree 33 [historyActions env s])

/-- The digest tells the list from the lists of the store, unless it is another order of one. -/
def Distinguished (channels : List C) : Prop :=
  ∀ cs ∈ s.continuations.keys, env.space.hashFromVec channels = env.space.hashFromVec cs → channels.Perm cs

end conditions

variable {env : RepositoryEnv C P A K} {s : HotStore C P A K}

theorem perm_hashVec {channels channels' : List C} (h : channels.Perm channels') :
    env.space.hashVec channels = env.space.hashVec channels' := by
  have : Std.Total fun a b : Bytes => a ≤ b := ⟨le_total⟩
  have : IsTrans Bytes fun a b => a ≤ b := ⟨fun _ _ _ => le_trans⟩
  have : Std.Antisymm fun a b : Bytes => a ≤ b := ⟨fun _ _ => le_antisymm⟩
  unfold SpaceEnv.hashVec
  refine List.Perm.eq_of_pairwise' (List.pairwise_insertionSort _ _) (List.pairwise_insertionSort _ _) ?_
  exact ((List.perm_insertionSort _ _).trans (h.map _)).trans (List.perm_insertionSort _ _).symm

theorem hashFromVec_of_perm {channels channels' : List C} (h : channels.Perm channels') :
    env.space.hashFromVec channels = env.space.hashFromVec channels' := by
  rw [SpaceEnv.hashFromVec, SpaceEnv.hashFromVec, perm_hashVec h]

def actionOf (env : RepositoryEnv C P A K) (action : HotStoreAction C P A K) : ColdAction × HistoryAction :=
  calculateStorageActions env (transform env action)

def kontKey (env : RepositoryEnv C P A K) (channels : List C) : Bytes :=
  prependBytes prefixKont (env.space.hashFromVec channels)

def datumKey (env : RepositoryEnv C P A K) (channel : C) : Bytes :=
  prependBytes prefixDatum (env.space.hash channel)

def joinsKey (env : RepositoryEnv C P A K) (channel : C) : Bytes :=
  prependBytes prefixJoins (env.space.hash channel)

variable {α : Type}

theorem keys_of_entries {β : Type} (m : ShardedMap α (List β)) (key : α → Bytes)
    {insert : α → List β → HotStoreAction C P A K} {delete : α → HotStoreAction C P A K}
    (hInsert : ∀ a l, (actionOf env (insert a l)).2.key = key a)
    (hDelete : ∀ a, (actionOf env (delete a)).2.key = key a) :
    (m.entries.map (entryAction insert delete)).map (fun action => (actionOf env action).2.key) =
      m.keys.map key := by
  change _ = (m.entries.map Sigma.fst).map key
  rw [List.map_map, List.map_map]
  refine List.map_congr_left fun entry _ => ?_
  change (actionOf env (entryAction insert delete entry)).2.key = key entry.1
  unfold entryAction
  split_ifs
  · exact hDelete entry.1
  · exact hInsert entry.1 entry.2

theorem keys_historyActions (env : RepositoryEnv C P A K) (s : HotStore C P A K) :
    (historyActions env s).map HistoryAction.key =
      s.continuations.keys.map (kontKey env) ++ s.data.keys.map (datumKey env) ++
        s.joins.keys.map (joinsKey env) := by
  have hAll : (historyActions env s).map HistoryAction.key =
      s.changes.map fun action => (actionOf env action).2.key := by
    rw [historyActions, storageActions, List.map_map, List.map_map, List.map_map]
    rfl
  rw [hAll, changes, List.map_append, List.map_append,
    keys_of_entries s.continuations (kontKey env) (fun _ _ => rfl) fun _ => rfl,
    keys_of_entries s.data (datumKey env) (fun _ _ => rfl) fun _ => rfl,
    keys_of_entries s.joins (joinsKey env) (fun _ _ => rfl) fun _ => rfl]

theorem length_hashFromVec (channels : List C) : (env.space.hashFromVec channels).length = 32 :=
  env.space.blake.length_hash _

theorem length_key {a : HistoryAction} (ha : a ∈ historyActions env s) : a.key.length = 33 := by
  have hKey := List.mem_map_of_mem (f := HistoryAction.key) ha
  rw [keys_historyActions] at hKey
  simp only [List.mem_append, List.mem_map] at hKey
  obtain (⟨cs, -, hEq⟩ | ⟨c, -, hEq⟩) | ⟨c, -, hEq⟩ := hKey
  all_goals
    rw [← hEq]
    exact congrArg Nat.succ (env.space.blake.length_hash _)

theorem nodup_keys_iff (h : NoCollision env s) :
    ((historyActions env s).map HistoryAction.key).Nodup ↔
      ∀ cs ∈ s.continuations.keys, ∀ cs' ∈ s.continuations.keys, cs.Perm cs' → cs = cs' := by
  have hKont : (s.continuations.keys.map (kontKey env)).Nodup ↔
      ∀ cs ∈ s.continuations.keys, ∀ cs' ∈ s.continuations.keys, cs.Perm cs' → cs = cs' := by
    rw [List.nodup_map_iff_inj_on s.continuations.keys_nodup]
    refine forall₂_congr fun cs hcs => forall₂_congr fun cs' hcs' => ?_
    refine imp_congr ⟨fun hKey => ?_, fun hPerm => ?_⟩ Iff.rfl
    · exact h.continuations cs hcs cs' hcs' (List.cons.inj hKey).2
    · exact congrArg (prependBytes prefixKont) (hashFromVec_of_perm hPerm)
  rw [keys_historyActions, List.nodup_append, List.nodup_append, hKont]
  constructor
  · exact fun hAll => hAll.1.1
  · intro hSeparate
    refine ⟨⟨hSeparate, ?_, ?_⟩, ?_, ?_⟩
    · exact List.Nodup.map_on (fun c hc c' hc' hKey => h.data c hc c' hc' (List.cons.inj hKey).2)
        s.data.keys_nodup
    · intro a ha b hb
      obtain ⟨cs, -, rfl⟩ := List.mem_map.mp ha
      obtain ⟨c, -, rfl⟩ := List.mem_map.mp hb
      exact fun hKey => absurd (List.cons.inj hKey).1 (by decide)
    · exact List.Nodup.map_on (fun c hc c' hc' hKey => h.joins c hc c' hc' (List.cons.inj hKey).2)
        s.joins.keys_nodup
    · intro a ha b hb
      obtain ⟨c, -, rfl⟩ := List.mem_map.mp hb
      rcases List.mem_append.mp ha with ha | ha
      · obtain ⟨cs, -, rfl⟩ := List.mem_map.mp ha
        exact fun hKey => absurd (List.cons.inj hKey).1 (by decide)
      · obtain ⟨c', -, rfl⟩ := List.mem_map.mp ha
        exact fun hKey => absurd (List.cons.inj hKey).1 (by decide)

def leafRecords (env : RepositoryEnv C P A K) (s : HotStore C P A K) : List (Bytes × Bytes) :=
  (coldLeaves (storageActions env s)).map fun leaf => (serializeHash leaf.1, env.persisted.encode leaf.2)

theorem serializeHash_injective {hash hash' : Bytes} (h : serializeHash hash = serializeHash hash') :
    hash = hash' :=
  (List.append_inj h (by simp)).2

theorem length_of_coldLeaf {leaf : Bytes × PersistedData} (hLeaf : leaf ∈ coldLeaves (storageActions env s)) :
    leaf.1.length = 32 := by
  obtain ⟨action, hAction, hEq⟩ := List.mem_filterMap.mp hLeaf
  obtain ⟨data, hData, rfl⟩ := Option.map_eq_some_iff.mp hEq
  obtain ⟨trie, -, rfl⟩ := List.mem_map.mp hAction
  cases trie with
  | trieInsertProduce | trieInsertJoins | trieInsertConsume => exact env.space.blake.length_hash _
  | trieDeleteProduce | trieDeleteJoins | trieDeleteConsume => cases hData

theorem coldLeaves_single (env : RepositoryEnv C P A K) (cs : List C) (ws : List (WaitingContinuation P K))
    (c : C) (joins : List (List C)) :
    coldLeaves [actionOf env (.insertContinuations cs ws), actionOf env (.deleteData c),
        actionOf env (.insertJoins c joins)] =
      [((env.hash (serializeLeaf (encodeSorted env env.continuation ws))).1,
          .continuations (encodeSorted env env.continuation ws)),
        ((env.hash (serializeLeaf (encodeSorted env env.join joins))).1,
          .joins (encodeSorted env env.join joins))] := rfl

theorem putIfAbsent_empty (records : List (Bytes × Bytes)) :
    putIfAbsent (fun _ => none) records = putAll (fun _ => none) records := by
  unfold putIfAbsent
  congr 1
  exact List.filter_eq_self.mpr fun _ _ => rfl

theorem lookup_leaf (h : NoCollision env s) {leaf : Bytes × PersistedData}
    (hLeaf : leaf ∈ coldLeaves (storageActions env s)) :
    putIfAbsent (fun _ => none) (leafRecords env s) leaf.1 = none ∧
    putIfAbsent (fun _ => none) (leafRecords env s) (serializeHash leaf.1) =
      some (env.persisted.encode leaf.2) := by
  rw [putIfAbsent_empty]
  constructor
  · apply putAll_of_not_mem
    intro hMem
    obtain ⟨record, hRecord, hKey⟩ := List.mem_map.mp hMem
    obtain ⟨leaf', hLeaf', rfl⟩ := List.mem_map.mp hRecord
    have hLength := congrArg List.length hKey
    simp only [serializeHash, List.length_append, length_toLeBytes, length_of_coldLeaf hLeaf,
      length_of_coldLeaf hLeaf'] at hLength
    omega
  · refine putAll_of_mem (List.mem_map.mpr ⟨leaf, hLeaf, rfl⟩) (fun bytes hBytes => ?_) _
    obtain ⟨leaf', hLeaf', hEq⟩ := List.mem_map.mp hBytes
    obtain ⟨hKey, rfl⟩ := Prod.mk.inj hEq
    rw [h.leaves leaf' hLeaf' leaf hLeaf (serializeHash_injective hKey)]

theorem mapM_eq_filterMap {β : Type} {f : α → Option β} {l : List α} (h : ∀ a ∈ l, (f a).isSome) :
    l.mapM f = some (l.filterMap f) := by
  induction l with
  | nil => rfl
  | cons a l ih =>
    obtain ⟨hHead, hTail⟩ := List.forall_mem_cons.mp h
    obtain ⟨b, hb⟩ := Option.isSome_iff_exists.mp hHead
    rw [List.mapM_cons, hb, ih hTail, List.filterMap_cons, hb]
    rfl

theorem decodeAll_encodeSorted (codec : Codec α) (items : List α) :
    ∃ decoded, decodeAll env codec (encodeSorted env codec items) = some decoded ∧ decoded.Perm items := by
  have hPerm := List.perm_insertionSort (· ≤ ·) (items.map codec.encode)
  have hDecoded : (items.map codec.encode).filterMap codec.decode = items := by
    rw [List.filterMap_map]
    exact (List.filterMap_congr fun a _ => codec.decode_encode a).trans List.filterMap_some
  refine ⟨((items.map codec.encode).insertionSort (· ≤ ·)).filterMap codec.decode, ?_, ?_⟩
  · rw [decodeAll, encodeSorted, env.vec.decode_encode, Option.bind_some]
    apply mapM_eq_filterMap
    intro bytes hMem
    obtain ⟨a, -, rfl⟩ := List.mem_map.mp (hPerm.subset hMem)
    rw [codec.decode_encode]
    rfl
  · exact (hPerm.filterMap _).trans (List.Perm.of_eq hDecoded)

variable {st : RSpace C P A K}

theorem createCheckpoint_spec (h : NoCollision env st.store)
    (hNodup : ((historyActions env st.store).map HistoryAction.key).Nodup) :
    ∃ repo next reader, HistoryRepository.empty env = .ok repo ∧
      createCheckpoint env repo st = .ok (next, reader) ∧
      reader.leafStore = putIfAbsent (fun _ => none) (leafRecords env st.store) ∧
      ∀ key : Bytes, key.length = 33 → reader.targetHistory.read env.tree key =
        .ok (emptyMap.applyAll (historyActions env st.store) key) := by
  have hS := collisionFree_runNodes (by decide) h.nodes
  have hEmptyMem : emptyNode ∈ runNodes env.tree 33 [historyActions env st.store] :=
    emptyNode_mem_runNodes 33 [historyActions env st.store]
  have hConsistent : StoreConsistent env.tree (fun _ => none)
      (runNodes env.tree 33 [historyActions env st.store]) := fun _ _ _ hb => by cases hb
  obtain ⟨h₀, hCreate, hRep₀⟩ := create_spec hS hEmptyMem hConsistent 33
  have hRepo : HistoryRepository.empty env = .ok ⟨h₀, fun _ => none⟩ := by
    rw [HistoryRepository.empty, hCreate]
    rfl
  have hOld : treeNodes env.tree 33 emptyMap ⊆ runNodes env.tree 33 [historyActions env st.store] :=
    fun x hx => ⟨[], List.nil_prefix, hx⟩
  have hNew : treeNodes env.tree 33 (emptyMap.applyAll (historyActions env st.store)) ⊆
      runNodes env.tree 33 [historyActions env st.store] :=
    fun x hx => ⟨[historyActions env st.store], List.prefix_rfl, hx⟩
  -- the history that the checkpoint leaves, with or without changes
  obtain ⟨next, hNext, hLeaves, hRep⟩ : ∃ next,
      HistoryRepository.checkpoint env ⟨h₀, fun _ => none⟩ st.store.changes = .ok next ∧
      next.leafStore = putIfAbsent (fun _ => none) (leafRecords env st.store) ∧
      Represents env.tree (runNodes env.tree 33 [historyActions env st.store]) 33 next.currentHistory
        (emptyMap.applyAll (historyActions env st.store)) := by
    by_cases hChanges : st.store.changes = []
    · have hActions : storageActions env st.store = [] := by
        rw [storageActions, hChanges]
        rfl
      have hMap : emptyMap.applyAll (historyActions env st.store) = emptyMap := by
        rw [historyActions, hActions]
        rfl
      refine ⟨⟨h₀, fun _ => none⟩, ?_, ?_, ?_⟩
      · rw [HistoryRepository.checkpoint, if_pos hChanges]
      · rw [leafRecords, hActions]
        rfl
      · rw [hMap]
        exact hRep₀
    · have hNe : historyActions env st.store ≠ [] := by
        simpa [historyActions, storageActions] using hChanges
      obtain ⟨h₁, hProcess, hRep₁⟩ := hRep₀.process hS ⟨hNodup, fun a ha => length_key ha⟩ hNe hOld hNew
      refine ⟨⟨h₁, putIfAbsent (fun _ => none) (leafRecords env st.store)⟩, ?_, rfl, hRep₁⟩
      rw [HistoryRepository.checkpoint, if_neg hChanges, HistoryRepository.doCheckpoint,
        if_neg (by simpa using hChanges)]
      change (h₀.process env.tree (historyActions env st.store) >>= _) = _
      rw [hProcess]
      rfl
  have hRoot : next.currentHistory.rootNode ∈ runNodes env.tree 33 [historyActions env st.store] := by
    rw [hRep.rootNode]
    exact hNew (.inl rfl)
  obtain ⟨h₂, hReset, hRep₂⟩ := hRep.reset hS hRoot
  refine ⟨_, next, ⟨h₂, next.leafStore⟩, hRepo, ?_, hLeaves, fun key hKey => ?_⟩
  · rw [createCheckpoint, hNext]
    change (next.getHistoryReader env next.currentHistory.rootHash >>= _) = _
    rw [HistoryRepository.getHistoryReader, hReset]
    rfl
  · exact hRep₂.read hS (Set.subset_union_right.trans hNew) hKey

theorem createCheckpoint_error
    (hDuplicate : ¬ ((historyActions env st.store).map HistoryAction.key).Nodup) (repo : HistoryRepository) :
    createCheckpoint env repo st = .error (.actionError "Cannot process duplicate actions on one key.") := by
  have hChanges : st.store.changes ≠ [] := by
    intro hNil
    apply hDuplicate
    rw [historyActions, storageActions, hNil]
    exact List.nodup_nil
  have hStage : repo.currentHistory.process env.tree (historyActions env st.store) =
      .error (.actionError "Cannot process duplicate actions on one key.") := by
    rw [RadixHistory.process, RadixHistory.stage, if_pos (by rwa [hasNoDuplicates_iff])]
    rfl
  have hCheckpoint : repo.checkpoint env st.store.changes =
      .error (.actionError "Cannot process duplicate actions on one key.") := by
    rw [HistoryRepository.checkpoint, if_neg hChanges, HistoryRepository.doCheckpoint,
      if_neg (by simpa using hChanges)]
    change (repo.currentHistory.process env.tree (historyActions env st.store) >>= _) = _
    rw [hStage]
    rfl
  rw [createCheckpoint, hCheckpoint]
  rfl

theorem mem_storageActions_of_entry {cs : List C} {ws : List (WaitingContinuation P K)}
    (hEntry : ⟨cs, ws⟩ ∈ s.continuations.entries) :
    actionOf env (entryAction .insertContinuations .deleteContinuations ⟨cs, ws⟩) ∈ storageActions env s := by
  rw [storageActions, List.map_map]
  refine List.mem_map.mpr ⟨_, ?_, rfl⟩
  exact List.mem_append_left _ (List.mem_append_left _ (List.mem_map.mpr ⟨_, hEntry, rfl⟩))

section reader

variable {reader : RSpaceHistoryReader}
  (hLeaves : reader.leafStore = putIfAbsent (fun _ => none) (leafRecords env s))
  (hRead : ∀ key : Bytes, key.length = 33 → reader.targetHistory.read env.tree key =
    .ok (emptyMap.applyAll (historyActions env s) key))

include hRead in
theorem getContinuations_of_absent {channels : List C}
    (hAbsent : kontKey env channels ∉ (historyActions env s).map HistoryAction.key) :
    reader.getContinuations env channels = .ok [] := by
  have hKey : (kontKey env channels).length = 33 := congrArg Nat.succ (length_hashFromVec channels)
  have hNone : emptyMap.applyAll (historyActions env s) (kontKey env channels) = none :=
    KeyMap.applyAll_of_not_mem _ fun a ha hEq => hAbsent (List.mem_map.mpr ⟨a, ha, hEq⟩)
  have hFetch : reader.fetchData env prefixKont (env.space.hashFromVec channels) = .ok none := by
    have hRead' := hRead _ hKey
    rw [hNone] at hRead'
    rw [RSpaceHistoryReader.fetchData, ← kontKey, hRead']
    rfl
  rw [RSpaceHistoryReader.getContinuations, RSpaceHistoryReader.getContinuationsProj, hFetch]
  rfl

include hLeaves hRead in
theorem getContinuations_of_entry (h : NoCollision env s)
    (hNodup : ((historyActions env s).map HistoryAction.key).Nodup) {channels cs : List C}
    (hPerm : channels.Perm cs) {ws : List (WaitingContinuation P K)}
    (hEntry : ⟨cs, ws⟩ ∈ s.continuations.entries) :
    ∃ read, reader.getContinuations env channels = .ok read ∧ read.Perm ws := by
  have hAction : actionOf env (entryAction .insertContinuations .deleteContinuations ⟨cs, ws⟩) ∈
      storageActions env s := mem_storageActions_of_entry hEntry
  have hKey : (kontKey env cs).length = 33 := congrArg Nat.succ (length_hashFromVec cs)
  have hSame : kontKey env channels = kontKey env cs := by
    rw [kontKey, kontKey, hashFromVec_of_perm hPerm]
  have hRead' := hRead _ hKey
  by_cases hNil : ws = []
  · have hDelete : actionOf env (entryAction .insertContinuations .deleteContinuations ⟨cs, ws⟩) =
        ((env.space.hashFromVec cs, none), .delete (kontKey env cs)) := by
      rw [entryAction, if_pos hNil]
      rfl
    rw [hDelete] at hAction
    have hValue := KeyMap.applyAll_of_mem emptyMap hNodup (List.mem_map_of_mem (f := Prod.snd) hAction)
    replace hValue : emptyMap.applyAll (historyActions env s) (kontKey env cs) = none := hValue
    rw [hValue, ← hSame] at hRead'
    refine ⟨[], ?_, hNil ▸ List.Perm.refl _⟩
    have hFetch : reader.fetchData env prefixKont (env.space.hashFromVec channels) = .ok none := by
      rw [RSpaceHistoryReader.fetchData, ← kontKey, hRead']
      rfl
    rw [RSpaceHistoryReader.getContinuations, RSpaceHistoryReader.getContinuationsProj, hFetch]
    rfl
  · have hInsert : actionOf env (entryAction .insertContinuations .deleteContinuations ⟨cs, ws⟩) =
        insertLeaf env prefixKont .continuations (env.space.hashFromVec cs)
          (encodeSorted env env.continuation ws) := by
      rw [entryAction, if_neg hNil]
      rfl
    rw [hInsert] at hAction
    have hValue := KeyMap.applyAll_of_mem emptyMap hNodup (List.mem_map_of_mem (f := Prod.snd) hAction)
    replace hValue : emptyMap.applyAll (historyActions env s) (kontKey env cs) =
        some (env.hash (serializeLeaf (encodeSorted env env.continuation ws))).1 := hValue
    have hLeaf : ((env.hash (serializeLeaf (encodeSorted env env.continuation ws))).1,
        PersistedData.continuations (encodeSorted env env.continuation ws)) ∈
          coldLeaves (storageActions env s) :=
      List.mem_filterMap.mpr ⟨_, hAction, rfl⟩
    obtain ⟨hBare, hSerialized⟩ := lookup_leaf h hLeaf
    rw [hValue, ← hSame] at hRead'
    have hFetch : reader.fetchData env prefixKont (env.space.hashFromVec channels) =
        .ok (some (.continuations (encodeSorted env env.continuation ws))) := by
      rw [RSpaceHistoryReader.fetchData, ← kontKey, hRead']
      simp only [bind, Except.bind, hLeaves, hBare, hSerialized, Option.none_or, env.persisted.decode_encode]
      rfl
    obtain ⟨decoded, hDecoded, hDecodedPerm⟩ : ∃ decoded, decodeAll env env.continuation
        (encodeSorted env env.continuation ws) = some decoded ∧ decoded.Perm ws :=
      decodeAll_encodeSorted env.continuation ws
    refine ⟨decoded, ?_, hDecodedPerm⟩
    rw [RSpaceHistoryReader.getContinuations, RSpaceHistoryReader.getContinuationsProj, hFetch]
    simp only [bind, Except.bind, hDecoded]
    rfl

end reader

variable [DecidableEq C]

section faithful

variable (env : RepositoryEnv C P A K) (s : HotStore C P A K)

/-- The checkpoint succeeds, and afterwards every join has the continuations it had before. -/
def CheckpointFaithful (st : RSpace C P A K) : Prop :=
  ∃ repo next reader, HistoryRepository.empty env = .ok repo ∧
    createCheckpoint env repo st = .ok (next, reader) ∧
    ∀ channels, Distinguished env st.store channels → ∃ ws,
      reader.getContinuations env channels = .ok ws ∧ ws.Perm (st.store.getContinuations channels).1

/-- No two entries are orders of the same channels, and no continuation waits on a join that has
another order. -/
def Separated : Prop :=
  (∀ cs ∈ s.continuations.keys, ∀ cs' ∈ s.continuations.keys, cs.Perm cs' → cs = cs') ∧
  ∀ cs, s.storedContinuations cs ≠ [] → ∀ cs', cs'.Perm cs → cs' = cs

end faithful

theorem checkpointFaithful_iff (h : NoCollision env st.store) (hInstalled : ∀ cs, st.store.installed cs = none)
    (hHistory : st.store.history = .empty C P A K) :
    CheckpointFaithful env st ↔ Separated st.store := by
  have hReport : ∀ cs, (st.store.getContinuations cs).1 = st.store.storedContinuations cs := by
    intro cs
    rw [HotStore.getContinuations, hInstalled cs]
    rfl
  have hEntry : ∀ {cs}, cs ∈ st.store.continuations.keys →
      ⟨cs, st.store.storedContinuations cs⟩ ∈ st.store.continuations.entries := by
    intro cs hKey
    obtain ⟨ws, hLookup⟩ := Option.isSome_iff_exists.mp (AList.lookup_isSome.mpr hKey)
    rw [storedContinuations, hLookup]
    exact AList.mem_lookup_iff.mp hLookup
  have hAbsent : ∀ {cs}, cs ∉ st.store.continuations.keys → st.store.storedContinuations cs = [] := by
    intro cs hKey
    rw [storedContinuations, AList.lookup_eq_none.mpr hKey, hHistory]
    rfl
  constructor
  · rintro ⟨repo, next, reader, hRepo, hCheckpoint, hFaithful⟩
    have hNodup : ((historyActions env st.store).map HistoryAction.key).Nodup := by
      by_contra hDuplicate
      rw [createCheckpoint_error hDuplicate] at hCheckpoint
      cases hCheckpoint
    have hOne := (nodup_keys_iff h).mp hNodup
    refine ⟨hOne, fun cs hStored cs' hPerm => ?_⟩
    obtain ⟨repo', next', reader', hRepo', hCheckpoint', hLeaves, hRead⟩ := createCheckpoint_spec h hNodup
    obtain rfl := Except.ok.inj (hRepo.symm.trans hRepo')
    obtain ⟨-, rfl⟩ := Prod.mk.inj (Except.ok.inj (hCheckpoint.symm.trans hCheckpoint'))
    have hKey : cs ∈ st.store.continuations.keys := not_not.mp fun hNot => hStored (hAbsent hNot)
    have hDistinguished : Distinguished env st.store cs' := by
      intro k hk hEq
      rw [hashFromVec_of_perm hPerm] at hEq
      exact hPerm.trans (h.continuations cs hKey k hk hEq)
    -- what waits on one order is read back for the other, which therefore has an entry
    obtain ⟨ws, hGet, hWs⟩ := hFaithful cs' hDistinguished
    obtain ⟨ws', hGet', hWs'⟩ := getContinuations_of_entry hLeaves hRead h hNodup hPerm (hEntry hKey)
    obtain rfl := Except.ok.inj (hGet.symm.trans hGet')
    rw [hReport] at hWs
    have hKey' : cs' ∈ st.store.continuations.keys := by
      by_contra hNot
      rw [hAbsent hNot] at hWs
      exact hStored (hWs'.symm.trans hWs).eq_nil
    exact hOne cs' hKey' cs hKey hPerm
  · intro hSeparated
    have hNodup := (nodup_keys_iff h).mpr hSeparated.1
    obtain ⟨repo, next, reader, hRepo, hCheckpoint, hLeaves, hRead⟩ := createCheckpoint_spec h hNodup
    refine ⟨repo, next, reader, hRepo, hCheckpoint, fun channels hDistinguished => ?_⟩
    rw [hReport]
    by_cases hPresent : ∃ cs ∈ st.store.continuations.keys, channels.Perm cs
    · obtain ⟨cs, hKey, hPerm⟩ := hPresent
      obtain ⟨ws, hGet, hWs⟩ := getContinuations_of_entry hLeaves hRead h hNodup hPerm (hEntry hKey)
      refine ⟨ws, hGet, ?_⟩
      by_cases hStored : st.store.storedContinuations cs = []
      · have hEmpty : st.store.storedContinuations channels = [] := by
          by_cases hIn : channels ∈ st.store.continuations.keys
          · rw [hSeparated.1 channels hIn cs hKey hPerm, hStored]
          · exact hAbsent hIn
        rw [hEmpty, ← hStored]
        exact hWs
      · rw [hSeparated.2 cs hStored channels hPerm]
        exact hWs
    · push Not at hPresent
      refine ⟨[], getContinuations_of_absent hRead ?_, ?_⟩
      · rw [keys_historyActions]
        simp only [List.mem_append, List.mem_map, not_or, not_exists, not_and]
        refine ⟨⟨fun cs hKey hEq => ?_, fun c _ hEq => ?_⟩, fun c _ hEq => ?_⟩
        · exact hPresent cs hKey (hDistinguished cs hKey (List.cons.inj hEq).2.symm)
        · exact absurd (List.cons.inj hEq).1 (by decide)
        · exact absurd (List.cons.inj hEq).1 (by decide)
      · rw [hAbsent fun hIn => hPresent channels hIn (.refl _)]

variable [DecidableEq P] [DecidableEq K]

/-- After any run over an empty history, the checkpoint is faithful exactly when no continuation
waits on a join that has another order and no two orders of the same channels have an entry. -/
theorem run_checkpointFaithful_iff (env : RepositoryEnv C P A K)
    {ops : List (Op C P A K × Shuffle C P A K)} {results : List (MaybeConsumeResult C P A K)}
    {counter : Bytes → Int} {st : RSpace C P A K}
    (hRun : RSpace.run env.space ops ⟨createFromHr (.empty C P A K), [], counter⟩ = .ok (results, st))
    (h : NoCollision env st.store) : CheckpointFaithful env st ↔ Separated st.store := by
  have hBase : SameBase st.store (createFromHr (.empty C P A K)) := by
    refine RSpace.run_induction (motive := fun st => SameBase st.store (createFromHr (.empty C P A K)))
      (fun op sh st result st' _ hSame hStep => ?_) hRun (.refl _)
    exact (sameBase_step hStep).trans hSame
  refine checkpointFaithful_iff h (fun cs => ?_) hBase.history
  rw [installed, hBase.installed]
  rfl

deriving instance Encodable for Consume, Produce, Datum, WaitingContinuation, PersistedData

def unaryCodec {α : Type} [Encodable α] (tag : α → UInt8) : Codec α where
  encode a := tag a :: List.replicate (Encodable.encode a) 0
  decode bytes := Encodable.decode bytes.tail.length
  decode_encode a := by
    rw [List.tail_cons, List.length_replicate]
    exact Encodable.encodek a

def sampleRepository : RepositoryEnv Nat Nat Nat Nat where
  space := sampleEnv
  order _ keys := keys
  perm_order _ keys := .refl keys
  datum := unaryCodec fun _ => 0
  continuation := unaryCodec fun _ => 1
  join := unaryCodec fun _ => 2
  vec := unaryCodec fun items => (items.flatMap id).headD 0
  persisted := unaryCodec fun _ => 0

def swappedConsumes : List (Op Nat Nat Nat Nat × Shuffle Nat Nat Nat Nat) :=
  [(.consume [1, 2] [0, 0] 0 false ∅, .refl ..), (.consume [2, 1] [0, 0] 0 false ∅, .refl ..)]

/-- Both consumes wait, and the checkpoint panics on their common key. -/
theorem checkpoint_swappedConsumes_panics :
    ∃ results st, RSpace.run sampleEnv swappedConsumes emptySpace = .ok (results, st) ∧
      (∀ repo, createCheckpoint sampleRepository repo st =
        .error (.actionError "Cannot process duplicate actions on one key.")) ∧
      ¬ CheckpointFaithful sampleRepository st := by
  obtain ⟨results, st, hRun, hKeys⟩ : ∃ results st,
      RSpace.run sampleEnv swappedConsumes emptySpace = .ok (results, st) ∧
        st.store.continuations.keys = [[2, 1], [1, 2]] := ⟨_, _, rfl, rfl⟩
  have hDuplicate : ¬ ((historyActions sampleRepository st.store).map HistoryAction.key).Nodup := by
    rw [keys_historyActions, hKeys]
    intro hNodup
    have hKont : kontKey sampleRepository [2, 1] = kontKey sampleRepository [1, 2] :=
      congrArg (prependBytes prefixKont) (hashFromVec_of_perm (List.Perm.swap 1 2 []))
    simp [hKont] at hNodup
  have hPanics := createCheckpoint_error hDuplicate
  refine ⟨results, st, hRun, hPanics, ?_⟩
  rintro ⟨repo, next, reader, -, hCheckpoint, -⟩
  rw [hPanics] at hCheckpoint
  cases hCheckpoint

def singleConsume : List (Op Nat Nat Nat Nat × Shuffle Nat Nat Nat Nat) :=
  [(.consume [7] [0] 0 false ∅, .refl ..)]

def singleActions (k k' : Bytes) (v v' : History.Blake2b256Hash) : List HistoryAction :=
  [.insert (1 :: k) v, .delete (0 :: k'), .insert (2 :: k') v']

section singleNodes

variable {k k' : Bytes} (hk : k.length = 32) (hk' : k'.length = 32) (v v' : History.Blake2b256Hash)

theorem child_singleActions (i : UInt8) : (emptyMap.applyAll (singleActions k k' v v')).child i =
    if i = 2 then emptyMap.set k' (some v'.1) else if i = 0 then emptyMap.set k' none
    else if i = 1 then emptyMap.set k (some v.1) else emptyMap := by
  have hEmpty : ∀ j, emptyMap.child j = emptyMap := fun _ => rfl
  change (((emptyMap.set (1 :: k) (some v.1)).set (0 :: k') none).set (2 :: k') (some v'.1)).child i = _
  split_ifs with h2 h0 h1
  · rw [h2, KeyMap.child_set_same, KeyMap.child_set_of_ne _ (by decide), KeyMap.child_set_of_ne _ (by decide),
      hEmpty]
  · rw [h0, KeyMap.child_set_of_ne _ (by decide), KeyMap.child_set_same, KeyMap.child_set_of_ne _ (by decide),
      hEmpty]
  · rw [h1, KeyMap.child_set_of_ne _ (by decide), KeyMap.child_set_of_ne _ (by decide), KeyMap.child_set_same,
      hEmpty]
  · rw [KeyMap.child_set_of_ne _ h2, KeyMap.child_set_of_ne _ h0, KeyMap.child_set_of_ne _ h1, hEmpty]

include hk hk' in
theorem injOn_singleActions :
    Set.InjOn sampleRepository.tree.ptr (runNodes sampleRepository.tree 33 [singleActions k k' v v']) := by
  have hNone : item sampleRepository.tree.ptr 32 emptyMap = .emptyItem :=
    (item_eq_empty_iff 32 emptyMap).mpr fun _ _ => rfl
  have hDeleted : ∀ l, emptyMap.set l none = emptyMap := fun l => by simp [KeyMap.set, emptyMap]
  have hRoot : canonicalNode sampleRepository.tree.ptr 32 (emptyMap.applyAll (singleActions k k' v v')) =
      Function.update (Function.update emptyNode 1 (.leaf k v.1)) 2 (.leaf k' v'.1) := by
    funext i
    rw [canonicalNode, child_singleActions, hDeleted]
    split_ifs with h2 h0 h1
    · rw [h2, Function.update_self, item_set_of_empty 32 hNone hk']
    · rw [h0, hNone]
      rfl
    · rw [h1, item_set_of_empty 32 hNone hk]
      rfl
    · rw [Function.update_of_ne h2, Function.update_of_ne h1, hNone]
      rfl
  have hBelow : ∀ i, branches sampleRepository.tree.ptr 32
      ((emptyMap.applyAll (singleActions k k' v v')).child i) = ∅ := by
    intro i
    rw [child_singleActions, hDeleted]
    split_ifs
    · exact branches_set_of_empty 32 hNone hk'
    · exact branches_of_empty 32 hNone
    · exact branches_set_of_empty 32 hNone hk
    · exact branches_of_empty 32 hNone
  have hNodes : ∀ x ∈ runNodes sampleRepository.tree 33 [singleActions k k' v v'], x = emptyNode ∨
      x = Function.update (Function.update emptyNode 1 (.leaf k v.1)) 2 (.leaf k' v'.1) := by
    rintro x ⟨done, hDone, hx⟩
    rcases done with - | ⟨actions, rest⟩
    · have hBranches : branches sampleRepository.tree.ptr 33 emptyMap = ∅ :=
        branches_of_empty 33 ((item_eq_empty_iff 33 emptyMap).mpr fun _ _ => rfl)
      rcases hx with rfl | hx
      · exact .inl (canonicalRoot_emptyMap 33)
      · rw [show reference [] = emptyMap from rfl, hBranches] at hx
        exact absurd hx (Set.notMem_empty x)
    · obtain ⟨rfl, hRest⟩ := List.cons_prefix_cons.mp hDone
      obtain rfl := List.prefix_nil.mp hRest
      rcases hx with rfl | ⟨rfl, -⟩ | ⟨i, hx⟩
      · exact .inr hRoot
      · exact .inr hRoot
      · rw [show reference [singleActions k k' v v'] = emptyMap.applyAll (singleActions k k' v v') from rfl,
          hBelow i] at hx
        exact absurd hx (Set.notMem_empty x)
  have hDiffer : sampleRepository.tree.ptr
      (Function.update (Function.update emptyNode 1 (.leaf k v.1)) 2 (.leaf k' v'.1)) ≠
        sampleRepository.tree.ptr emptyNode := by
    intro hEq
    have hBytes : ∃ rest, Node.bytes (Function.update (Function.update emptyNode 1 (.leaf k v.1)) 2
        (.leaf k' v'.1)) = 1 :: rest := by
      rw [Node.bytes, ← List.take_append_drop 2 allBytes, List.flatMap_append,
        show allBytes.take 2 = [0, 1] by decide +kernel]
      exact ⟨_, rfl⟩
    obtain ⟨rest, hRest⟩ := hBytes
    rw [TreeEnv.ptr, hRest] at hEq
    have hHead : some (1 : UInt8) = (sampleRepository.tree.ptr emptyNode).head? := congrArg List.head? hEq
    exact absurd hHead (by decide +kernel)
  intro x hx y hy hEq
  rcases hNodes x hx with rfl | rfl <;> rcases hNodes y hy with rfl | rfl
  · rfl
  · exact absurd hEq.symm hDiffer
  · exact absurd hEq hDiffer
  · rfl

end singleNodes

theorem getElem?_leafHash [Encodable α] (tag : UInt8) (a : α) :
    (sampleRepository.hash (serializeLeaf
      (encodeSorted sampleRepository (unaryCodec fun _ => tag) [a]))).1[8]? = some tag := by
  have hSorted : encodeSorted sampleRepository (unaryCodec fun _ => tag) [a] =
      tag :: List.replicate (Encodable.encode [tag :: List.replicate (Encodable.encode a) (0 : UInt8)]) 0 := rfl
  change ((serializeLeaf _ ++ List.replicate 32 0).take 32)[8]? = some tag
  rw [hSorted, serializeLeaf, List.append_assoc, List.getElem?_take_of_lt (by decide),
    List.getElem?_append_right (by simp), length_toLeBytes]
  rfl

theorem noCollision_single {s : HotStore Nat Nat Nat Nat} {w : WaitingContinuation Nat Nat}
    (hContinuations : s.continuations.entries = [⟨[7], [w]⟩]) (hData : s.data.entries = [⟨7, []⟩])
    (hJoins : s.joins.entries = [⟨7, [[7]]⟩]) : NoCollision sampleRepository s := by
  have hActions : storageActions sampleRepository s =
      [actionOf sampleRepository (.insertContinuations [7] [w]), actionOf sampleRepository (.deleteData 7),
        actionOf sampleRepository (.insertJoins 7 [[7]])] := by
    rw [storageActions, changes, hContinuations, hData, hJoins]
    rfl
  have hOne : ∀ {α β : Type} {m : ShardedMap α (List β)} {a : α} {l : List β}, m.entries = [⟨a, l⟩] →
      ∀ x ∈ m.keys, x = a := by
    intro α β m a l hEntries x hx
    rw [AList.keys, hEntries] at hx
    exact List.mem_singleton.mp hx
  refine ⟨?_, ?_, ?_, ?_, ?_⟩
  · intro cs hcs cs' hcs' _
    rw [hOne hContinuations cs hcs, hOne hContinuations cs' hcs']
  · intro c hc c' hc' _
    rw [hOne hData c hc, hOne hData c' hc']
  · intro c hc c' hc' _
    rw [hOne hJoins c hc, hOne hJoins c' hc']
  · have hDiffer : (sampleRepository.hash
        (serializeLeaf (encodeSorted sampleRepository sampleRepository.continuation [w]))).1 ≠
          (sampleRepository.hash
            (serializeLeaf (encodeSorted sampleRepository sampleRepository.join [[7]]))).1 := by
      intro hEq
      have hByte : _ = some (1 : UInt8) := getElem?_leafHash 1 w
      have hByte' : _ = some (2 : UInt8) := getElem?_leafHash 2 [7]
      have hSame := congrArg (fun hash : Bytes => hash[8]?) hEq
      exact absurd (hByte.symm.trans (hSame.trans hByte')) (by decide)
    rw [hActions, coldLeaves_single]
    intro a ha b hb hEq
    rcases List.mem_pair.mp ha with rfl | rfl <;> rcases List.mem_pair.mp hb with rfl | rfl
    · rfl
    · exact absurd hEq hDiffer
    · exact absurd hEq.symm hDiffer
    · rfl
  · rw [historyActions, hActions]
    exact injOn_singleActions (sampleEnv.blake.length_hash _) (sampleEnv.blake.length_hash _) _ _

/-- A consume on one channel waits, and it is read back after the checkpoint. -/
theorem checkpoint_singleConsume_faithful :
    ∃ results st, RSpace.run sampleEnv singleConsume emptySpace = .ok (results, st) ∧
      NoCollision sampleRepository st.store ∧ st.store.storedContinuations [7] ≠ [] ∧
      CheckpointFaithful sampleRepository st := by
  obtain ⟨results, st, w, hRun, hContinuations, hData, hJoins, hHistory⟩ : ∃ results st w,
      RSpace.run sampleEnv singleConsume emptySpace = .ok (results, st) ∧
        st.store.continuations.entries = [⟨[7], [w]⟩] ∧ st.store.data.entries = [⟨7, []⟩] ∧
        st.store.joins.entries = [⟨7, [[7]]⟩] ∧ st.store.history = .empty .. :=
    ⟨_, _, _, rfl, rfl, rfl, rfl, rfl⟩
  have hSafe := noCollision_single hContinuations hData hJoins
  have hKeys : st.store.continuations.keys = [[7]] := by
    rw [AList.keys, hContinuations]
    rfl
  have hLookup : st.store.storedContinuations [7] = [w] := by
    have hMem : ⟨[7], [w]⟩ ∈ st.store.continuations.entries := by
      rw [hContinuations]
      exact List.mem_singleton_self _
    rw [storedContinuations, AList.mem_lookup_iff.mpr hMem]
    rfl
  refine ⟨results, st, hRun, hSafe, by simp [hLookup], (run_checkpointFaithful_iff _ hRun hSafe).mpr ⟨?_, ?_⟩⟩
  · rw [hKeys]
    intro cs hcs cs' hcs' _
    rw [List.mem_singleton.mp hcs, List.mem_singleton.mp hcs']
  · intro cs hStored cs' hPerm
    have hKey : cs = [7] := by
      by_contra hNot
      have hAbsent : cs ∉ st.store.continuations := by rwa [AList.mem_keys, hKeys, List.mem_singleton]
      apply hStored
      rw [storedContinuations, AList.lookup_eq_none.mpr hAbsent, hHistory]
      rfl
    rw [hKey] at hPerm ⊢
    exact List.perm_singleton.mp hPerm

end F1r3Node.Space
