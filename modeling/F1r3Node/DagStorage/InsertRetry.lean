import F1r3Node.DagStorage.InsertSpec

/-! # A failed insert and its retry

A retry finds the block in the DAG set as soon as the failed insert got past the ingest, and then it writes the
finality mark of an approved block and nothing else.
-/

namespace F1r3Node.DagStorage

open Shared Lib.Stateful
open Casper (BlockMessage)

/-- The in-memory state is rebuilt from the metadata rows, and a row precedes the entry among the invalid blocks. -/
structure Indexed (s : BlockDagStorage) : Prop where
  stored : ∀ hash row, s.metadataStore hash = some row → hash ∈ s.dagSet
  invalid : ∀ hash metadata, s.invalidBlocksIndex hash = some metadata → hash ∈ s.dagSet

structure SameMarks (s t : BlockDagStorage) : Prop where
  latest : ∀ validator, s.latestMessageHash validator = t.latestMessageHash validator
  invalid : ∀ hash, s.invalidBlocksIndex hash = t.invalidBlocksIndex hash
  finalized : ∀ hash, s.isFinalized hash = t.isFinalized hash

structure Agrees (s t : BlockDagStorage) : Prop where
  latest : ∀ validator, s.latestMessageHash validator = t.latestMessageHash validator
  invalid : s.invalidBlocksIndex = t.invalidBlocksIndex
  rows : s.metadataStore = t.metadataStore
  cache : s.finalizedBlockSet = t.finalizedBlockSet

variable {S : Type} {s s' t u : BlockDagStorage} {e : StoreError} {order : HashOrder} {silent : SilentFaults}
  {faults : StoreFaults} {block : BlockMessage ProcessedDeploy S} {mode : InsertMode} {hash : Bytes}

theorem Agrees.sameMarks (h : Agrees s t) : SameMarks s t := by
  refine ⟨h.latest, fun hash => by rw [h.invalid], fun hash => ?_⟩
  rw [BlockDagStorage.isFinalized, BlockDagStorage.isFinalized, h.rows, h.cache]

theorem SameMarks.trans {r : BlockDagStorage} (h : SameMarks r s) (h' : SameMarks s t) : SameMarks r t :=
  ⟨fun v => (h.latest v).trans (h'.latest v), fun b => (h.invalid b).trans (h'.invalid b),
    fun b => (h.finalized b).trans (h'.finalized b)⟩

theorem Finished.congr (h : Finished order hash mode s s') (hAgrees : Agrees s t) :
    ∃ t', Finished order hash mode t t' ∧ Agrees s' t' := by
  cases h with
  | kept hMode hEq =>
    subst hEq
    exact ⟨t, .kept hMode rfl, hAgrees⟩
  | marked row hMode hRow hEq =>
    subst hEq
    refine ⟨_, .marked row hMode (hAgrees.rows ▸ hRow) rfl, hAgrees.latest, hAgrees.invalid, ?_, ?_⟩
    · change (s.putFinalized hash ∅).metadataStore = (t.putFinalized hash ∅).metadataStore
      rw [BlockDagStorage.putFinalized, BlockDagStorage.putFinalized, hAgrees.rows]
    · change pruneFinalizedCacheIfNeeded order (insert hash (s.finalizedBlockSet ∪ ∅)) =
        pruneFinalizedCacheIfNeeded order (insert hash (t.finalizedBlockSet ∪ ∅))
      rw [hAgrees.cache]

theorem card_pruneFinalizedCacheIfNeeded (order : HashOrder) (cache : Finset Bytes)
    (h : ¬ cache.card ≤ finalizedBlockCacheMax) :
    (pruneFinalizedCacheIfNeeded order cache).card = finalizedBlockCacheRetain := by
  rw [pruneFinalizedCacheIfNeeded, if_neg h]
  have hPerm : (order.toList cache).toFinset = cache := by
    ext hash
    rw [List.mem_toFinset, order.mem_toList]
  have hLength : (order.toList cache).length = cache.card := by
    rw [← List.toFinset_card_of_nodup (order.nodup cache), hPerm]
  have hTake : ((order.toList cache).take (cache.card - finalizedBlockCacheRetain)).toFinset.card =
      cache.card - finalizedBlockCacheRetain := by
    rw [List.toFinset_card_of_nodup ((order.nodup cache).sublist (List.take_sublist _ _)), List.length_take, hLength]
    omega
  have hSub : ((order.toList cache).take (cache.card - finalizedBlockCacheRetain)).toFinset ⊆ cache := by
    intro hash hMem
    exact (order.mem_toList cache hash).mp (List.mem_of_mem_take (List.mem_toFinset.mp hMem))
  rw [Finset.card_sdiff_of_subset hSub, hTake]
  rw [finalizedBlockCacheMax, not_le] at h
  rw [finalizedBlockCacheRetain]
  omega

theorem prune_insert_prune (order : HashOrder) (cache : Finset Bytes) (hash : Bytes) :
    pruneFinalizedCacheIfNeeded order (insert hash (pruneFinalizedCacheIfNeeded order (insert hash cache))) =
      insert hash (pruneFinalizedCacheIfNeeded order (insert hash cache)) := by
  by_cases hFits : (insert hash cache).card ≤ finalizedBlockCacheMax
  · have hSame : pruneFinalizedCacheIfNeeded order (insert hash cache) = insert hash cache := if_pos hFits
    rw [hSame, Finset.insert_idem, hSame]
  · have hCard := card_pruneFinalizedCacheIfNeeded order _ hFits
    have hInsert := Finset.card_insert_le hash (pruneFinalizedCacheIfNeeded order (insert hash cache))
    refine if_pos (hInsert.trans ?_)
    rw [hCard]
    decide

inductive Attempted (order : HashOrder) (hash : Bytes) (mode : InsertMode) (s s' : BlockDagStorage) : Prop where
  | nothing (same : s' = s)
  | memory (row : MetadataRow) (approved : mode = .approved) (stored : s.metadataStore hash = some row)
      (marks : s' = s.finalizeInMemory order hash row.metadata.blockNumber ∅)
  | finished (done : Finished order hash mode s s')

theorem attempted_of_error (h : (finishInsert order faults hash mode).run s = .error e s') :
    Attempted order hash mode s s' := by
  obtain hMark | ⟨_, t, hMark, hRest⟩ := run_bind_eq_error.mp h
  · rw [markApproved] at hMark
    split at hMark
    · next hMode =>
      obtain rfl | ⟨row, hRow, rfl⟩ := run_recordFinalized_eq_error hMark
      · exact .nothing rfl
      · exact .memory row hMode hRow rfl
    · cases hMark
  · obtain hGuard | ⟨_, r, -, hGet⟩ := run_bind_eq_error.mp hRest
    · obtain ⟨-, rfl⟩ := run_failIf_eq_error hGuard
      have hRun : (finishInsert order .none hash mode).run s = .ok t t := by
        rw [markApproved] at hMark
        split at hMark
        · next hMode =>
          obtain ⟨-, -, -, row, hRow, hEq⟩ := run_recordFinalized_eq_ok.mp hMark
          exact (Finished.marked row hMode hRow hEq.symm).run
        · next hMode => exact (Finished.kept hMode (EStateM.Result.ok.inj hMark).2.symm).run
      exact .finished (finished_of_ok hRun)
    · cases hGet

theorem isFinalized_finalizedMarks {number : Int} {row : MetadataRow} (hRow : s.metadataStore hash = some row) (other : Bytes) :
    (s.finalizedMarks order hash number ∅).isFinalized other = true ↔
      other = hash ∨ other ∈ pruneFinalizedCacheIfNeeded order (insert hash s.finalizedBlockSet) ∨
        (s.metadataStore other).any (·.finalized) = true := by
  have hCache : (s.finalizedMarks order hash number ∅).finalizedBlockSet =
      pruneFinalizedCacheIfNeeded order (insert hash s.finalizedBlockSet) := by
    change pruneFinalizedCacheIfNeeded order (insert hash (s.finalizedBlockSet ∪ ∅)) = _
    rw [Finset.union_empty]
  rw [BlockDagStorage.isFinalized, Bool.or_eq_true, decide_eq_true_iff, hCache]
  by_cases hOther : other = hash
  · subst hOther
    simp [BlockDagStorage.finalizedMarks, BlockDagStorage.putFinalized, BlockDagStorage.finalizeInMemory, hRow]
  · simp [BlockDagStorage.finalizedMarks, BlockDagStorage.putFinalized, BlockDagStorage.finalizeInMemory, hOther]

theorem Attempted.retried (hAttempt : Attempted order hash mode s s') (hDone : Finished order hash mode s' u) :
    ∃ t, Finished order hash mode s t ∧ SameMarks u t := by
  cases hAttempt with
  | nothing hSame =>
    subst hSame
    exact ⟨u, hDone, fun _ => rfl, fun _ => rfl, fun _ => rfl⟩
  | memory row hMode hRow hEq =>
    subst hEq
    cases hDone with
    | kept hOther => exact absurd hMode hOther
    | marked row' _ hRow' hEq =>
      subst hEq
      refine ⟨_, .marked row hMode hRow rfl, fun _ => rfl, fun _ => rfl, fun other => Bool.eq_iff_iff.mpr ?_⟩
      have hCache : (s.finalizeInMemory order hash row.metadata.blockNumber ∅).finalizedBlockSet =
          pruneFinalizedCacheIfNeeded order (insert hash s.finalizedBlockSet) := by
        change pruneFinalizedCacheIfNeeded order (insert hash (s.finalizedBlockSet ∪ ∅)) = _
        rw [Finset.union_empty]
      rw [isFinalized_finalizedMarks hRow', isFinalized_finalizedMarks hRow, hCache, prune_insert_prune,
        Finset.mem_insert, or_assoc, or_self_left]
      rfl
  | finished hFinished =>
    cases hFinished with
    | kept hMode hEq =>
      subst hEq
      exact ⟨u, hDone, fun _ => rfl, fun _ => rfl, fun _ => rfl⟩
    | marked row hMode hRow hEq =>
      subst hEq
      cases hDone with
      | kept hOther => exact absurd hMode hOther
      | marked row' _ hRow' hEq =>
        subst hEq
        refine ⟨_, .marked row hMode hRow rfl, fun _ => rfl, fun _ => rfl, fun other => Bool.eq_iff_iff.mpr ?_⟩
        have hCache : (s.finalizedMarks order hash row.metadata.blockNumber ∅).finalizedBlockSet =
            pruneFinalizedCacheIfNeeded order (insert hash s.finalizedBlockSet) := by
          change pruneFinalizedCacheIfNeeded order (insert hash (s.finalizedBlockSet ∪ ∅)) = _
          rw [Finset.union_empty]
        have hRows : other ≠ hash → (s.finalizedMarks order hash row.metadata.blockNumber ∅).metadataStore other =
            s.metadataStore other := by
          intro hOther
          simp [BlockDagStorage.finalizedMarks, BlockDagStorage.putFinalized, BlockDagStorage.finalizeInMemory, hOther]
        rw [isFinalized_finalizedMarks hRow', isFinalized_finalizedMarks hRow, hCache, prune_insert_prune,
          Finset.mem_insert, or_assoc, or_self_left]
        by_cases hOther : other = hash
        · exact iff_of_true (.inl hOther) (.inl hOther)
        · rw [hRows hOther]

def learnGenesis (learned : Option Bytes) : StorageM Unit :=
  match learned with
  | some hash => recordGenesisHash hash
  | none => pure ()

theorem run_learnGenesis {learned : Option Bytes} (h : (learnGenesis learned).run s = .ok () t) :
    t = { s with genesisHashIndex := s.genesisHashIndex.or learned } := by
  cases learned with
  | none =>
    obtain ⟨-, rfl⟩ := EStateM.Result.ok.inj h
    rw [Option.or_none]
  | some hash =>
    change (recordGenesisHash hash).run s = .ok () t at h
    rw [recordGenesisHash, run_bind_of_ok (EStateM.run_get s)] at h
    cases hIndex : s.genesisHashIndex with
    | none =>
      rw [hIndex] at h
      exact (EStateM.Result.ok.inj h).2.symm
    | some existing =>
      rw [hIndex] at h
      dsimp only at h
      split at h
      · obtain ⟨-, rfl⟩ := EStateM.Result.ok.inj h
        rw [Option.some_or, ← hIndex]
      · cases h

def ChangesSlot (s : BlockDagStorage) (silent : SilentFaults) (block : BlockMessage ProcessedDeploy S)
    (mode : InsertMode) : Prop :=
  mode ≠ .settledHistory ∧ (s.newlyBondedUnseen silent block ≠ [] ∨
    s.newLatestFromSender silent block ≠ [] ∧ s.latestMessageHash block.sender ≠ some block.blockHash)

/-- The block becomes visible, and a later write of the same insert is missed: the entry of an invalid block, or a
slot that was to change. -/
def LeavesUnwritten (s : BlockDagStorage) (silent : SilentFaults) (faults : StoreFaults)
    (block : BlockMessage ProcessedDeploy S) (mode : InsertMode) : Prop :=
  block.blockHash ∉ s.dagSet ∧ IngestSucceeds faults block mode ∧
    (mode = .invalid ∧ (faults.metadata = true ∨ faults.invalidBlocks = true) ∨
      ChangesSlot s silent block mode ∧ (faults.metadata = true ∨
        AdvanceFails (s.addToDagState (metadataFromBlock block (mode = .invalid))) silent faults block mode))

/-- The marks are those of one insert that succeeds, before or after the node learned the genesis hash. -/
def AsSingleInsert (order : HashOrder) (silent : SilentFaults) (learned : Option Bytes)
    (block : BlockMessage ProcessedDeploy S) (mode : InsertMode) (s s₂ : BlockDagStorage) : Prop :=
  ∃ base t, (base = s ∨ (learnGenesis learned).run s = .ok () base) ∧
    (insertInternal order silent .none block mode).run base = .ok t t ∧ SameMarks s₂ t

section retry

variable {r s₁ s₂ rep : BlockDagStorage} {faults' : StoreFaults} {learned : Option Bytes}

theorem VisibleFrom.latest_advanced (hVisible : VisibleFrom s block mode t)
    (hRow : s.metadataStore block.blockHash = none) (hSame : ¬ ChangesSlot s silent block mode) (v : Bytes) :
    (t.advanced silent block mode).latestMessageHash v = s.latestMessageHash v := by
  have hIndex : t.latestMessageHash v = s.latestMessageHash v := by
    rw [BlockDagStorage.latestMessageHash, BlockDagStorage.latestMessageHash, hVisible.latestMessagesIndex_eq]
  by_cases hMode : mode = .settledHistory
  · rw [BlockDagStorage.advanced, if_pos hMode, hIndex]
  · have hUnseen : s.newlyBondedUnseen silent block = [] := not_not.mp fun h => hSame ⟨hMode, .inl h⟩
    have hUnseen' := (newlyBondedUnseen_congr hVisible.latestMessagesIndex_eq).trans hUnseen
    rw [latestMessageHash_advanced hMode (fun h => absurd hUnseen' h), hUnseen', if_neg List.not_mem_nil,
      hVisible.newLatestFromSender_eq hRow, hIndex]
    split
    · next hSender =>
      rw [hSender.2]
      exact (not_not.mp fun h => hSame ⟨hMode, .inr ⟨hSender.1, h⟩⟩).symm
    · rfl

theorem VisibleFrom.exists_latest_ne (hVisible : VisibleFrom s block mode t)
    (hRow : s.metadataStore block.blockHash = none) (hChanges : ChangesSlot s silent block mode)
    (hAdvances : ¬ AdvanceFails t silent faults block mode) :
    ∃ v, (t.advanced silent block mode).latestMessageHash v ≠ s.latestMessageHash v := by
  have hSeeds : t.newlyBondedUnseen silent block ≠ [] → t.knownGenesis ≠ none :=
    fun hUnseen hNone => hAdvances ⟨hChanges.1, .inr ⟨hUnseen, .inr hNone⟩⟩
  have hUnseen : t.newlyBondedUnseen silent block = s.newlyBondedUnseen silent block :=
    newlyBondedUnseen_congr hVisible.latestMessagesIndex_eq
  have hSender : t.newLatestFromSender silent block = s.newLatestFromSender silent block :=
    hVisible.newLatestFromSender_eq hRow
  by_cases hNe : s.newLatestFromSender silent block ≠ [] ∧ s.latestMessageHash block.sender ≠ some block.blockHash
  · refine ⟨block.sender, ?_⟩
    rw [latestMessageHash_advanced hChanges.1 hSeeds, hSender, if_pos ⟨hNe.1, rfl⟩]
    exact hNe.2.symm
  · have hSome := hChanges.2.resolve_right hNe
    obtain ⟨v, hv⟩ := List.exists_mem_of_ne_nil _ hSome
    have hSlot : s.latestMessageHash v = none := by
      rw [BlockDagStorage.newlyBondedUnseen, List.mem_filter, decide_eq_true_iff] at hv
      exact hv.2.2.2
    refine ⟨v, ?_⟩
    rw [latestMessageHash_advanced hChanges.1 hSeeds, hSlot, hUnseen, if_pos hv]
    split
    · exact Option.some_ne_none _
    · exact hSeeds (hUnseen ▸ hSome)

theorem run_insertInternal_none (hFresh : block.blockHash ∉ s.dagSet) (hWell : WellFormed block)
    (hAdvances : ¬ AdvanceFails (s.addToDagState (metadataFromBlock block (mode = .invalid))) silent .none block mode) :
    ∃ u, VisibleFrom s block mode u ∧ ∀ t, Finished order block.blockHash mode (u.advanced silent block mode) t →
      (insertInternal order silent .none block mode).run s = .ok t t := by
  obtain ⟨u, hVisible, hRun⟩ := run_insertFresh (s := s) hWell (ingestSucceeds_none block mode) rfl (fun _ => rfl)
    fun u hu => mt hu.advanceFails_iff.mp hAdvances
  refine ⟨u, hVisible, fun t hFinished => ?_⟩
  rw [run_insertInternal_fresh hFresh, run_bind_of_ok hRun]
  exact hFinished.run

theorem not_advanceFails_none (h : ¬ AdvanceFails s silent faults block mode) :
    ¬ AdvanceFails s silent .none block mode := by
  rintro ⟨hMode, hWrite | ⟨hUnseen, hRead | hKnown⟩⟩
  · cases hWrite
  · cases hRead
  · exact h ⟨hMode, .inr ⟨hUnseen, .inr hKnown⟩⟩

theorem VisibleFrom.agrees {s' t' : BlockDagStorage} (h : VisibleFrom s block mode t) (h' : VisibleFrom s' block mode t')
    (hSame : SameButTables s s') : Agrees (t.advanced silent block mode) (t'.advanced silent block mode) := by
  obtain ⟨r, hr, rfl⟩ := h
  obtain ⟨r', hr', rfl⟩ := h'
  obtain ⟨carrierIndex, lifecycle, rfl⟩ := ((hr.symm.trans hSame).trans hr').exists_eq
  rw [BlockDagStorage.visible, BlockDagStorage.visible, BlockDagStorage.advanced, BlockDagStorage.advanced]
  split
  · split
    · exact ⟨fun _ => rfl, rfl, rfl, rfl⟩
    · exact ⟨fun _ => rfl, rfl, rfl, rfl⟩
  · split
    · exact ⟨fun _ => rfl, rfl, rfl, rfl⟩
    · exact ⟨fun _ => rfl, rfl, rfl, rfl⟩

/-- Where an insert of a fresh block failed, with the state it left. -/
inductive Stopped (order : HashOrder) (silent : SilentFaults) (faults : StoreFaults)
    (block : BlockMessage ProcessedDeploy S) (mode : InsertMode) (s s₁ : BlockDagStorage) : Prop where
  | ingest (tables : SameButTables s s₁) (fault : ¬ (WellFormed block ∧ IngestSucceeds faults block mode))
  | metadata (r : BlockDagStorage) (tables : SameButTables s r)
      (ready : WellFormed block ∧ IngestSucceeds faults block mode) (fault : faults.metadata = true)
      (state : s₁ = r.addToDagState (metadataFromBlock block (mode = .invalid)))
  | invalidBlocks (r : BlockDagStorage) (tables : SameButTables s r)
      (ready : WellFormed block ∧ IngestSucceeds faults block mode) (invalid : mode = .invalid)
      (fault : faults.invalidBlocks = true) (state : s₁ = (r.addToDagState (metadataFromBlock block (mode = .invalid))).putMetadata
        (metadataFromBlock block (mode = .invalid)))
  | latestMessages (ready : WellFormed block ∧ IngestSucceeds faults block mode) (stored : faults.metadata = false)
      (indexed : mode = .invalid → faults.invalidBlocks = false) (visible : VisibleFrom s block mode s₁) (fault : AdvanceFails s₁ silent faults block mode)
  | finish (u : BlockDagStorage) (format : WellFormed block) (stored : faults.metadata = false)
      (indexed : mode = .invalid → faults.invalidBlocks = false) (visible : VisibleFrom s block mode u)
      (advances : ¬ AdvanceFails u silent faults block mode)
      (attempt : Attempted order block.blockHash mode (u.advanced silent block mode) s₁)

theorem stopped_of_error (hFirst : (insertInternal order silent faults block mode).run s = .error e s₁)
    (hFresh : block.blockHash ∉ s.dagSet) : Stopped order silent faults block mode s s₁ := by
  rw [run_insertInternal_fresh hFresh] at hFirst
  obtain hInsert | ⟨_, v, hInsert, hFinish⟩ := run_bind_eq_error.mp hFirst
  · obtain ⟨hTables, hFault⟩ | ⟨hWell, hIngest, r, hTables, hRest⟩ := run_insertFresh_eq_error hInsert
    · exact .ingest hTables hFault
    · obtain ⟨hFault, rfl⟩ | ⟨-, hMode, hFault, rfl⟩ | ⟨hStored, hIndexed, rfl, hFault⟩ := hRest
      · exact .metadata r hTables ⟨hWell, hIngest⟩ hFault rfl
      · exact .invalidBlocks r hTables ⟨hWell, hIngest⟩ hMode hFault rfl
      · exact .latestMessages ⟨hWell, hIngest⟩ hStored hIndexed ⟨r, hTables, rfl⟩ hFault
  · obtain ⟨hWell, hStored, hIndexed, u, hVisible, hAdvances, rfl⟩ := run_insertFresh_eq_ok hInsert
    exact .finish u hWell hStored hIndexed hVisible hAdvances (attempted_of_error hFinish)

theorem run_learnGenesis_of (h : (learnGenesis learned).run s₁ = .ok () r)
    (hIndex : s₁.genesisHashIndex = s.genesisHashIndex) :
    (learnGenesis learned).run s = .ok () { s with genesisHashIndex := s.genesisHashIndex.or learned } := by
  cases learned with
  | none =>
    rw [Option.or_none]
    rfl
  | some hash =>
    change (recordGenesisHash hash).run s₁ = .ok () r at h
    change (recordGenesisHash hash).run s = _
    rw [recordGenesisHash, run_bind_of_ok (EStateM.run_get _)] at h ⊢
    rw [hIndex] at h
    cases hKnown : s.genesisHashIndex with
    | none => rfl
    | some existing =>
      rw [hKnown] at h
      dsimp only at h ⊢
      split at h
      · next hSame =>
        rw [if_pos hSame, Option.some_or, ← hKnown]
        rfl
      · cases h

theorem sameMarks_of_attempted (hAttempt : Attempted order block.blockHash mode u s₁)
    (hVisible : block.blockHash ∈ s₁.dagSet) (hLearn : (learnGenesis learned).run s₁ = .ok () r)
    (hRetry : (insertInternal order silent faults' block mode).run r = .ok rep s₂) :
    ∃ t, Finished order block.blockHash mode u t ∧ SameMarks s₂ t := by
  obtain rfl := run_learnGenesis hLearn
  have hAgrees : Agrees { s₁ with genesisHashIndex := s₁.genesisHashIndex.or learned } s₁ :=
    ⟨fun _ => rfl, rfl, rfl, rfl⟩
  obtain ⟨v, hDone, hSame⟩ := (finished_of_visible hRetry hVisible).congr hAgrees
  obtain ⟨t, hFinished, hMarks⟩ := hAttempt.retried hDone
  exact ⟨t, hFinished, hSame.sameMarks.trans hMarks⟩

theorem Attempted.dagSet_eq (h : Attempted order hash mode s s') : s'.dagSet = s.dagSet := by
  cases h with
  | nothing hEq => rw [hEq]
  | memory _ _ _ hEq => rw [hEq]; rfl
  | finished hDone =>
    cases hDone with
    | kept _ hEq => rw [hEq]
    | marked _ _ _ hEq => rw [hEq]; rfl

theorem not_advanceFails_of_not_changesSlot (h : ¬ ChangesSlot s silent block mode)
    (hIndex : t.latestMessagesIndex = s.latestMessagesIndex) : ¬ AdvanceFails t silent .none block mode := by
  rintro ⟨hMode, hWrite | ⟨hUnseen, -⟩⟩
  · cases hWrite
  · exact h ⟨hMode, .inl (newlyBondedUnseen_congr hIndex ▸ hUnseen)⟩

theorem Indexed.metadataStore_of_fresh (h : Indexed s) (hFresh : block.blockHash ∉ s.dagSet) :
    s.metadataStore block.blockHash = none :=
  Option.eq_none_iff_forall_ne_some.mpr fun row hRow => hFresh (h.stored _ row hRow)

section

variable (hFresh : block.blockHash ∉ s.dagSet) (hLearn : (learnGenesis learned).run s₁ = .ok () r)
  (hRetry : (insertInternal order silent faults' block mode).run r = .ok rep s₂)

include hFresh hLearn hRetry

theorem asSingleInsert_of_ingest (hTables : SameButTables s s₁) :
    AsSingleInsert order silent learned block mode s s₂ := by
  obtain ⟨carrierIndex, lifecycle, rfl⟩ := hTables.exists_eq
  have hBase := run_learnGenesis_of (s := s) hLearn rfl
  obtain rfl := run_learnGenesis hLearn
  obtain ⟨hWell, u, hVisible, hAdvances, hFinished⟩ := finished_of_fresh hRetry hFresh
  have hReference := not_advanceFails_none (mt hVisible.advanceFails_iff.mpr hAdvances)
  obtain ⟨u', hVisible', hRun⟩ := run_insertInternal_none
    (s := { s with genesisHashIndex := s.genesisHashIndex.or learned }) hFresh hWell hReference
  obtain ⟨t, hDone, hAgrees⟩ := hFinished.congr (hVisible.agrees hVisible' rfl)
  exact ⟨_, t, .inr hBase, hRun t hDone, hAgrees.sameMarks⟩

theorem asSingleInsert_of_metadata (hIndexed : Indexed s) (hWell : WellFormed block)
    (hSame : ¬ ChangesSlot s silent block mode) (hMode : mode ≠ .invalid)
    (hState : SameButTables (s.addToDagState (metadataFromBlock block (mode = .invalid))) s₁) :
    AsSingleInsert order silent learned block mode s s₂ := by
  have hRow := hIndexed.metadataStore_of_fresh hFresh
  obtain ⟨carrierIndex, lifecycle, rfl⟩ := hState.exists_eq
  obtain rfl := run_learnGenesis hLearn
  have hVisible : block.blockHash ∈ (s.addToDagState (metadataFromBlock block (mode = .invalid))).dagSet :=
    Finset.mem_insert_self _ _
  cases finished_of_visible hRetry hVisible with
  | marked row _ hStored =>
    have hNone : s.metadataStore block.blockHash = some row := hStored
    rw [hRow] at hNone
    cases hNone
  | kept hOther hEq =>
    subst hEq
    obtain ⟨u, hu, hRun⟩ := run_insertInternal_none hFresh hWell
      (not_advanceFails_of_not_changesSlot hSame (rfl : (s.addToDagState _).latestMessagesIndex = _))
    refine ⟨s, _, .inl rfl, hRun _ (.kept hOther rfl), ?_, ?_, ?_⟩
    · intro v
      exact (hu.latest_advanced hRow hSame v).symm
    · intro h
      rw [invalidBlocksIndex_advanced, hu.invalidBlocksIndex_eq, if_neg hMode]
      rfl
    · intro h
      rw [BlockDagStorage.isFinalized, BlockDagStorage.isFinalized, metadataStore_advanced, finalizedBlockSet_advanced,
        hu.metadataStore_eq, hu.finalizedBlockSet_eq]
      by_cases hEq : h = block.blockHash
      · subst hEq
        rw [Function.update_self]
        change (_ || (s.metadataStore block.blockHash).any _) = _
        rw [hRow]
        rfl
      · rw [Function.update_of_ne hEq]
        rfl

theorem asSingleInsert_of_latestMessages (hIndexed : Indexed s)
    (hWell : WellFormed block) (hSame : ¬ ChangesSlot s silent block mode) (hVisible : VisibleFrom s block mode s₁) :
    AsSingleInsert order silent learned block mode s s₂ := by
  have hRow := hIndexed.metadataStore_of_fresh hFresh
  have hMem : block.blockHash ∈ s₁.dagSet := by
    rw [hVisible.dagSet_eq]
    exact Finset.mem_insert_self _ _
  obtain ⟨t, hDone, hMarks⟩ := sameMarks_of_attempted (.nothing rfl) hMem hLearn hRetry
  obtain ⟨u, hu, hRun⟩ := run_insertInternal_none hFresh hWell
    (not_advanceFails_of_not_changesSlot hSame (rfl : (s.addToDagState _).latestMessagesIndex = _))
  have hAgrees : Agrees s₁ (u.advanced silent block mode) := by
    refine ⟨fun v => ?_, ?_, ?_, ?_⟩
    · rw [hu.latest_advanced hRow hSame, BlockDagStorage.latestMessageHash, hVisible.latestMessagesIndex_eq]
      rfl
    · rw [invalidBlocksIndex_advanced, hu.invalidBlocksIndex_eq, hVisible.invalidBlocksIndex_eq]
    · rw [metadataStore_advanced, hu.metadataStore_eq, hVisible.metadataStore_eq]
    · rw [finalizedBlockSet_advanced, hu.finalizedBlockSet_eq, hVisible.finalizedBlockSet_eq]
  obtain ⟨t', hDone', hMarks'⟩ := hDone.congr hAgrees
  exact ⟨s, t', .inl rfl, hRun t' hDone', hMarks.trans hMarks'.sameMarks⟩

theorem asSingleInsert_of_finish (hWell : WellFormed block)
    (hVisible : VisibleFrom s block mode u) (hAdvances : ¬ AdvanceFails u silent faults block mode)
    (hAttempt : Attempted order block.blockHash mode (u.advanced silent block mode) s₁) :
    AsSingleInsert order silent learned block mode s s₂ := by
  have hMem : block.blockHash ∈ s₁.dagSet := by
    rw [hAttempt.dagSet_eq, dagSet_advanced, hVisible.dagSet_eq]
    exact Finset.mem_insert_self _ _
  obtain ⟨t, hDone, hMarks⟩ := sameMarks_of_attempted hAttempt hMem hLearn hRetry
  obtain ⟨u', hu', hRun⟩ := run_insertInternal_none hFresh hWell
    (not_advanceFails_none (mt hVisible.advanceFails_iff.mpr hAdvances))
  obtain ⟨t', hDone', hMarks'⟩ := hDone.congr (hVisible.agrees hu' rfl)
  exact ⟨s, t', .inl rfl, hRun t' hDone', hMarks.trans hMarks'.sameMarks⟩

end

theorem AsSingleInsert.exists_visible (hFresh : block.blockHash ∉ s.dagSet)
    (h : AsSingleInsert order silent learned block mode s s₂) :
    WellFormed block ∧ ∃ base u, (∃ g, base = { s with genesisHashIndex := g }) ∧ VisibleFrom base block mode u ∧
      ¬ AdvanceFails u silent .none block mode ∧
      (∀ v, s₂.latestMessageHash v = (u.advanced silent block mode).latestMessageHash v) ∧
      ∀ b, s₂.invalidBlocksIndex b = u.invalidBlocksIndex b := by
  obtain ⟨base, t, hBase, hRun, hMarks⟩ := h
  have hGenesis : ∃ g, base = { s with genesisHashIndex := g } := by
    rcases hBase with rfl | hLearn
    · exact ⟨base.genesisHashIndex, rfl⟩
    · exact ⟨_, run_learnGenesis hLearn⟩
  have hFresh' : block.blockHash ∉ base.dagSet := by
    obtain ⟨g, rfl⟩ := hGenesis
    exact hFresh
  obtain ⟨hWell, u, hVisible, hAdvances, hDone⟩ := finished_of_fresh hRun hFresh'
  refine ⟨hWell, base, u, hGenesis, hVisible, hAdvances, fun v => ?_, fun b => ?_⟩
  · rw [hMarks.latest, BlockDagStorage.latestMessageHash, hDone.latestMessagesIndex_eq]
    rfl
  · rw [hMarks.invalid, hDone.invalidBlocksIndex_eq, invalidBlocksIndex_advanced]

theorem Stopped.unwritten (hStopped : Stopped order silent faults block mode s s₁) (hWell : WellFormed block)
    (hUnwritten : LeavesUnwritten s silent faults block mode) :
    block.blockHash ∈ s₁.dagSet ∧ (mode = .invalid ∧ s₁.invalidBlocksIndex = s.invalidBlocksIndex ∨
      ChangesSlot s silent block mode ∧ s₁.latestMessagesIndex = s.latestMessagesIndex) := by
  obtain ⟨-, hIngest, hMissing⟩ := hUnwritten
  cases hStopped with
  | ingest _ hFault => exact absurd ⟨hWell, hIngest⟩ hFault
  | metadata r hTables _ _ hState =>
    obtain ⟨carrierIndex, lifecycle, rfl⟩ := hTables.exists_eq
    subst hState
    exact ⟨Finset.mem_insert_self _ _, hMissing.imp (fun h => ⟨h.1, rfl⟩) fun h => ⟨h.1, rfl⟩⟩
  | invalidBlocks r hTables _ _ _ hState =>
    obtain ⟨carrierIndex, lifecycle, rfl⟩ := hTables.exists_eq
    subst hState
    exact ⟨Finset.mem_insert_self _ _, hMissing.imp (fun h => ⟨h.1, rfl⟩) fun h => ⟨h.1, rfl⟩⟩
  | latestMessages _ hStored hIndexed hVisible =>
    refine ⟨hVisible.dagSet_eq ▸ Finset.mem_insert_self _ _, ?_⟩
    obtain ⟨hMode, hFault⟩ | ⟨hChanges, -⟩ := hMissing
    · simp [hStored, hIndexed hMode] at hFault
    · exact .inr ⟨hChanges, hVisible.latestMessagesIndex_eq⟩
  | finish u _ hStored hIndexed hVisible hAdvances =>
    obtain ⟨hMode, hFault⟩ | ⟨-, hFault⟩ := hMissing
    · simp [hStored, hIndexed hMode] at hFault
    · have hFails := hFault.resolve_left (by simp [hStored])
      exact absurd (hVisible.advanceFails_iff.mpr hFails) hAdvances

theorem not_asSingleInsert (hIndexed : Indexed s) (hUnwritten : LeavesUnwritten s silent faults block mode)
    (hStopped : Stopped order silent faults block mode s s₁) (hLearn : (learnGenesis learned).run s₁ = .ok () r)
    (hRetry : (insertInternal order silent faults' block mode).run r = .ok rep s₂) :
    ¬ AsSingleInsert order silent learned block mode s s₂ := by
  intro hSingle
  have hFresh := hUnwritten.1
  obtain ⟨hWell, base, u, ⟨g, rfl⟩, hVisible, hAdvances, hLatest, hInvalid⟩ := hSingle.exists_visible hFresh
  obtain ⟨hMem, hMissing⟩ := hStopped.unwritten hWell hUnwritten
  obtain rfl := run_learnGenesis hLearn
  have hDone := finished_of_visible hRetry hMem
  obtain ⟨hMode, hSame⟩ | ⟨hChanges, hSame⟩ := hMissing
  · have hEntry : s₂.invalidBlocksIndex block.blockHash = none := by
      rw [hDone.invalidBlocksIndex_eq]
      change s₁.invalidBlocksIndex block.blockHash = none
      rw [hSame]
      exact Option.eq_none_iff_forall_ne_some.mpr fun m h => hFresh (hIndexed.invalid _ m h)
    rw [hInvalid, hVisible.invalidBlocksIndex_eq, if_pos hMode, Function.update_self] at hEntry
    cases hEntry
  · have hRow := hIndexed.metadataStore_of_fresh hFresh
    obtain ⟨v, hNe⟩ := hVisible.exists_latest_ne hRow hChanges hAdvances
    refine hNe ?_
    rw [← hLatest, BlockDagStorage.latestMessageHash, hDone.latestMessagesIndex_eq]
    change s₁.latestMessagesIndex.lookup v = _
    rw [hSame]
    rfl

/-- After a failed insert of a block, the retry that succeeds has the effect of one insert exactly when the first
had left nothing unwritten behind the block's visibility. -/
theorem asSingleInsert_retry_iff (hIndexed : Indexed s)
    (hFirst : (insertInternal order silent faults block mode).run s = .error e s₁)
    (hLearn : (learnGenesis learned).run s₁ = .ok () r)
    (hRetry : (insertInternal order silent faults' block mode).run r = .ok rep s₂) :
    AsSingleInsert order silent learned block mode s s₂ ↔ ¬ LeavesUnwritten s silent faults block mode := by
  by_cases hFresh : block.blockHash ∈ s.dagSet
  · refine iff_of_true ?_ fun h => h.1 hFresh
    rw [run_insertInternal_visible hFresh] at hFirst
    have hAttempt := attempted_of_error hFirst
    obtain ⟨t, hDone, hMarks⟩ := sameMarks_of_attempted hAttempt (hAttempt.dagSet_eq ▸ hFresh) hLearn hRetry
    exact ⟨s, t, .inl rfl, (run_insertInternal_visible hFresh).trans hDone.run, hMarks⟩
  · have hStopped := stopped_of_error hFirst hFresh
    refine ⟨fun hSingle hUnwritten => not_asSingleInsert hIndexed hUnwritten hStopped hLearn hRetry hSingle, fun hNot => ?_⟩
    cases hStopped with
    | ingest hTables _ => exact asSingleInsert_of_ingest hFresh hLearn hRetry hTables
    | metadata r₀ hTables hReady hFault hState =>
      have hMode : mode ≠ .invalid := fun hMode => hNot ⟨hFresh, hReady.2, .inl ⟨hMode, .inl hFault⟩⟩
      have hSame : ¬ ChangesSlot s silent block mode := fun h => hNot ⟨hFresh, hReady.2, .inr ⟨h, .inl hFault⟩⟩
      refine asSingleInsert_of_metadata hFresh hLearn hRetry hIndexed hReady.1 hSame hMode ?_
      obtain ⟨carrierIndex, lifecycle, rfl⟩ := hTables.exists_eq
      subst hState
      exact SameButTables.refl _
    | invalidBlocks r₀ _ hReady hMode hFault =>
      exact absurd ⟨hFresh, hReady.2, .inl ⟨hMode, .inr hFault⟩⟩ hNot
    | latestMessages hReady _ _ hVisible hFault =>
      have hSame : ¬ ChangesSlot s silent block mode :=
        fun h => hNot ⟨hFresh, hReady.2, .inr ⟨h, .inr (hVisible.advanceFails_iff.mp hFault)⟩⟩
      exact asSingleInsert_of_latestMessages hFresh hLearn hRetry hIndexed hReady.1 hSame hVisible
    | finish u hWell _ _ hVisible hAdvances hAttempt =>
      exact asSingleInsert_of_finish hFresh hLearn hRetry hWell hVisible hAdvances hAttempt

end retry

def bondingBlock : BlockMessage ProcessedDeploy Unit where
  blockHash := List.replicate 32 7
  header := ⟨[], 0, 1, []⟩
  body :=
    { state := ⟨[], [], [⟨List.replicate 65 2, 10⟩], 5⟩
      deploys := [⟨[1], 0, false⟩]
      rejectedDeploys := []
      systemDeploys := []
      extraBytes := []
      appliedFromScope := []
      mergeBase := [] }
  justifications := []
  sender := List.replicate 65 1
  seqNum := 1
  sig := []
  sigAlgorithm := ""
  shardId := ""
  extraBytes := []

theorem indexed_empty : Indexed .empty := ⟨(fun _ _ h => nomatch h), (fun _ _ h => nomatch h)⟩

/-- The first insert fails for want of a placeholder; after the genesis hash is learned the retry succeeds and leaves
both slots empty. -/
theorem insert_retry_loses_slots :
    ∃ s₁ r s₂ rep e, (insertInternal .ofToList .none .none bondingBlock .normal).run .empty = .error e s₁ ∧
      (learnGenesis (some (List.replicate 32 9))).run s₁ = .ok () r ∧
      (insertInternal .ofToList .none .none bondingBlock .normal).run r = .ok rep s₂ ∧
      s₂.latestMessageHash (List.replicate 65 1) = none ∧
      ¬ AsSingleInsert .ofToList .none (some (List.replicate 32 9)) bondingBlock .normal .empty s₂ := by
  have hUnwritten : LeavesUnwritten .empty .none .none bondingBlock .normal := by
    refine ⟨Finset.notMem_empty _, ingestSucceeds_none bondingBlock .normal, .inr ⟨⟨by decide, .inl (by decide)⟩, .inr ?_⟩⟩
    exact ⟨by decide, .inr ⟨by decide, .inr (by decide)⟩⟩
  have hRuns : ∃ s₁ r s₂ rep e,
      (insertInternal .ofToList .none .none bondingBlock .normal).run .empty = .error e s₁ ∧
      (learnGenesis (some (List.replicate 32 9))).run s₁ = .ok () r ∧
      (insertInternal .ofToList .none .none bondingBlock .normal).run r = .ok rep s₂ ∧
      s₂.latestMessageHash (List.replicate 65 1) = none := ⟨_, _, _, _, _, rfl, rfl, rfl, rfl⟩
  obtain ⟨s₁, r, s₂, rep, e, hFirst, hLearn, hRetry, hSlot⟩ := hRuns
  have hStopped := stopped_of_error hFirst (Finset.notMem_empty _)
  exact ⟨s₁, r, s₂, rep, e, hFirst, hLearn, hRetry, hSlot,
    not_asSingleInsert indexed_empty hUnwritten hStopped hLearn hRetry⟩

/-- A first insert that fails on the carrier index has written no slot; its retry is as good as one insert. -/
theorem asSingleInsert_retry_carriers :
    ∃ s₁ s₂ rep e, (insertInternal .ofToList .none { StoreFaults.none with carriers := fun _ => true } bondingBlock
        .normal).run { BlockDagStorage.empty with genesisHashIndex := some (List.replicate 32 9) } = .error e s₁ ∧
      (insertInternal .ofToList .none .none bondingBlock .normal).run s₁ = .ok rep s₂ ∧
      AsSingleInsert .ofToList .none none bondingBlock .normal
        { BlockDagStorage.empty with genesisHashIndex := some (List.replicate 32 9) } s₂ := by
  have hRuns : ∃ s₁ s₂ rep e, (insertInternal .ofToList .none { StoreFaults.none with carriers := fun _ => true }
        bondingBlock .normal).run { BlockDagStorage.empty with genesisHashIndex := some (List.replicate 32 9) } =
          .error e s₁ ∧
      (insertInternal .ofToList .none .none bondingBlock .normal).run s₁ = .ok rep s₂ := ⟨_, _, _, _, rfl, rfl⟩
  obtain ⟨s₁, s₂, rep, e, hFirst, hRetry⟩ := hRuns
  have hIndexed : Indexed { BlockDagStorage.empty with genesisHashIndex := some (List.replicate 32 9) } :=
    ⟨indexed_empty.stored, indexed_empty.invalid⟩
  refine ⟨s₁, s₂, rep, e, hFirst, hRetry, (asSingleInsert_retry_iff hIndexed hFirst rfl hRetry).mpr ?_⟩
  rintro ⟨-, ⟨hCarriers, -⟩, -⟩
  exact absurd (hCarriers ⟨[1], 0, false⟩ List.mem_cons_self) (by decide)

end F1r3Node.DagStorage
