import F1r3Node.DagStorage.InsertSpec

/-! # Inserts that succeed

An insert without faults leaves a held block as it is, and otherwise adds one record, moves slots of latest messages
and marks an approved block.
-/

namespace F1r3Node.DagStorage

open Shared Dag
open Casper (BlockMessage)

variable {S : Type} {order : HashOrder} {block : BlockMessage ProcessedDeploy S} {mode : InsertMode}
  {s s' : BlockDagStorage}

def InsertsTo (order : HashOrder) (block : BlockMessage ProcessedDeploy S) (mode : InsertMode) (s s' : BlockDagStorage) :
    Prop :=
  ∃ rep, (insertInternal order .none .none block mode).run s = .ok rep s'

variable {hash : Bytes}

theorem lookup_eq_some {m : BlockMetadata} :
    s.lookup hash = some m ↔ hash ∈ s.dagSet ∧ (s.metadataStore hash).map (·.metadata) = some m := by
  rw [BlockDagStorage.lookup]
  split
  · next h => exact (and_iff_right h).symm
  · next h => exact iff_of_false (by simp) fun hBoth => h hBoth.1

def BlockDagStorage.slotAfter (s : BlockDagStorage) (block : BlockMessage ProcessedDeploy S) (mode : InsertMode)
    (v : Bytes) : Option Bytes :=
  if s.newLatestFromSender .none block ≠ [] ∧ v = block.sender then some block.blockHash
  else if v ∈ s.newlyBondedUnseen .none block then
    (s.addToDagState (metadataFromBlock block (mode = .invalid))).knownGenesis
  else s.latestMessageHash v

structure Added (block : BlockMessage ProcessedDeploy S) (mode : InsertMode) (s s' : BlockDagStorage) : Prop where
  wellFormed : WellFormed block
  dagSet_eq : s'.dagSet = insert block.blockHash s.dagSet
  record_self : (s'.metadataStore block.blockHash).map (·.metadata) = some (metadataFromBlock block (mode = .invalid))
  record_of_ne : ∀ h, h ≠ block.blockHash → (s'.metadataStore h).map (·.metadata) = (s.metadataStore h).map (·.metadata)
  latest_eq : mode ≠ .settledHistory → ∀ v, s'.latestMessageHash v = s.slotAfter block mode v
  latest_settled : mode = .settledHistory → ∀ v, s'.latestMessageHash v = s.latestMessageHash v
  placeholder : mode ≠ .settledHistory → s.newlyBondedUnseen .none block ≠ [] →
    (s.addToDagState (metadataFromBlock block (mode = .invalid))).knownGenesis ≠ none

theorem record_finalizedMarks {number : Int} {indirectly : Finset Bytes} (h : Bytes) :
    ((s.finalizedMarks order hash number indirectly).metadataStore h).map (·.metadata) =
      (s.metadataStore h).map (·.metadata) := by
  change ((s.metadataStore h).map _).map _ = _
  rw [Option.map_map]
  congr 1
  funext row
  simp only [Function.comp_apply]
  split
  · rfl
  · split <;> rfl

theorem Finished.record_eq (h : Finished order hash mode s s') (b : Bytes) :
    (s'.metadataStore b).map (·.metadata) = (s.metadataStore b).map (·.metadata) := by
  cases h with
  | kept _ hEq => rw [hEq]
  | marked row _ _ hEq =>
    subst hEq
    exact record_finalizedMarks b

theorem Finished.dagSet_eq (h : Finished order hash mode s s') : s'.dagSet = s.dagSet := by
  cases h with
  | kept _ hEq => rw [hEq]
  | marked row _ _ hEq => rw [hEq]; rfl

theorem Finished.lookup_eq (h : Finished order hash mode s s') (x : Bytes) :
    s'.lookup x = s.lookup x := by
  rw [BlockDagStorage.lookup, BlockDagStorage.lookup, h.dagSet_eq, h.record_eq]

def BlockDagStorage.RowsMatch (s : BlockDagStorage) : Prop := ∀ x, x ∈ s.dagSet ↔ s.metadataStore x ≠ none

theorem BlockDagStorage.RowsMatch.of_records (hRows : s.RowsMatch) (hSet : s'.dagSet = s.dagSet)
    (hRecords : ∀ x, (s'.metadataStore x).map (·.metadata) = (s.metadataStore x).map (·.metadata)) : s'.RowsMatch := by
  intro x
  have hNone : s'.metadataStore x = none ↔ s.metadataStore x = none := by
    rw [← Option.map_eq_none_iff, hRecords, Option.map_eq_none_iff]
  rw [hSet, hRows x, ne_eq, ne_eq, hNone]

theorem Finished.latestMessageHash_eq (h : Finished order hash mode s s') (v : Bytes) :
    s'.latestMessageHash v = s.latestMessageHash v := by
  rw [BlockDagStorage.latestMessageHash, h.latestMessagesIndex_eq]
  rfl

theorem InsertsTo.held (h : InsertsTo order block mode s s') (hMem : block.blockHash ∈ s.dagSet) :
    Finished order block.blockHash mode s s' := by
  obtain ⟨rep, hRun⟩ := h
  exact finished_of_visible hRun hMem

theorem InsertsTo.added (h : InsertsTo order block mode s s') (hFresh : block.blockHash ∉ s.dagSet)
    (hRow : s.metadataStore block.blockHash = none) : Added block mode s s' := by
  obtain ⟨rep, hRun⟩ := h
  obtain ⟨hWell, u, hVisible, hAdvances, hDone⟩ := finished_of_fresh hRun hFresh
  have hUnseen : u.newlyBondedUnseen .none block = s.newlyBondedUnseen .none block :=
    newlyBondedUnseen_congr hVisible.latestMessagesIndex_eq
  have hSeeds : mode ≠ .settledHistory → s.newlyBondedUnseen .none block ≠ [] →
      (s.addToDagState (metadataFromBlock block (mode = .invalid))).knownGenesis ≠ none := by
    intro hMode hNe hNone
    exact hAdvances ⟨hMode, .inr ⟨hUnseen ▸ hNe, .inr (hVisible.knownGenesis_eq.trans hNone)⟩⟩
  refine ⟨hWell, ?_, ?_, ?_, ?_, ?_, hSeeds⟩
  · rw [hDone.dagSet_eq, dagSet_advanced, hVisible.dagSet_eq]
  · rw [hDone.record_eq, metadataStore_advanced, hVisible.metadataStore_eq, Function.update_self]
    rfl
  · intro h hNe
    rw [hDone.record_eq, metadataStore_advanced, hVisible.metadataStore_eq, Function.update_of_ne hNe]
  · intro hMode v
    have hSlot : u.latestMessageHash v = s.latestMessageHash v := by
      rw [BlockDagStorage.latestMessageHash, BlockDagStorage.latestMessageHash, hVisible.latestMessagesIndex_eq]
    rw [hDone.latestMessageHash_eq, latestMessageHash_advanced hMode, hVisible.newLatestFromSender_eq hRow, hUnseen,
      hVisible.knownGenesis_eq, hSlot]
    · rfl
    · rw [hUnseen, hVisible.knownGenesis_eq]
      exact hSeeds hMode
  · intro hMode v
    rw [hDone.latestMessageHash_eq, BlockDagStorage.advanced, if_pos hMode, BlockDagStorage.latestMessageHash,
      hVisible.latestMessagesIndex_eq]
    rfl

theorem Added.lookup_self (h : Added block mode s s') :
    s'.lookup block.blockHash = some (metadataFromBlock block (mode = .invalid)) := by
  refine lookup_eq_some.mpr ⟨?_, h.record_self⟩
  rw [h.dagSet_eq]
  exact Finset.mem_insert_self _ _

theorem Added.lookup_of_ne (h : Added block mode s s') {x : Bytes} (hNe : x ≠ block.blockHash) :
    s'.lookup x = s.lookup x := by
  rw [BlockDagStorage.lookup, BlockDagStorage.lookup, h.dagSet_eq, h.record_of_ne x hNe]
  simp [hNe]

theorem Added.rowsMatch (h : Added block mode s s') (hRows : s.RowsMatch) : s'.RowsMatch := by
  intro x
  by_cases hEq : x = block.blockHash
  · subst hEq
    refine iff_of_true (h.dagSet_eq ▸ Finset.mem_insert_self _ _) fun hNone => ?_
    have hSelf := h.record_self
    rw [hNone] at hSelf
    cases hSelf
  · have hNone : s'.metadataStore x = none ↔ s.metadataStore x = none := by
      rw [← Option.map_eq_none_iff, h.record_of_ne x hEq, Option.map_eq_none_iff]
    rw [h.dagSet_eq, Finset.mem_insert, or_iff_right hEq, hRows x, ne_eq, ne_eq, hNone]

section slots

variable {b : BlockMessage ProcessedDeploy S}

theorem newLatestFromSender_ne_nil {silent : SilentFaults} :
    s.newLatestFromSender silent b ≠ [] ↔ b.sender ≠ [] ∧ s.senderAdvances silent b = true := by
  rw [BlockDagStorage.newLatestFromSender]
  split
  · next h => exact iff_of_true (List.cons_ne_nil _ _) h
  · next h => exact iff_of_false (fun hNe => hNe rfl) h

theorem exists_of_not_senderAdvances (h : s.senderAdvances .none b = false) :
    ∃ x row, s.latestMessageHash b.sender = some x ∧ s.metadataStore x = some row ∧
      b.seqNum.toInt < row.metadata.sequenceNumber := by
  rw [BlockDagStorage.senderAdvances] at h
  cases hSlot : s.latestMessagesIndex.lookup b.sender with
  | none =>
    rw [hSlot] at h
    cases h
  | some x =>
    cases hRow : s.metadataStore x with
    | none => simp [SilentFaults.none, hSlot, hRow] at h
    | some row =>
      simp only [SilentFaults.none, Bool.false_eq_true, if_false, hSlot, hRow] at h
      exact ⟨x, row, hSlot, hRow, not_le.mp (of_decide_eq_false h)⟩

variable {x : Bytes}

theorem le_of_senderAdvances {row : MetadataRow} (h : s.senderAdvances .none b = true)
    (hSlot : s.latestMessageHash b.sender = some x) (hRow : s.metadataStore x = some row) :
    row.metadata.sequenceNumber ≤ b.seqNum.toInt := by
  rw [BlockDagStorage.latestMessageHash] at hSlot
  simp only [BlockDagStorage.senderAdvances, SilentFaults.none, Bool.false_eq_true, if_false, hSlot, hRow] at h
  exact of_decide_eq_true h

theorem not_mem_newlyBondedUnseen {silent : SilentFaults} {v : Bytes} (h : s.latestMessageHash v = some x) :
    v ∉ s.newlyBondedUnseen silent b := by
  intro hMem
  rw [BlockDagStorage.newlyBondedUnseen, List.mem_filter, decide_eq_true_iff] at hMem
  have hNone : s.latestMessageHash v = none := hMem.2.2.2
  rw [h] at hNone
  cases hNone

theorem slotAfter_of_some {mode : InsertMode} {v : Bytes} (h : s.latestMessageHash v = some x) :
    s.slotAfter b mode v = if s.newLatestFromSender .none b ≠ [] ∧ v = b.sender then some b.blockHash else some x := by
  rw [BlockDagStorage.slotAfter, if_neg (not_mem_newlyBondedUnseen h), h]

end slots

end F1r3Node.DagStorage
