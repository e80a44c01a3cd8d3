import F1r3Node.DagStorage.RepeatDeploy
import F1r3Node.Lib.Fallible

/-! # The carrier index over the history of a node

A pruning walk drops the entries below its cutoff, the last finalized height less the deploy lifespan, and the index
answers for a window that starts at or above it.
-/

namespace F1r3Node.DagStorage

open Shared Dag Lib.Stateful
open Casper (BlockMessage)
open RepeatDeploy (parentsOf getParentsMetadata earliestBlockNumber InScan Readable FloorContext IndexFaults repeatDeploy
  exactRepeatDeploy)

variable {S : Type}

namespace CarrierIndex

variable {index : CarrierIndex} {sig sig' hash : Bytes} {height : Int} {e : CarrierEntry}

theorem row_recordOnce (index : CarrierIndex) (sig : Bytes) (height : Int) (hash sig' : Bytes) :
    (index.recordOnce sig height hash).row sig' =
      if sig' = sig ∧ ∀ e ∈ index.row sig, e.blockHash ≠ hash then index.row sig ++ [⟨height, hash⟩]
      else index.row sig' := by
  rw [recordOnce]
  split
  · next hAny =>
    obtain ⟨e, hMem, hHash⟩ := List.any_eq_true.mp hAny
    rw [if_neg fun h => h.2 e hMem (of_decide_eq_true hHash)]
  · next hNone =>
    have hNew : ∀ e ∈ index.row sig, e.blockHash ≠ hash := by
      intro e hMem hHash
      exact hNone (List.any_eq_true.mpr ⟨e, hMem, decide_eq_true hHash⟩)
    change ((Function.update index.carriers sig _) sig').getD [] = _
    by_cases hEq : sig' = sig
    · rw [if_pos ⟨hEq, hNew⟩, hEq, Function.update_self]
      rfl
    · rw [if_neg fun h => hEq h.1, Function.update_of_ne hEq]
      rfl

theorem mem_row_recordOnce (h : e ∈ (index.recordOnce sig height hash).row sig') :
    e ∈ index.row sig' ∨ e = ⟨height, hash⟩ := by
  rw [row_recordOnce] at h
  split at h
  · next hNew =>
    rw [hNew.1]
    exact (List.mem_append.mp h).imp_right List.mem_singleton.mp
  · exact .inl h

theorem mem_recordOnce_of_mem (h : e ∈ index.row sig') : e ∈ (index.recordOnce sig height hash).row sig' := by
  rw [row_recordOnce]
  split
  · next hNew => exact List.mem_append_left _ (hNew.1 ▸ h)
  · exact h

theorem exists_mem_recordOnce (index : CarrierIndex) (sig : Bytes) (height : Int) (hash : Bytes) :
    ∃ e ∈ (index.recordOnce sig height hash).row sig, e.blockHash = hash := by
  rw [row_recordOnce]
  split
  · exact ⟨⟨height, hash⟩, List.mem_append_right _ (List.mem_singleton_self _), rfl⟩
  · next hOld => simpa using hOld

theorem lastPrune_recordOnce : (index.recordOnce sig height hash).lastPrune = index.lastPrune := by
  rw [recordOnce]
  split <;> rfl

theorem pruneBelow_cases (index : CarrierIndex) (cutoff : Int) :
    index.pruneBelow cutoff = index ∨
      (∀ last, index.lastPrune = some last → last ≤ cutoff) ∧ (index.pruneBelow cutoff).lastPrune = some cutoff ∧
        ∀ sig, (index.pruneBelow cutoff).row sig = (index.row sig).filter (cutoff ≤ ·.height) := by
  rw [pruneBelow]
  split
  · exact .inl rfl
  · next hStride =>
    refine .inr ⟨fun last hLast => ?_, rfl, fun sig => ?_⟩
    · rw [hLast, Option.any_some, decide_eq_true_iff] at hStride
      rw [pruneStride] at hStride
      omega
    · change ((index.carriers sig).bind fun row => _).getD [] = _
      rw [row]
      cases index.carriers sig with
      | none => rfl
      | some entries =>
        dsimp only [Option.bind_some, Option.getD_some]
        split
        · next hAll => exact (List.filter_sublist.eq_of_length hAll).symm
        · split
          · next hEmpty => exact (List.isEmpty_iff.mp hEmpty).symm
          · rfl

end CarrierIndex

def recordAll (block : BlockMessage ProcessedDeploy S) (deploys : List ProcessedDeploy) (index : CarrierIndex) :
    CarrierIndex :=
  deploys.foldl (fun index pd => index.recordOnce pd.sig block.body.state.blockNumber.toInt block.blockHash) index

section recordAll

variable {block : BlockMessage ProcessedDeploy S} {deploys : List ProcessedDeploy} {index : CarrierIndex}

theorem recordAll_induction {P : CarrierIndex → Prop} (h : P index)
    (hStep : ∀ index sig, P index → P (index.recordOnce sig block.body.state.blockNumber.toInt block.blockHash)) :
    P (recordAll block deploys index) := by
  induction deploys generalizing index with
  | nil => exact h
  | cons pd deploys ih => exact ih (hStep index pd.sig h)

theorem exists_mem_recordAll {pd : ProcessedDeploy} (hpd : pd ∈ deploys) :
    ∃ e ∈ (recordAll block deploys index).row pd.sig, e.blockHash = block.blockHash := by
  induction deploys generalizing index with
  | nil => cases hpd
  | cons head deploys ih =>
    obtain rfl | hTail := List.mem_cons.mp hpd
    · have hHead := CarrierIndex.exists_mem_recordOnce index pd.sig block.body.state.blockNumber.toInt block.blockHash
      change ∃ e ∈ (recordAll block deploys (index.recordOnce pd.sig _ block.blockHash)).row pd.sig, _
      refine recordAll_induction (P := fun index => ∃ e ∈ index.row pd.sig, e.blockHash = block.blockHash) hHead
        fun index sig hIndex => ?_
      obtain ⟨e, hMem, hHash⟩ := hIndex
      exact ⟨e, CarrierIndex.mem_recordOnce_of_mem hMem, hHash⟩
    · exact ih hTail

variable {silent : SilentFaults} {faults : StoreFaults} {mode : InsertMode} {order : HashOrder} {s s' : BlockDagStorage}

theorem foldl_carrierIndex {α : Type} (items : List α) (write : α → BlockDagStorage → BlockDagStorage)
    (hWrite : ∀ item s, (write item s).carrierIndex = s.carrierIndex) :
    (items.foldl (fun s item => write item s) s).carrierIndex = s.carrierIndex := by
  induction items generalizing s with
  | nil => rfl
  | cons item items ih => rw [List.foldl_cons, ih, hWrite]

theorem foldl_recordCarriers (deploys : List ProcessedDeploy) :
    (deploys.foldl (fun s pd => s.recordCarriers block pd) s).carrierIndex = recordAll block deploys s.carrierIndex := by
  induction deploys generalizing s with
  | nil => rfl
  | cons pd deploys ih => exact ih

theorem carrierIndex_ingest (h : (ingest faults block mode).run s = .ok () s') :
    s'.carrierIndex = recordAll block block.body.deploys s.carrierIndex := by
  obtain ⟨_, t, hCarriers, hLifecycle⟩ := run_bind_eq_ok.mp h
  obtain ⟨-, rfl⟩ := run_writeEach_eq_ok.mp hCarriers
  have hRecorded : (block.body.deploys.foldl (fun s pd => s.recordCarriers block pd) s).carrierIndex =
      recordAll block block.body.deploys s.carrierIndex := foldl_recordCarriers block.body.deploys
  rw [← hRecorded]
  rw [ingestLifecycle] at hLifecycle
  split at hLifecycle
  · rw [← (EStateM.Result.ok.inj hLifecycle).2]
  · obtain ⟨_, t', hIncluded, hRejected⟩ := run_bind_eq_ok.mp hLifecycle
    obtain ⟨-, rfl⟩ := run_writeEach_eq_ok.mp hIncluded
    obtain ⟨-, rfl⟩ := run_writeEach_eq_ok.mp hRejected
    exact (foldl_carrierIndex block.body.rejectedDeploys
      (fun rd s => s.appendLifecycle block rd.sig none (.rejected rd.duplicate)) fun _ _ => rfl).trans
      (foldl_carrierIndex block.body.deploys (fun pd s =>
        s.appendLifecycle block pd.sig (some pd.validAfterBlockNumber) (.included pd.isFailed)) fun _ _ => rfl)

theorem Finished.carrierIndex_eq {hash : Bytes} (h : Finished order hash mode s s') :
    s'.carrierIndex = s.carrierIndex := by
  cases h with
  | kept _ hEq => rw [hEq]
  | marked _ _ _ hEq => rw [hEq]; rfl

theorem carrierIndex_insertFresh (h : (insertFresh silent faults block mode).run s = .ok () s') :
    s'.carrierIndex = recordAll block block.body.deploys s.carrierIndex := by
  obtain ⟨_, r₀, hFormat, h⟩ := run_bind_eq_ok.mp h
  obtain ⟨-, rfl⟩ := run_checkFormat_eq_ok.mp hFormat
  obtain ⟨_, r, hIngest, h⟩ := run_bind_eq_ok.mp h
  obtain ⟨_, t₀, hAdd, h⟩ := run_bind_eq_ok.mp h
  obtain ⟨-, rfl⟩ := run_add_eq_ok.mp hAdd
  obtain ⟨_, t, hInvalid, h⟩ := run_bind_eq_ok.mp h
  obtain ⟨-, rfl⟩ := run_indexInvalid_eq_ok.mp hInvalid
  obtain ⟨-, rfl⟩ := run_advanceLatestMessages_eq_ok.mp h
  rw [← carrierIndex_ingest hIngest, BlockDagStorage.advanced]
  split
  · split <;> rfl
  · split <;> rfl

theorem InsertsTo.recorded (h : InsertsTo order block mode s s') (hFresh : block.blockHash ∉ s.dagSet) :
    s'.carrierIndex = recordAll block block.body.deploys s.carrierIndex ∧
      s'.lookup block.blockHash = some (metadataFromBlock block (mode = .invalid)) ∧
      ∀ x, x ≠ block.blockHash → s'.lookup x = s.lookup x := by
  obtain ⟨rep, hRun⟩ := h
  obtain ⟨-, u, hVisible, -, hDone⟩ := finished_of_fresh hRun hFresh
  rw [run_insertInternal_fresh hFresh] at hRun
  obtain ⟨_, v, hInsert, hFinish⟩ := run_bind_eq_ok.mp hRun
  refine ⟨?_, ?_, fun x hNe => ?_⟩
  · rw [(finished_of_ok hFinish).carrierIndex_eq, carrierIndex_insertFresh hInsert]
  · rw [hDone.lookup_eq, BlockDagStorage.lookup, dagSet_advanced, metadataStore_advanced, hVisible.dagSet_eq,
      hVisible.metadataStore_eq, if_pos (Finset.mem_insert_self _ _), Function.update_self]
    rfl
  · rw [hDone.lookup_eq, BlockDagStorage.lookup, BlockDagStorage.lookup, dagSet_advanced, metadataStore_advanced,
      hVisible.dagSet_eq, hVisible.metadataStore_eq, Function.update_of_ne hNe]
    simp [hNe]

end recordAll

/-- A node with the hashes whose carriers it has recorded and the height of its last finalized block. -/
structure CarrierState (S : Type) where
  node : NodeState S
  recorded : Finset Bytes
  lfbHeight : Option Int

def CarrierState.withIndex (state : CarrierState S) (index : CarrierIndex) : CarrierState S :=
  { state with node := { state.node with dag := { state.node.dag with carrierIndex := index } } }

def CarrierState.recordedAfter (state : CarrierState S) (hash : Bytes) : Finset Bytes :=
  if hash ∈ state.node.dag.dagSet then state.recorded else insert hash state.recorded

section history

variable (order : HashOrder) (content : Bytes → BlockMessage ProcessedDeploy S) (deployLifespan : Int)

inductive CarrierStep (state : CarrierState S) : CarrierState S → Prop where
  | insert {block : BlockMessage ProcessedDeploy S} {mode : InsertMode} {dag : BlockDagStorage}
      (named : content block.blockHash = block) (insert : InsertsTo order block mode state.node.dag dag) :
      CarrierStep state
        { state with node := state.node.persist block dag, recorded := state.recordedAfter block.blockHash }
  /-- At the start of a node that holds blocks, or when the root of the history is known. -/
  | recordCoverage (lowestHeld : Int) :
      CarrierStep state (state.withIndex (state.node.dag.carrierIndex.setWatermarkIfAbsent lowestHeld))
  /-- When the last finalized block has advanced. -/
  | prune (lfbHeight : Int) (advances : ∀ last, state.lfbHeight = some last → last ≤ lfbHeight) :
      CarrierStep state { state.withIndex (state.node.dag.carrierIndex.pruneBelow (lfbHeight - deployLifespan)) with
        lfbHeight := some lfbHeight }

/-- The histories of a node that may hold blocks from before it had the index. -/
inductive CarrierHistory : CarrierState S → Prop where
  | initial {node : NodeState S} (keyed : ∀ hash m, node.dag.lookup hash = some m → m.blockHash = hash)
      (empty : node.dag.carrierIndex = ⟨fun _ => none, none, none⟩) : CarrierHistory ⟨node, ∅, none⟩
  | step {state state' : CarrierState S} (history : CarrierHistory state)
      (step : CarrierStep order content deployLifespan state state') : CarrierHistory state'

end history

/-- What a recorded block has left in the stores: its carriers are in the index unless a pruning walk has passed it. -/
structure Carried (content : Bytes → BlockMessage ProcessedDeploy S) (node : NodeState S) (hash : Bytes) : Prop where
  body : node.blockStore hash = some (content hash)
  record : ∃ m, node.dag.lookup hash = some m ∧ m.blockNumber = (content hash).body.state.blockNumber.toInt
  carriers : ∀ pd ∈ (content hash).body.deploys, (∃ e ∈ node.dag.carrierIndex.row pd.sig, e.blockHash = hash) ∨
    ∃ cutoff, node.dag.carrierIndex.lastPrune = some cutoff ∧
      (content hash).body.state.blockNumber.toInt < cutoff

structure CarrierInv (content : Bytes → BlockMessage ProcessedDeploy S) (state : CarrierState S) : Prop where
  keyed : ∀ hash m, state.node.dag.lookup hash = some m → m.blockHash = hash
  heights : ∀ sig, ∀ e ∈ state.node.dag.carrierIndex.row sig,
    e.height = (content e.blockHash).body.state.blockNumber.toInt
  carried : ∀ hash ∈ state.recorded, Carried content state.node hash

section invariant

variable {order : HashOrder} {content : Bytes → BlockMessage ProcessedDeploy S} {deployLifespan : Int}
  {state state' : CarrierState S}

theorem CarrierInv.insert_held (h : CarrierInv content state) {block : BlockMessage ProcessedDeploy S}
    {mode : InsertMode} {dag : BlockDagStorage} (hNamed : content block.blockHash = block)
    (hInsert : InsertsTo order block mode state.node.dag dag) (hHeld : block.blockHash ∈ state.node.dag.dagSet) :
    CarrierInv content { state with node := state.node.persist block dag } := by
  have hDone := hInsert.held hHeld
  have hIndex := hDone.carrierIndex_eq
  refine ⟨fun hash m hLookup => h.keyed hash m (hDone.lookup_eq hash ▸ hLookup), fun sig e hMem => ?_,
    fun hash hMem => ?_⟩
  · exact h.heights sig e (hIndex ▸ hMem)
  · obtain ⟨hBody, ⟨m, hLookup, hNumber⟩, hCarriers⟩ := h.carried hash hMem
    refine ⟨?_, ⟨m, (hDone.lookup_eq hash).trans hLookup, hNumber⟩, fun pd hpd => ?_⟩
    · by_cases hEq : hash = block.blockHash
      · rw [hEq, NodeState.blockStore_persist_self, hNamed]
      · rw [NodeState.blockStore_persist_of_ne _ _ hEq, hBody]
    · change (∃ e ∈ dag.carrierIndex.row pd.sig, _) ∨ ∃ cutoff, dag.carrierIndex.lastPrune = some cutoff ∧ _
      rw [hIndex]
      exact hCarriers pd hpd

theorem CarrierInv.insert_fresh (h : CarrierInv content state) {block : BlockMessage ProcessedDeploy S}
    {mode : InsertMode} {dag : BlockDagStorage} (hNamed : content block.blockHash = block)
    (hInsert : InsertsTo order block mode state.node.dag dag) (hFresh : block.blockHash ∉ state.node.dag.dagSet) :
    CarrierInv content
      { state with node := state.node.persist block dag, recorded := insert block.blockHash state.recorded } := by
  obtain ⟨hIndex, hSelf, hOther⟩ := hInsert.recorded hFresh
  have hPrune : dag.carrierIndex.lastPrune = state.node.dag.carrierIndex.lastPrune := by
    rw [hIndex]
    exact recordAll_induction (P := fun index => index.lastPrune = state.node.dag.carrierIndex.lastPrune) rfl
      fun index sig hEq => CarrierIndex.lastPrune_recordOnce.trans hEq
  have hKept : ∀ sig e, e ∈ state.node.dag.carrierIndex.row sig → e ∈ dag.carrierIndex.row sig := by
    intro sig e hMem
    rw [hIndex]
    exact recordAll_induction (P := fun index => e ∈ index.row sig) hMem
      fun index sig' hOld => CarrierIndex.mem_recordOnce_of_mem hOld
  refine ⟨fun hash m hLookup => ?_, ?_, fun hash hMem => ?_⟩
  · by_cases hEq : hash = block.blockHash
    · rw [hEq] at hLookup ⊢
      exact (Option.some.inj (hSelf.symm.trans hLookup)) ▸ rfl
    · exact h.keyed hash m (hOther hash hEq ▸ hLookup)
  · change ∀ sig, ∀ e ∈ dag.carrierIndex.row sig, _
    rw [hIndex]
    refine recordAll_induction (P := fun index => ∀ sig, ∀ e ∈ index.row sig,
      e.height = (content e.blockHash).body.state.blockNumber.toInt) h.heights fun index sig hOld sig' e hMem => ?_
    obtain hMem | rfl := CarrierIndex.mem_row_recordOnce hMem
    · exact hOld sig' e hMem
    · exact congrArg (·.body.state.blockNumber.toInt) hNamed.symm
  · by_cases hEq : hash = block.blockHash
    · subst hEq
      refine ⟨?_, ⟨_, hSelf, congrArg (·.body.state.blockNumber.toInt) hNamed.symm⟩, fun pd hpd => .inl ?_⟩
      · rw [NodeState.blockStore_persist_self, hNamed]
      · rw [hNamed] at hpd
        change ∃ e ∈ dag.carrierIndex.row pd.sig, _
        rw [hIndex]
        exact exists_mem_recordAll hpd
    · obtain ⟨hBody, ⟨m, hLookup, hNumber⟩, hCarriers⟩ :=
        h.carried hash ((Finset.mem_insert.mp hMem).resolve_left hEq)
      refine ⟨?_, ⟨m, (hOther hash hEq).trans hLookup, hNumber⟩, fun pd hpd => ?_⟩
      · rw [NodeState.blockStore_persist_of_ne _ _ hEq, hBody]
      · obtain ⟨e, he, hHash⟩ | ⟨cutoff, hLast, hBelow⟩ := hCarriers pd hpd
        · exact .inl ⟨e, hKept pd.sig e he, hHash⟩
        · exact .inr ⟨cutoff, hPrune.trans hLast, hBelow⟩

theorem CarrierInv.prune (h : CarrierInv content state) (cutoff : Int) :
    CarrierInv content (state.withIndex (state.node.dag.carrierIndex.pruneBelow cutoff)) := by
  obtain hSame | ⟨hAbove, hLast, hRow⟩ := state.node.dag.carrierIndex.pruneBelow_cases cutoff
  · rw [hSame]
    exact h
  · refine ⟨h.keyed, fun sig e hMem => ?_, fun hash hMem => ?_⟩
    · have hOld : e ∈ state.node.dag.carrierIndex.row sig := List.mem_of_mem_filter (hRow sig ▸ hMem)
      exact h.heights sig e hOld
    · obtain ⟨hBody, hRecord, hCarriers⟩ := h.carried hash hMem
      refine ⟨hBody, hRecord, fun pd hpd => ?_⟩
      obtain ⟨e, he, hHash⟩ | ⟨last, hOld, hBelow⟩ := hCarriers pd hpd
      · have hHeight := h.heights pd.sig e he
        rw [hHash] at hHeight
        by_cases hIn : cutoff ≤ e.height
        · refine .inl ⟨e, ?_, hHash⟩
          exact (hRow pd.sig).symm ▸ List.mem_filter.mpr ⟨he, decide_eq_true hIn⟩
        · exact .inr ⟨cutoff, hLast, by omega⟩
      · have hLe := hAbove last hOld
        exact .inr ⟨cutoff, hLast, by omega⟩

theorem CarrierInv.step (h : CarrierInv content state) (hStep : CarrierStep order content deployLifespan state state') :
    CarrierInv content state' := by
  cases hStep with
  | @insert block mode dag hNamed hInsert =>
    rw [CarrierState.recordedAfter]
    split
    · next hHeld => exact h.insert_held hNamed hInsert hHeld
    · next hFresh => exact h.insert_fresh hNamed hInsert hFresh
  | recordCoverage lowestHeld =>
    rw [CarrierIndex.setWatermarkIfAbsent]
    split
    · exact h
    · exact ⟨h.keyed, h.heights, fun hash hMem => ⟨(h.carried hash hMem).body, (h.carried hash hMem).record,
        (h.carried hash hMem).carriers⟩⟩
  | prune lfbHeight _ =>
    obtain ⟨hKeyed, hHeights, hCarried⟩ := h.prune (lfbHeight - deployLifespan)
    exact ⟨hKeyed, hHeights, hCarried⟩

theorem carrierInv_of_history (h : CarrierHistory order content deployLifespan state) : CarrierInv content state := by
  induction h with
  | initial keyed empty =>
    refine ⟨keyed, fun sig e hMem => ?_, fun hash hMem => absurd hMem (Finset.notMem_empty hash)⟩
    rw [empty] at hMem
    cases hMem
  | step _ hStep ih => exact ih.step hStep

end invariant

section transparency

variable {order : HashOrder} {content : Bytes → BlockMessage ProcessedDeploy S} {deployLifespan : Int}
  {state : CarrierState S} {initParents : List BlockMetadata} {earliest : Int}

/-- The ancestors in the window can be read, and they are indexed from the watermark on. Heights below zero do not
exist, so a watermark of zero claims every block. -/
structure WindowIndexed (state : CarrierState S) (initParents : List BlockMetadata) (earliest : Int) : Prop where
  readable : ∀ hash, InScan state.node.dag initParents earliest hash → Readable state.node.blockStore hash
  indexed : ∀ hash m, InScan state.node.dag initParents earliest hash → state.node.dag.lookup hash = some m →
    ∀ w, state.node.dag.carrierIndex.watermark = some w → w ≤ max m.blockNumber 0 → hash ∈ state.recorded

/-- No pruning walk has reached into the window, the walk does not begin below the window, and it meets no parent
that is not held. -/
structure WindowIntact (state : CarrierState S) (initParents : List BlockMetadata) (earliest : Int) : Prop where
  unpruned : ∀ cutoff, state.node.dag.carrierIndex.lastPrune = some cutoff → cutoff ≤ earliest
  parents : ∀ m ∈ initParents, earliest ≤ m.blockNumber
  held : ∀ hash, InScan state.node.dag initParents earliest hash → ∀ parent ∈ parentsOf state.node.dag hash,
    state.node.dag.lookup parent ≠ none

variable {hashes : List Bytes}

theorem lookup_of_mem_parents {dag : BlockDagStorage}
    (h : getParentsMetadata dag hashes = .ok initParents) {m : BlockMetadata} (hm : m ∈ initParents) :
    ∃ hash, dag.lookup hash = some m := by
  obtain ⟨hash, -, hOk⟩ := (Lib.mem_of_mapM_ok h m).mp hm
  cases hLookup : dag.lookup hash with
  | none =>
    rw [hLookup] at hOk
    cases hOk
  | some m' =>
    rw [hLookup] at hOk
    exact ⟨hash, hLookup.trans (congrArg some (Except.ok.inj hOk))⟩

theorem InScan.number {dag : BlockDagStorage} (hKeyed : ∀ hash m, dag.lookup hash = some m → m.blockHash = hash)
    (hParents : getParentsMetadata dag hashes = .ok initParents) (hWindow : ∀ m ∈ initParents, earliest ≤ m.blockNumber)
    {hash : Bytes} (h : InScan dag initParents earliest hash) :
    ∃ m, dag.lookup hash = some m ∧ earliest ≤ m.blockNumber := by
  cases h with
  | start hMem =>
    obtain ⟨m, hm, rfl⟩ := List.mem_map.mp hMem
    obtain ⟨hash, hLookup⟩ := lookup_of_mem_parents hParents hm
    rw [hKeyed hash m hLookup]
    exact ⟨m, hLookup, hWindow m hm⟩
  | step _ _ hScope =>
    rw [RepeatDeploy.inScope] at hScope
    cases hLookup : dag.lookup hash with
    | none =>
      rw [hLookup] at hScope
      cases hScope
    | some m =>
      rw [hLookup] at hScope
      exact ⟨m, rfl, of_decide_eq_true (Except.ok.inj hScope)⟩

theorem catches_narrowByIndex (h : CarrierInv content state)
    (hParents : getParentsMetadata state.node.dag hashes = .ok initParents)
    (hIndexed : WindowIndexed state initParents earliest) (hIntact : WindowIntact state initParents earliest)
    {faults : IndexFaults} {keys : Finset Bytes} {hash : Bytes} (hScan : InScan state.node.dag initParents earliest hash) :
    RepeatDeploy.Catches state.node.blockStore keys
      (RepeatDeploy.narrowByIndex order faults state.node.dag.carrierIndex earliest keys) hash := by
  intro block hBlock pd hpd hKey
  by_contra hDropped
  obtain ⟨hAbsent, w, hWatermark, hGate⟩ := RepeatDeploy.of_dropped hKey hDropped
  obtain ⟨m, hLookup, hNumber⟩ := InScan.number h.keyed hParents hIntact.parents hScan
  have hRecorded : hash ∈ state.recorded :=
    hIndexed.indexed hash m hScan hLookup w hWatermark (hGate.trans (max_le_max_right 0 hNumber))
  obtain ⟨hBody, ⟨m', hLookup', hHeight⟩, hCarriers⟩ := h.carried hash hRecorded
  obtain rfl : block = content hash := Option.some.inj (hBlock.symm.trans hBody)
  obtain rfl : m = m' := Option.some.inj (hLookup.symm.trans hLookup')
  obtain ⟨e, he, -⟩ | ⟨cutoff, hLast, hBelow⟩ := hCarriers pd hpd
  · rw [CarrierIndex.provesAbsence, List.isEmpty_iff] at hAbsent
    rw [hAbsent] at he
    cases he
  · have hCutoff := hIntact.unpruned cutoff hLast
    omega

end transparency

def carrying (block : BlockMessage ProcessedDeploy Unit) (sigs : List Bytes) : BlockMessage ProcessedDeploy Unit :=
  { block with body := { block.body with deploys := sigs.map (⟨·, 0, false⟩) } }

def spentSig : Bytes := List.replicate 32 7

def rootBlock : BlockMessage ProcessedDeploy Unit := carrying (taggedBlock 1 [] [] [] 0 0) [spentSig]
def secondBlock : BlockMessage ProcessedDeploy Unit := taggedBlock 2 [rootBlock.blockHash] [] [] 1 1
def thirdBlock : BlockMessage ProcessedDeploy Unit := taggedBlock 3 [secondBlock.blockHash] [] [] 2 2

def lateBlock : BlockMessage ProcessedDeploy Unit :=
  carrying (taggedBlock 4 [rootBlock.blockHash] [] [] 1 1) [spentSig]

def blockNamed (hash : Bytes) : BlockMessage ProcessedDeploy Unit :=
  if hash = secondBlock.blockHash then secondBlock
  else if hash = thirdBlock.blockHash then thirdBlock
  else rootBlock

theorem parents_lateBlock {dag : BlockDagStorage}
    (hRoot : dag.lookup rootBlock.blockHash = some (metadataFromBlock rootBlock false)) :
    getParentsMetadata dag lateBlock.header.parentsHashList = .ok [metadataFromBlock rootBlock false] := by
  rw [getParentsMetadata]
  change List.mapM _ [rootBlock.blockHash] = _
  rw [List.mapM_cons]
  simp only [hRoot]
  rfl

theorem windowIndexed_rootBlock {state : CarrierState Unit}
    (hRoot : state.node.dag.lookup rootBlock.blockHash = some (metadataFromBlock rootBlock false))
    (hBody : state.node.blockStore rootBlock.blockHash = some rootBlock)
    (hRecorded : rootBlock.blockHash ∈ state.recorded) (earliest : Int) :
    (∀ hash, InScan state.node.dag [metadataFromBlock rootBlock false] earliest hash →
      hash = rootBlock.blockHash ∧ parentsOf state.node.dag hash = []) ∧
      WindowIndexed state [metadataFromBlock rootBlock false] earliest := by
  have hParents : parentsOf state.node.dag rootBlock.blockHash = [] := by
    rw [parentsOf, hRoot]
    rfl
  have hScan : ∀ hash, InScan state.node.dag [metadataFromBlock rootBlock false] earliest hash →
      hash = rootBlock.blockHash := by
    intro hash h
    induction h with
    | start hMem => exact List.mem_singleton.mp hMem
    | step _ hNext _ ih =>
      rw [ih, hParents] at hNext
      cases hNext
  refine ⟨fun hash h => ⟨hScan hash h, hScan hash h ▸ hParents⟩, fun hash h => ?_, fun hash m h _ _ _ _ => ?_⟩
  · rw [hScan hash h]
    exact ⟨rootBlock, hBody, by decide⟩
  · rw [hScan hash h]
    exact hRecorded

theorem CarrierHistory.insertFresh {S : Type} {order : HashOrder} {content : Bytes → BlockMessage ProcessedDeploy S}
    {deployLifespan : Int} {node : NodeState S} {recorded : Finset Bytes} {lfbHeight : Option Int}
    {block : BlockMessage ProcessedDeploy S} {mode : InsertMode} {dag : BlockDagStorage}
    (h : CarrierHistory order content deployLifespan ⟨node, recorded, lfbHeight⟩)
    (hInsert : InsertsTo order block mode node.dag dag) (hNamed : content block.blockHash = block)
    (hFresh : block.blockHash ∉ node.dag.dagSet) :
    CarrierHistory order content deployLifespan ⟨node.persist block dag, insert block.blockHash recorded, lfbHeight⟩ := by
  have hNext := h.step (.insert hNamed hInsert)
  rw [CarrierState.recordedAfter, if_neg hFresh] at hNext
  exact hNext

theorem exists_rootBlock :
    ∃ dag, CarrierHistory .ofToList blockNamed 1
        ⟨(NodeState.initial none).persist rootBlock dag, {rootBlock.blockHash}, none⟩ ∧
      dag.lookup rootBlock.blockHash = some (metadataFromBlock rootBlock false) ∧
      dag.carrierIndex.lastPrune = none := by
  have hRuns : ∃ dag, InsertsTo .ofToList rootBlock .approved (.initial none) dag ∧
      dag.lookup rootBlock.blockHash = some (metadataFromBlock rootBlock false) ∧ dag.carrierIndex.lastPrune = none :=
    ⟨_, ⟨_, rfl⟩, rfl, rfl⟩
  obtain ⟨dag, hInsert, hFacts⟩ := hRuns
  have hStart : CarrierHistory .ofToList blockNamed 1 ⟨NodeState.initial none, ∅, none⟩ :=
    .initial (fun hash m hLookup => by cases (lookup_eq_some.mp hLookup).2) rfl
  exact ⟨dag, hStart.insertFresh hInsert rfl (Finset.notMem_empty _), hFacts⟩

end F1r3Node.DagStorage
