import F1r3Node.DagStorage.Equivocations

/-! # Slots for every bonded validator

The storage seeds the slot of a validator that a block bonds and does not cite; one that the block cites has its slot
from the main parent.
-/

namespace F1r3Node.DagStorage

open Shared
open Casper (BlockMessage Justification)

variable {S : Type}

def bondedValidators (block : BlockMessage ProcessedDeploy S) : List Bytes := block.body.state.bonds.map (·.validator)

def justifiedValidators (block : BlockMessage ProcessedDeploy S) : List Bytes := block.justifications.map (·.validator)

/-- The main parent is read with `get_unsafe`: `none` is the panic on a block that is not stored. -/
def justificationFollows (b : BlockMessage ProcessedDeploy S)
    (blockStore : Bytes → Option (BlockMessage ProcessedDeploy S)) : Option ValidBlockProcessing :=
  if ¬ (justifiedValidators b).Nodup then some (.error (.invalid .invalidFollows))
  else
    match b.header.parentsHashList.head? with
    | none => some (.error (.invalid .invalidParents))
    | some mainParentHash =>
      (blockStore mainParentHash).map fun mainParent =>
        if (bondedValidators mainParent).toFinset = (justifiedValidators b).toFinset then .ok ()
        else .error (.invalid .invalidFollows)

/-- The justifications of a snapshot: every slot, valid or not, of a validator that the main parent bonds. -/
def snapshotJustifications (dag : BlockDagStorage) (mainParent : BlockMessage ProcessedDeploy S) : List Justification :=
  (dag.latestMessagesIndex.entries.filter fun slot => slot.1 ∈ bondedValidators mainParent).map fun slot =>
    ⟨slot.1, slot.2⟩

theorem justificationFollows_eq_ok {b : BlockMessage ProcessedDeploy S}
    {blockStore : Bytes → Option (BlockMessage ProcessedDeploy S)} :
    justificationFollows b blockStore = some (.ok ()) ↔
      (justifiedValidators b).Nodup ∧ ∃ p mainParent, b.header.parentsHashList.head? = some p ∧
        blockStore p = some mainParent ∧ ∀ v, v ∈ bondedValidators mainParent ↔ v ∈ justifiedValidators b := by
  rw [justificationFollows]
  by_cases hNodup : (justifiedValidators b).Nodup
  · rw [if_neg (not_not.mpr hNodup), and_iff_right hNodup]
    cases b.header.parentsHashList.head? with
    | none => simp
    | some p =>
      cases hStore : blockStore p with
      | none => simp [hStore]
      | some mainParent =>
        have hSets : (bondedValidators mainParent).toFinset = (justifiedValidators b).toFinset ↔
            ∀ v, v ∈ bondedValidators mainParent ↔ v ∈ justifiedValidators b := by
          simp [Finset.ext_iff]
        dsimp only
        rw [hStore, Option.map_some, Option.some.injEq]
        split
        · next h => exact iff_of_true rfl ⟨p, mainParent, rfl, hStore, hSets.mp h⟩
        · next h =>
          refine iff_of_false (by rintro ⟨⟩) ?_
          rintro ⟨p', mainParent', hp, hStore', hSame⟩
          obtain rfl := Option.some.inj hp
          obtain rfl := Option.some.inj (hStore.symm.trans hStore')
          exact h (hSets.mpr hSame)
  · rw [if_pos hNodup]
    exact iff_of_false (by rintro ⟨⟩) fun h => hNodup h.1

variable {mainParent : BlockMessage ProcessedDeploy S}

theorem mem_snapshotJustifications {dag : BlockDagStorage} {v : Bytes} :
    v ∈ (snapshotJustifications dag mainParent).map (·.validator) ↔
      v ∈ bondedValidators mainParent ∧ dag.latestMessageHash v ≠ none := by
  have hSlot : dag.latestMessageHash v ≠ none ↔ v ∈ dag.latestMessagesIndex := by
    rw [BlockDagStorage.latestMessageHash, ne_eq, AList.lookup_eq_none, not_not]
  rw [hSlot, snapshotJustifications, List.map_map]
  simp only [List.mem_map, List.mem_filter, decide_eq_true_iff, Function.comp_apply]
  constructor
  · rintro ⟨slot, ⟨hMem, hBonded⟩, rfl⟩
    exact ⟨hBonded, AList.mem_keys.mpr (List.mem_map.mpr ⟨slot, hMem, rfl⟩)⟩
  · rintro ⟨hBonded, hMem⟩
    obtain ⟨slot, hSlotMem, rfl⟩ := List.mem_map.mp (AList.mem_keys.mp hMem)
    exact ⟨slot, ⟨hSlotMem, hBonded⟩, rfl⟩

theorem nodup_snapshotJustifications (dag : BlockDagStorage) (mainParent : BlockMessage ProcessedDeploy S) :
    ((snapshotJustifications dag mainParent).map (·.validator)).Nodup := by
  rw [snapshotJustifications, List.map_map]
  have hKeys : (dag.latestMessagesIndex.entries.map Sigma.fst).Nodup := dag.latestMessagesIndex.nodupKeys
  exact hKeys.sublist (List.filter_sublist.map Sigma.fst)

structure NodeState (S : Type) where
  dag : BlockDagStorage
  blockStore : Bytes → Option (BlockMessage ProcessedDeploy S)

def NodeState.persist (node : NodeState S) (b : BlockMessage ProcessedDeploy S) (dag : BlockDagStorage) : NodeState S :=
  ⟨dag, Function.update node.blockStore b.blockHash (some b)⟩

theorem NodeState.blockStore_persist_self (node : NodeState S) (b : BlockMessage ProcessedDeploy S)
    (dag : BlockDagStorage) : (node.persist b dag).blockStore b.blockHash = some b :=
  Function.update_self _ _ _

theorem NodeState.blockStore_persist_of_ne (node : NodeState S) {b : BlockMessage ProcessedDeploy S}
    (dag : BlockDagStorage) {h : Bytes} (hNe : h ≠ b.blockHash) :
    (node.persist b dag).blockStore h = node.blockStore h :=
  Function.update_of_ne hNe _ _

def NodeState.initial (genesis : Option Bytes) : NodeState S := ⟨.initial genesis, fun _ => none⟩

/-- Everything the block names is held, and no other block has its hash. -/
structure Admissible (node : NodeState S) (b : BlockMessage ProcessedDeploy S) : Prop where
  parents : ∀ p ∈ b.header.parentsHashList, p ∈ node.dag.dagSet
  justifications : ∀ j ∈ b.justifications, j.latestBlockHash ∈ node.dag.dagSet
  named : ∀ b', node.blockStore b.blockHash = some b' → b' = b

/-- States reached from genesis by valid blocks, which cite as their main parent bonds and meet `meets`, and by
arbitrary invalid ones. -/
inductive ReachedBy (order : HashOrder) (meets : NodeState S → BlockMessage ProcessedDeploy S → Prop) : NodeState S → Prop where
  | genesis {learned : Option Bytes} {b : BlockMessage ProcessedDeploy S} {dag : BlockDagStorage}
      (parents : b.header.parentsHashList = []) (justifications : b.justifications = [])
      (insert : InsertsTo order b .approved (.initial learned) dag) :
      ReachedBy order meets ((NodeState.initial learned).persist b dag)
  | valid {node : NodeState S} {b : BlockMessage ProcessedDeploy S} {dag : BlockDagStorage}
      (reached : ReachedBy order meets node) (admissible : Admissible node b)
      (follows : justificationFollows b node.blockStore = some (.ok ())) (condition : meets node b)
      (insert : InsertsTo order b .normal node.dag dag) : ReachedBy order meets (node.persist b dag)
  | invalid {node : NodeState S} {b : BlockMessage ProcessedDeploy S} {dag : BlockDagStorage}
      (reached : ReachedBy order meets node) (admissible : Admissible node b)
      (insert : InsertsTo order b .invalid node.dag dag) : ReachedBy order meets (node.persist b dag)

def HoldsValid (node : NodeState S) (b : BlockMessage ProcessedDeploy S) : Prop :=
  node.blockStore b.blockHash = some b ∧ ∃ m, node.dag.lookup b.blockHash = some m ∧ m.invalid = false

def Covered (node : NodeState S) : Prop :=
  ∀ b, HoldsValid node b → ∀ v ∈ bondedValidators b, node.dag.latestMessageHash v ≠ none

/-- A block that is new has a valid main parent, or every validator that it bonds and cites has a slot or gets it as
the sender. -/
def SlotsKnown (node : NodeState S) (b : BlockMessage ProcessedDeploy S) : Prop :=
  b.blockHash ∉ node.dag.dagSet →
    (∃ p, b.header.parentsHashList.head? = some p ∧ ∃ m, node.dag.lookup p = some m ∧ m.invalid = false) ∨
    ∀ v ∈ bondedValidators b, v ∈ justifiedValidators b →
      (b.sender ≠ [] ∧ v = b.sender) ∨ node.dag.latestMessageHash v ≠ none

/-- The DAG set, the rows and the block store hold the same blocks. -/
structure Consistent (node : NodeState S) : Prop where
  row : node.dag.RowsMatch
  stored : ∀ h ∈ node.dag.dagSet, ∃ b, node.blockStore h = some b ∧ b.blockHash = h

section step

variable {order : HashOrder} {node : NodeState S} {b : BlockMessage ProcessedDeploy S} {mode : InsertMode}
  {dag : BlockDagStorage}

variable {v : Bytes}

section

variable (h : Added b mode node.dag dag) (hMode : mode ≠ .settledHistory)

include h hMode

theorem Added.slot_ne_none (hSlot : node.dag.latestMessageHash v ≠ none) : dag.latestMessageHash v ≠ none := by
  obtain ⟨x, hx⟩ := Option.ne_none_iff_exists'.mp hSlot
  rw [h.latest_eq hMode, slotAfter_of_some hx]
  split
  · exact Option.some_ne_none _
  · exact Option.some_ne_none _

theorem Added.slot_of_bonded
    (hBonded : v ∈ bondedValidators b) (hCited : v ∉ justifiedValidators b) : dag.latestMessageHash v ≠ none := by
  by_cases hSlot : node.dag.latestMessageHash v = none
  · have hUnseen : v ∈ node.dag.newlyBondedUnseen .none b := by
      rw [BlockDagStorage.newlyBondedUnseen, List.mem_filter, List.mem_dedup, decide_eq_true_iff]
      exact ⟨hBonded, hCited, rfl, hSlot⟩
    rw [h.latest_eq hMode, BlockDagStorage.slotAfter, if_pos hUnseen]
    split
    · exact Option.some_ne_none _
    · exact h.placeholder hMode (List.ne_nil_of_mem hUnseen)
  · exact h.slot_ne_none hMode hSlot

theorem Added.slot_of_cited_iff (hCited : v ∈ justifiedValidators b) :
    dag.latestMessageHash v ≠ none ↔ (b.sender ≠ [] ∧ v = b.sender) ∨ node.dag.latestMessageHash v ≠ none := by
  constructor
  · intro hSlot
    have hUnseen : v ∉ node.dag.newlyBondedUnseen .none b := by
      rw [BlockDagStorage.newlyBondedUnseen, List.mem_filter, decide_eq_true_iff]
      exact fun hMem => hMem.2.1 hCited
    rw [h.latest_eq hMode, BlockDagStorage.slotAfter, if_neg hUnseen] at hSlot
    split at hSlot
    · next hSender => exact .inl ⟨(newLatestFromSender_ne_nil.mp hSender.1).1, hSender.2⟩
    · exact .inr hSlot
  · rintro (⟨hSender, rfl⟩ | hSlot)
    · by_cases hSlot : node.dag.latestMessageHash b.sender = none
      · have hAdvances : node.dag.senderAdvances .none b = true := by
          rw [BlockDagStorage.latestMessageHash] at hSlot
          rw [BlockDagStorage.senderAdvances, hSlot]
          rfl
        rw [h.latest_eq hMode, BlockDagStorage.slotAfter,
          if_pos ⟨newLatestFromSender_ne_nil.mpr ⟨hSender, hAdvances⟩, rfl⟩]
        exact Option.some_ne_none _
      · exact h.slot_ne_none hMode hSlot
    · exact h.slot_ne_none hMode hSlot

end

theorem Consistent.added_of_insertsTo (hNode : Consistent node) (hInsert : InsertsTo order b mode node.dag dag)
    (hFresh : b.blockHash ∉ node.dag.dagSet) : Added b mode node.dag dag :=
  hInsert.added hFresh (not_not.mp (mt (hNode.row b.blockHash).mpr hFresh))

theorem Consistent.persist_held (hNode : Consistent node) (hAdmissible : Admissible node b)
    (hMem : b.blockHash ∈ node.dag.dagSet) : (node.persist b dag).blockStore = node.blockStore := by
  obtain ⟨b', hStored, -⟩ := hNode.stored b.blockHash hMem
  obtain rfl := hAdmissible.named b' hStored
  rw [NodeState.persist, ← hStored]
  exact Function.update_eq_self _ _

theorem Consistent.step (hNode : Consistent node) (hAdmissible : Admissible node b)
    (hInsert : InsertsTo order b mode node.dag dag) : Consistent (node.persist b dag) := by
  by_cases hMem : b.blockHash ∈ node.dag.dagSet
  · have hDone := hInsert.held hMem
    refine ⟨hNode.row.of_records hDone.dagSet_eq hDone.record_eq, fun h hh => ?_⟩
    · rw [hNode.persist_held hAdmissible hMem]
      exact hNode.stored h (hDone.dagSet_eq ▸ hh)
  · have hAdded := hNode.added_of_insertsTo hInsert hMem
    refine ⟨hAdded.rowsMatch hNode.row, fun h hh => ?_⟩
    by_cases hEq : h = b.blockHash
    · subst hEq
      exact ⟨b, node.blockStore_persist_self b dag, rfl⟩
    · have hOld : h ∈ node.dag.dagSet := by
        have hNew : h ∈ dag.dagSet := hh
        rw [hAdded.dagSet_eq, Finset.mem_insert] at hNew
        exact hNew.resolve_left hEq
      obtain ⟨b', hStored, hHash⟩ := hNode.stored h hOld
      exact ⟨b', (node.blockStore_persist_of_ne dag hEq).trans hStored, hHash⟩

theorem holdsValid_persist_iff (hAdded : Added b mode node.dag dag) {b' : BlockMessage ProcessedDeploy S} :
    HoldsValid (node.persist b dag) b' ↔
      (b' = b ∧ mode ≠ .invalid) ∨ (b'.blockHash ≠ b.blockHash ∧ HoldsValid node b') := by
  by_cases hEq : b'.blockHash = b.blockHash
  · rw [HoldsValid, hEq, NodeState.blockStore_persist_self]
    change (_ ∧ ∃ m, dag.lookup b.blockHash = some m ∧ m.invalid = false) ↔ _
    rw [hAdded.lookup_self, Option.some.injEq, @eq_comm _ b b']
    simp [metadataFromBlock]
  · have hNe : b' ≠ b := fun h => hEq (h ▸ rfl)
    rw [HoldsValid, HoldsValid, NodeState.blockStore_persist_of_ne node dag hEq]
    change (_ ∧ ∃ m, dag.lookup b'.blockHash = some m ∧ m.invalid = false) ↔ _
    rw [hAdded.lookup_of_ne hEq]
    simp [hNe, hEq]

theorem Covered.invalid (hCovered : Covered node) (hAdded : Added b .invalid node.dag dag) :
    Covered (node.persist b dag) := by
  intro b' hHolds v hv
  obtain ⟨-, hMode⟩ | ⟨-, hOld⟩ := (holdsValid_persist_iff hAdded).mp hHolds
  · exact absurd rfl hMode
  · exact hAdded.slot_ne_none (by decide) (hCovered b' hOld v hv)

theorem covered_valid_iff (hCovered : Covered node) (hFollows : justificationFollows b node.blockStore = some (.ok ()))
    (hNode : Consistent node) (hFresh : b.blockHash ∉ node.dag.dagSet) (hAdded : Added b .normal node.dag dag) :
    Covered (node.persist b dag) ↔ SlotsKnown node b := by
  constructor
  · intro h _
    refine .inr fun v hBonded hCited => (hAdded.slot_of_cited_iff (by decide) hCited).mp ?_
    exact h b ((holdsValid_persist_iff hAdded).mpr (.inl ⟨rfl, by decide⟩)) v hBonded
  · intro hKnown b' hHolds v hv
    obtain ⟨rfl, -⟩ | ⟨-, hOld⟩ := (holdsValid_persist_iff hAdded).mp hHolds
    · by_cases hCited : v ∈ justifiedValidators b'
      · refine (hAdded.slot_of_cited_iff (by decide) hCited).mpr ?_
        obtain ⟨p, hParent, m, hLookup, hValid⟩ | hSlots := hKnown hFresh
        · obtain ⟨-, p', mainParent, hParent', hStored, hSame⟩ := justificationFollows_eq_ok.mp hFollows
          obtain rfl := Option.some.inj (hParent.symm.trans hParent')
          obtain ⟨mainParent', hStored', hHash⟩ := hNode.stored p (lookup_eq_some.mp hLookup).1
          obtain rfl := Option.some.inj (hStored.symm.trans hStored')
          rw [← hHash] at hStored hLookup
          exact .inr (hCovered mainParent ⟨hStored, m, hLookup, hValid⟩ v ((hSame v).mpr hCited))
        · exact hSlots v hv hCited
      · exact hAdded.slot_of_bonded (by decide) hv hCited
    · exact hAdded.slot_ne_none (by decide) (hCovered b' hOld v hv)

theorem Covered.held (hCovered : Covered node) (hNode : Consistent node) (hAdmissible : Admissible node b)
    (hMem : b.blockHash ∈ node.dag.dagSet) (hInsert : InsertsTo order b mode node.dag dag) :
    Covered (node.persist b dag) := by
  have hDone := hInsert.held hMem
  rintro b' ⟨hStored, m, hLookup, hValid⟩ v hv
  rw [hNode.persist_held hAdmissible hMem] at hStored
  change dag.lookup b'.blockHash = some m at hLookup
  rw [hDone.lookup_eq] at hLookup
  change dag.latestMessageHash v ≠ none
  rw [hDone.latestMessageHash_eq]
  exact hCovered b' ⟨hStored, m, hLookup, hValid⟩ v hv

end step

variable {order : HashOrder} {node : NodeState S}

theorem consistent_initial (learned : Option Bytes) : Consistent (NodeState.initial (S := S) learned) :=
  ⟨fun h => iff_of_false (Finset.notMem_empty h) fun hNe => hNe rfl, fun h hMem => absurd hMem (Finset.notMem_empty h)⟩

theorem covered_initial (learned : Option Bytes) : Covered (NodeState.initial (S := S) learned) := by
  rintro b ⟨hStored, -⟩
  cases hStored

theorem consistent_and_covered (h : ReachedBy order SlotsKnown node) : Consistent node ∧ Covered node := by
  induction h with
  | @genesis learned b dag hParents hJustifications hInsert =>
    have hAdmissible : Admissible (NodeState.initial learned) b :=
      ⟨fun p hp => absurd hp (by simp [hParents]), fun j hj => absurd hj (by simp [hJustifications]),
        fun b' hb => nomatch hb⟩
    have hAdded : Added b .approved (NodeState.initial learned : NodeState S).dag dag :=
      (consistent_initial learned).added_of_insertsTo hInsert (Finset.notMem_empty _)
    refine ⟨(consistent_initial learned).step hAdmissible hInsert, fun b' hHolds v hv => ?_⟩
    obtain ⟨rfl, -⟩ | ⟨-, hOld⟩ := (holdsValid_persist_iff hAdded).mp hHolds
    · exact hAdded.slot_of_bonded (by decide) hv (by simp [justifiedValidators, hJustifications])
    · exact hAdded.slot_ne_none (by decide) (covered_initial learned b' hOld v hv)
  | @valid node b dag _ hAdmissible hFollows hKnown hInsert ih =>
    refine ⟨ih.1.step hAdmissible hInsert, ?_⟩
    by_cases hMem : b.blockHash ∈ node.dag.dagSet
    · exact ih.2.held ih.1 hAdmissible hMem hInsert
    · exact (covered_valid_iff ih.2 hFollows ih.1 hMem (ih.1.added_of_insertsTo hInsert hMem)).mpr hKnown
  | @invalid node b dag _ hAdmissible hInsert ih =>
    refine ⟨ih.1.step hAdmissible hInsert, ?_⟩
    by_cases hMem : b.blockHash ∈ node.dag.dagSet
    · exact ih.2.held ih.1 hAdmissible hMem hInsert
    · exact ih.2.invalid (ih.1.added_of_insertsTo hInsert hMem)

theorem snapshot_follows (hCovered : Covered node) (hHolds : HoldsValid node mainParent) :
    (∀ v, v ∈ (snapshotJustifications node.dag mainParent).map (·.validator) ↔ v ∈ bondedValidators mainParent) ∧
      ∀ b : BlockMessage ProcessedDeploy S, b.header.parentsHashList.head? = some mainParent.blockHash →
        b.justifications.Perm (snapshotJustifications node.dag mainParent) →
        justificationFollows b node.blockStore = some (.ok ()) := by
  have hExact : ∀ v, v ∈ (snapshotJustifications node.dag mainParent).map (·.validator) ↔
      v ∈ bondedValidators mainParent := by
    intro v
    rw [mem_snapshotJustifications, and_iff_left_of_imp (hCovered mainParent hHolds v)]
  refine ⟨hExact, fun b hParent hPerm => ?_⟩
  have hValidators : (justifiedValidators b).Perm ((snapshotJustifications node.dag mainParent).map (·.validator)) :=
    hPerm.map _
  refine justificationFollows_eq_ok.mpr ⟨?_, _, mainParent, hParent, hHolds.1, fun v => ?_⟩
  · exact hValidators.nodup_iff.mpr (nodup_snapshotJustifications node.dag mainParent)
  · rw [hValidators.mem_iff, hExact]

/-- The block with the given tag: its parents, the validators it bonds and those it cites with the genesis block. -/
def taggedBlock (tag : UInt8) (parents : List Bytes) (bonded cited : List Bytes) (number : Int64) (seq : Int32) :
    BlockMessage ProcessedDeploy Unit where
  blockHash := List.replicate 32 tag
  header := ⟨parents, 0, 1, []⟩
  body :=
    { state := ⟨[], [], bonded.map (⟨·, 10⟩), number⟩
      deploys := []
      rejectedDeploys := []
      systemDeploys := []
      extraBytes := []
      appliedFromScope := []
      mergeBase := [] }
  justifications := cited.map (⟨·, List.replicate 32 1⟩)
  sender := if parents = [] then [] else List.replicate 65 1
  seqNum := seq
  sig := []
  sigAlgorithm := ""
  shardId := ""
  extraBytes := []

def validatorA : Bytes := List.replicate 65 1
def validatorW : Bytes := List.replicate 65 2

def genesisBlock : BlockMessage ProcessedDeploy Unit := taggedBlock 1 [] [validatorA] [] 0 0

def invalidBlock : BlockMessage ProcessedDeploy Unit :=
  taggedBlock 2 [genesisBlock.blockHash] [validatorA, validatorW] [validatorA, validatorW] 1 1

def validChild : BlockMessage ProcessedDeploy Unit :=
  taggedBlock 3 [invalidBlock.blockHash] [validatorA, validatorW] [validatorA, validatorW] 2 1

end F1r3Node.DagStorage
