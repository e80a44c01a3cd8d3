import F1r3Node.DagStorage.InsertRun

/-! # Equivocating blocks

A block passes when its creator justification is the slot of its sender. `content` gives the block that a hash names.
-/

namespace F1r3Node.DagStorage

open Shared
open Casper (BlockMessage Justification)

variable {S : Type}

inductive InvalidBlock where
  | admissibleEquivocation
  | ignorableEquivocation
  | invalidSequenceNumber
  | invalidFollows
  | invalidParents
  deriving DecidableEq

inductive BlockError where
  | invalid (reason : InvalidBlock)
  | exception (error : StoreError)
  deriving DecidableEq

abbrev ValidBlockProcessing := Except BlockError Unit

def creatorJustificationBlockMessage (block : BlockMessage ProcessedDeploy S) : Option Justification :=
  block.justifications.find? fun j => j.validator = block.sender

def creatorJustificationHash (block : BlockMessage ProcessedDeploy S) : Option Bytes :=
  (creatorJustificationBlockMessage block).map (·.latestBlockHash)

def checkEquivocations (requestedAsDependency : Bool) (block : BlockMessage ProcessedDeploy S) (dag : BlockDagStorage) :
    ValidBlockProcessing :=
  if creatorJustificationHash block = dag.latestMessageHash block.sender then .ok ()
  else if requestedAsDependency then .error (.invalid .admissibleEquivocation)
  else .error (.invalid .ignorableEquivocation)

def sequenceNumber (b : BlockMessage ProcessedDeploy S) (dag : BlockDagStorage) : ValidBlockProcessing :=
  let creatorJustificationSeqNumber : Except BlockError Int :=
    match creatorJustificationBlockMessage b with
    | some justification =>
      match dag.lookup justification.latestBlockHash with
      | some metadata => .ok metadata.sequenceNumber
      | none =>
        .error (.exception (.keyNotFound "Latest block hash is missing from block dag store." justification.latestBlockHash))
    | none => .ok (-1)
  match creatorJustificationSeqNumber with
  | .error e => .error e
  | .ok number => if number + 1 = b.seqNum.toInt then .ok () else .error (.invalid .invalidSequenceNumber)

/-- The sequence number is checked first; whether a block was asked for changes the verdict of a failure only. -/
def Accepted (dag : BlockDagStorage) (b : BlockMessage ProcessedDeploy S) : Prop :=
  sequenceNumber b dag = .ok () ∧ checkEquivocations false b dag = .ok ()

instance (dag : BlockDagStorage) (b : BlockMessage ProcessedDeploy S) : Decidable (Accepted dag b) :=
  inferInstanceAs (Decidable (_ ∧ _))

variable {b : BlockMessage ProcessedDeploy S} {s s' : BlockDagStorage}

theorem checkEquivocations_eq_ok {requested : Bool} :
    checkEquivocations requested b s = .ok () ↔ creatorJustificationHash b = s.latestMessageHash b.sender := by
  rw [checkEquivocations]
  split
  · next h => exact iff_of_true rfl h
  · next h => exact iff_of_false (by cases requested <;> rintro ⟨⟩) h

theorem exists_of_sequenceNumber {hash : Bytes} (h : sequenceNumber b s = .ok ())
    (hJust : creatorJustificationHash b = some hash) :
    ∃ m, s.lookup hash = some m ∧ m.sequenceNumber + 1 = b.seqNum.toInt := by
  obtain ⟨justification, hFind, rfl⟩ := Option.map_eq_some_iff.mp hJust
  rw [sequenceNumber, hFind] at h
  dsimp only at h
  cases hLookup : s.lookup justification.latestBlockHash with
  | none =>
    rw [hLookup] at h
    cases h
  | some m =>
    rw [hLookup] at h
    dsimp only at h
    split at h
    · next hNumber => exact ⟨m, rfl, hNumber⟩
    · cases h

/-- What becomes of a block: it is taken as approved, as valid when it passes, and else as invalid or not at all. -/
inductive Processes (order : HashOrder) (content : Bytes → BlockMessage ProcessedDeploy S)
    (s : BlockDagStorage) (b : BlockMessage ProcessedDeploy S) : BlockDagStorage → Prop where
  | approve {s' : BlockDagStorage} (named : content b.blockHash = b) (insert : InsertsTo order b .approved s s') :
      Processes order content s b s'
  | accept {s' : BlockDagStorage} (named : content b.blockHash = b) (accepted : Accepted s b)
      (insert : InsertsTo order b .normal s s') : Processes order content s b s'
  | reject {s' : BlockDagStorage} (named : content b.blockHash = b) (refused : ¬ Accepted s b)
      (insert : InsertsTo order b .invalid s s') : Processes order content s b s'
  | drop (refused : ¬ Accepted s b) : Processes order content s b s

inductive ProcessesAll (order : HashOrder) (content : Bytes → BlockMessage ProcessedDeploy S) (s : BlockDagStorage) :
    List (BlockMessage ProcessedDeploy S) → BlockDagStorage → Prop where
  | nil : ProcessesAll order content s [] s
  | snoc {blocks : List (BlockMessage ProcessedDeploy S)} {b : BlockMessage ProcessedDeploy S} {t t' : BlockDagStorage}
      (run : ProcessesAll order content s blocks t) (last : Processes order content t b t') :
      ProcessesAll order content s (blocks ++ [b]) t'

def BlockDagStorage.initial (genesis : Option Bytes) : BlockDagStorage := { BlockDagStorage.empty with genesisHashIndex := genesis }

variable {order : HashOrder} {content : Bytes → BlockMessage ProcessedDeploy S}

theorem Processes.cases (h : Processes order content s b s') :
    s' = s ∨ content b.blockHash = b ∧ ∃ mode, mode ≠ .settledHistory ∧ InsertsTo order b mode s s' := by
  cases h with
  | approve hNamed hInsert => exact .inr ⟨hNamed, .approved, by decide, hInsert⟩
  | accept hNamed _ hInsert => exact .inr ⟨hNamed, .normal, by decide, hInsert⟩
  | reject hNamed _ hInsert => exact .inr ⟨hNamed, .invalid, by decide, hInsert⟩
  | drop => exact .inl rfl

/-- The DAG set and the rows belong together; the records are those of the named blocks; every held block of a sender
is at or below the block in the sender's slot. -/
structure SlotsAhead (content : Bytes → BlockMessage ProcessedDeploy S) (s : BlockDagStorage) : Prop where
  row : s.RowsMatch
  record : ∀ h m, s.lookup h = some m → m.sequenceNumber = (content h).seqNum.toInt
  slot : ∀ h ∈ s.dagSet, (content h).sender ≠ [] → ∃ x m, s.latestMessageHash (content h).sender = some x ∧
    s.lookup x = some m ∧ (content h).seqNum.toInt ≤ m.sequenceNumber

theorem slotsAhead_initial (genesis : Option Bytes) : SlotsAhead content (.initial genesis) where
  row h := iff_of_false (Finset.notMem_empty h) fun hNe => hNe rfl
  record h m hLookup := by cases (lookup_eq_some.mp hLookup).2
  slot h hMem := absurd hMem (Finset.notMem_empty h)

variable {mode : InsertMode}

theorem SlotsAhead.finished {hash : Bytes} (hAhead : SlotsAhead content s)
    (h : Finished order hash mode s s') : SlotsAhead content s' := by
  refine ⟨hAhead.row.of_records h.dagSet_eq h.record_eq, fun x m hLookup => ?_, fun x hMem hSender => ?_⟩
  · rw [h.lookup_eq] at hLookup
    exact hAhead.record x m hLookup
  · rw [h.dagSet_eq] at hMem
    obtain ⟨y, m, hSlot, hLookup, hLe⟩ := hAhead.slot x hMem hSender
    exact ⟨y, m, by rw [h.latestMessageHash_eq, hSlot], by rw [h.lookup_eq, hLookup], hLe⟩

theorem SlotsAhead.added (hAhead : SlotsAhead content s) (hAdded : Added b mode s s')
    (hMode : mode ≠ .settledHistory) (hNamed : content b.blockHash = b) (hFresh : b.blockHash ∉ s.dagSet) :
    SlotsAhead content s' := by
  have hNe : ∀ x m, s.lookup x = some m → x ≠ b.blockHash :=
    fun x m hLookup hEq => hFresh (hEq ▸ (lookup_eq_some.mp hLookup).1)
  refine ⟨hAdded.rowsMatch hAhead.row, fun x m hLookup => ?_, fun x hMem hSender => ?_⟩
  · by_cases hEq : x = b.blockHash
    · subst hEq
      rw [hAdded.lookup_self] at hLookup
      obtain rfl := Option.some.inj hLookup
      rw [hNamed]
      rfl
    · rw [hAdded.lookup_of_ne hEq] at hLookup
      exact hAhead.record x m hLookup
  · by_cases hAdvances : s.newLatestFromSender .none b ≠ [] ∧ (content x).sender = b.sender
    · refine ⟨b.blockHash, _, ?_, hAdded.lookup_self, ?_⟩
      · rw [hAdded.latest_eq hMode, BlockDagStorage.slotAfter, if_pos hAdvances]
      · change _ ≤ b.seqNum.toInt
        rw [hAdded.dagSet_eq, Finset.mem_insert] at hMem
        obtain rfl | hMem := hMem
        · rw [hNamed]
        · obtain ⟨y, m, hSlot, hLookup, hLe⟩ := hAhead.slot x hMem hSender
          obtain ⟨row, hRow, rfl⟩ := Option.map_eq_some_iff.mp (lookup_eq_some.mp hLookup).2
          rw [hAdvances.2] at hSlot
          exact hLe.trans (le_of_senderAdvances (newLatestFromSender_ne_nil.mp hAdvances.1).2 hSlot hRow)
    · have hKept : ∀ y, s.latestMessageHash (content x).sender = some y →
          s'.latestMessageHash (content x).sender = some y := by
        intro y hSlot
        rw [hAdded.latest_eq hMode, slotAfter_of_some hSlot, if_neg hAdvances]
      rw [hAdded.dagSet_eq, Finset.mem_insert] at hMem
      obtain rfl | hMem := hMem
      · rw [hNamed] at hAdvances hSender hKept ⊢
        have hStays : s.senderAdvances .none b = false := by
          by_contra hTrue
          exact hAdvances ⟨newLatestFromSender_ne_nil.mpr ⟨hSender, Bool.of_not_eq_false hTrue⟩, rfl⟩
        obtain ⟨y, row, hSlot, hRow, hLt⟩ := exists_of_not_senderAdvances hStays
        have hLookup : s.lookup y = some row.metadata :=
          lookup_eq_some.mpr ⟨(hAhead.row y).mpr (by simp [hRow]), by rw [hRow]; rfl⟩
        exact ⟨y, row.metadata, hKept y hSlot, (hAdded.lookup_of_ne (hNe y _ hLookup)).trans hLookup, hLt.le⟩
      · obtain ⟨y, m, hSlot, hLookup, hLe⟩ := hAhead.slot x hMem hSender
        exact ⟨y, m, hKept y hSlot, (hAdded.lookup_of_ne (hNe y m hLookup)).trans hLookup, hLe⟩

theorem SlotsAhead.added_of_insertsTo (hAhead : SlotsAhead content s)
    (hInsert : InsertsTo order b mode s s') (hFresh : b.blockHash ∉ s.dagSet) : Added b mode s s' :=
  hInsert.added hFresh (not_not.mp (mt (hAhead.row b.blockHash).mpr hFresh))

theorem SlotsAhead.step (hAhead : SlotsAhead content s) (h : Processes order content s b s') : SlotsAhead content s' := by
  obtain rfl | ⟨hNamed, mode, hMode, hInsert⟩ := h.cases
  · exact hAhead
  · by_cases hMem : b.blockHash ∈ s.dagSet
    · exact hAhead.finished (hInsert.held hMem)
    · exact hAhead.added (hAhead.added_of_insertsTo hInsert hMem) hMode hNamed hMem

variable {blocks : List (BlockMessage ProcessedDeploy S)}

theorem SlotsAhead.run (hAhead : SlotsAhead content s)
    (h : ProcessesAll order content s blocks s') : SlotsAhead content s' := by
  induction h with
  | nil => exact hAhead
  | snoc _ hLast ih => exact ih.step hLast

theorem not_mem_of_accepted (hAhead : SlotsAhead content s) (hNamed : content b.blockHash = b) (hSender : b.sender ≠ [])
    (hAccepted : Accepted s b) : b.blockHash ∉ s.dagSet := by
  intro hMem
  obtain ⟨x, m, hSlot, hLookup, hLe⟩ := hAhead.slot b.blockHash hMem (by rw [hNamed]; exact hSender)
  rw [hNamed] at hSlot hLe
  obtain ⟨m', hLookup', hNumber⟩ := exists_of_sequenceNumber hAccepted.1
    ((checkEquivocations_eq_ok.mp hAccepted.2).trans hSlot)
  obtain rfl := Option.some.inj (hLookup.symm.trans hLookup')
  omega

def MovedOn (held : Finset Bytes) (v : Bytes) (s : BlockDagStorage) : Prop :=
  held ⊆ s.dagSet ∧ ∃ x, s.latestMessageHash v = some x ∧ x ∉ held

theorem MovedOn.step {held : Finset Bytes} {v : Bytes} (hMoved : MovedOn held v s) (hAhead : SlotsAhead content s)
    (h : Processes order content s b s') : MovedOn held v s' := by
  obtain rfl | ⟨hNamed, mode, hMode, hInsert⟩ := h.cases
  · exact hMoved
  · obtain ⟨hSub, x, hSlot, hNew⟩ := hMoved
    by_cases hMem : b.blockHash ∈ s.dagSet
    · have hDone := hInsert.held hMem
      exact ⟨hDone.dagSet_eq ▸ hSub, x, (hDone.latestMessageHash_eq v).trans hSlot, hNew⟩
    · have hAdded := hAhead.added_of_insertsTo hInsert hMem
      refine ⟨hAdded.dagSet_eq ▸ hSub.trans (Finset.subset_insert _ _), ?_⟩
      rw [hAdded.latest_eq hMode, slotAfter_of_some hSlot]
      split
      · exact ⟨b.blockHash, rfl, fun hHeld => hMem (hSub hHeld)⟩
      · exact ⟨x, rfl, hNew⟩

theorem MovedOn.run {held : Finset Bytes} {v : Bytes}
    (hMoved : MovedOn held v s) (hAhead : SlotsAhead content s) (h : ProcessesAll order content s blocks s') :
    MovedOn held v s' := by
  induction h with
  | nil => exact hMoved
  | snoc hRun hLast ih => exact ih.step (hAhead.run hRun) hLast

theorem movedOn_of_accepted (hAhead : SlotsAhead content s) (hNamed : content b.blockHash = b) (hSender : b.sender ≠ [])
    (hAccepted : Accepted s b) (hInsert : InsertsTo order b .normal s s') : MovedOn s.dagSet b.sender s' := by
  have hFresh := not_mem_of_accepted hAhead hNamed hSender hAccepted
  have hAdded := hAhead.added_of_insertsTo hInsert hFresh
  have hJust := checkEquivocations_eq_ok.mp hAccepted.2
  have hAdvances : s.senderAdvances .none b = true := by
    by_contra hStays
    obtain ⟨x, row, hSlot, hRow, hLt⟩ := exists_of_not_senderAdvances (Bool.eq_false_iff.mpr hStays)
    obtain ⟨m, hLookup, hNumber⟩ := exists_of_sequenceNumber hAccepted.1 (hJust.trans hSlot)
    have hRecord := (lookup_eq_some.mp hLookup).2
    rw [hRow] at hRecord
    obtain rfl := Option.some.inj hRecord
    dsimp only at hNumber
    omega
  refine ⟨hAdded.dagSet_eq ▸ Finset.subset_insert _ _, b.blockHash, ?_, hFresh⟩
  rw [hAdded.latest_eq (by decide), BlockDagStorage.slotAfter,
    if_pos ⟨newLatestFromSender_ne_nil.mpr ⟨hSender, hAdvances⟩, rfl⟩]

/-- Once a block of a sender has passed and is inserted, no block of that sender with the same creator justification
passes the equivocation check, whatever is processed in between. -/
theorem checkEquivocations_after_accepted {genesis : Option Bytes} {blocks later : List (BlockMessage ProcessedDeploy S)}
    {s₁ s₂ s₃ : BlockDagStorage} {b₁ b₂ : BlockMessage ProcessedDeploy S} (requested : Bool)
    (hRun : ProcessesAll order content (.initial genesis) blocks s₁) (hNamed : content b₁.blockHash = b₁)
    (hAccepted : Accepted s₁ b₁) (hInsert : InsertsTo order b₁ .normal s₁ s₂)
    (hLater : ProcessesAll order content s₂ later s₃) (hSender : b₂.sender = b₁.sender) (hNonempty : b₁.sender ≠ [])
    (hJust : creatorJustificationHash b₂ = creatorJustificationHash b₁) :
    checkEquivocations requested b₂ s₃ ≠ .ok () := by
  have hAhead := (slotsAhead_initial genesis).run hRun
  have hAhead' := hAhead.step (.accept hNamed hAccepted hInsert)
  obtain ⟨-, x, hSlot, hNew⟩ := (movedOn_of_accepted hAhead hNamed hNonempty hAccepted hInsert).run hAhead' hLater
  intro hOk
  have hCited := checkEquivocations_eq_ok.mp hOk
  rw [hJust, hSender, hSlot] at hCited
  obtain ⟨m, hLookup, -⟩ := exists_of_sequenceNumber hAccepted.1 hCited
  exact hNew (lookup_eq_some.mp hLookup).1

def firstBlock (sender : Bytes) (tag : UInt8) : BlockMessage ProcessedDeploy Unit where
  blockHash := List.replicate 32 tag
  header := ⟨[], 0, 1, []⟩
  body :=
    { state := ⟨[], [], [], 0⟩
      deploys := []
      rejectedDeploys := []
      systemDeploys := []
      extraBytes := []
      appliedFromScope := []
      mergeBase := [] }
  justifications := []
  sender := sender
  seqNum := 0
  sig := []
  sigAlgorithm := ""
  shardId := ""
  extraBytes := []

theorem checkEquivocations_after_firstBlock :
    ∃ s, InsertsTo .ofToList (firstBlock (List.replicate 65 1) 1) .normal (.initial none) s ∧
      checkEquivocations false (firstBlock (List.replicate 65 1) 2) s ≠ .ok () := by
  have hInsert : ∃ s, InsertsTo .ofToList (firstBlock (List.replicate 65 1) 1) .normal (.initial none) s := ⟨_, _, rfl⟩
  obtain ⟨s, hInsert⟩ := hInsert
  refine ⟨s, hInsert, ?_⟩
  have hRun : ProcessesAll .ofToList (fun _ => firstBlock (List.replicate 65 1) 1) (.initial none) [] (.initial none) :=
    .nil
  exact checkEquivocations_after_accepted false hRun rfl (by decide) hInsert .nil rfl (by decide) rfl

/-- An empty sender has no slot, so two such blocks pass. -/
theorem two_unsigned_blocks_pass :
    ∃ s, Accepted (.initial none) (firstBlock [] 1) ∧ InsertsTo .ofToList (firstBlock [] 1) .normal (.initial none) s ∧
      Accepted s (firstBlock [] 2) ∧ (firstBlock [] 1).sender = (firstBlock [] 2).sender ∧
      creatorJustificationHash (firstBlock [] 1) = creatorJustificationHash (firstBlock [] 2) ∧
      (firstBlock [] 1).blockHash ≠ (firstBlock [] 2).blockHash := by
  refine ⟨_, by decide, ⟨_, rfl⟩, ?_, rfl, rfl, by decide⟩
  exact ⟨rfl, rfl⟩

end F1r3Node.DagStorage
