import F1r3Node.StateSync.BlockRequester

/-! # Forged blocks

Any other block whose hash is wrong is not saved, but it has already been marked as received: its hash is not
requested again, and the genuine block is not asked for any more.
-/

namespace F1r3Node.StateSync

open Shared
open Casper (BlockMessage BlockCodec Justification hashBlock)
open DagStorage (HashOrder)

variable {D S : Type} {setup : Setup D S} {faults : Faults} {r r' : Requester D S} {block : BlockMessage D S}

theorem validate_of_validateReceivedBlock (h : (validateReceivedBlock setup r block).2 = true) :
    setup.validate block = true := by
  cases hInvalid : setup.validate block with
  | true => rfl
  | false => simp [validateReceivedBlock, hInvalid] at h

theorem saveBlock_blockStore (faults : Faults) (r : Requester D S) (block : BlockMessage D S) :
    (saveBlock faults r block).1.blockStore = r.blockStore ∨
      (saveBlock faults r block).1.blockStore = r.blockStore.insert block.blockHash block := by
  rw [saveBlock]
  split
  · exact .inl rfl
  · split
    · exact .inl rfl
    · exact .inr rfl

theorem processBlock_blockStore (setup : Setup D S) (faults : Faults) (r : Requester D S) (block : BlockMessage D S) :
    (processBlock setup faults r block).1.blockStore = r.blockStore ∨
      setup.validate block = true ∧
        (processBlock setup faults r block).1.blockStore = r.blockStore.insert block.blockHash block := by
  dsimp only [processBlock]
  cases hValid : (validateReceivedBlock setup r block).2 with
  | false => exact .inl rfl
  | true =>
    have hStore := saveBlock_blockStore faults { r with st := (validateReceivedBlock setup r block).1 } block
    have hChecked := validate_of_validateReceivedBlock hValid
    simp only [if_true]
    split
    · exact hStore.imp_right fun h => ⟨hChecked, h⟩
    · exact hStore.imp_right fun h => ⟨hChecked, h⟩

def processed (r : Requester D S) : Event D S → Option (BlockMessage D S)
  | .block block => some block
  | .existing => r.responseHashes.head?.bind fun hash => r.blockStore.lookup hash
  | .request | .idle | .mergeableEntry _ => none

theorem afterEvent_blockStore (outcome : Requester D S × Bool) : (afterEvent outcome).blockStore = outcome.1.blockStore := by
  rw [afterEvent]
  split <;> rfl

theorem streamStep_blockStore (setup : Setup D S) (faults : Faults) (r : Requester D S) (event : Event D S) :
    (streamStep setup faults r event).blockStore = r.blockStore ∨
      ∃ block, processed r event = some block ∧ setup.validate block = true ∧
        (streamStep setup faults r event).blockStore = r.blockStore.insert block.blockHash block := by
  unfold streamStep
  split
  · exact .inl rfl
  · cases event with
    | request =>
      refine .inl ?_
      dsimp only
      split
      · rfl
      · exact afterEvent_blockStore _
    | idle =>
      refine .inl ?_
      dsimp only
      split <;> rfl
    | mergeableEntry resp =>
      refine .inl ?_
      dsimp only [processMergeableEntry]
      split_ifs <;> rfl
    | block block =>
      dsimp only
      rw [afterEvent_blockStore]
      exact (processBlock_blockStore setup faults r block).imp_right fun h => ⟨block, rfl, h⟩
    | existing =>
      dsimp only
      cases hQueue : r.responseHashes with
      | nil => exact .inl rfl
      | cons hash hashes =>
        dsimp only
        cases hStored : r.blockStore.lookup hash with
        | none => exact .inl rfl
        | some block =>
          dsimp only
          rw [afterEvent_blockStore]
          refine (processBlock_blockStore setup faults { r with responseHashes := hashes } block).imp_right fun h => ⟨block, ?_, h⟩
          simp [processed, hQueue, hStored]

def setupOf (E : BlockCodec D S) (approvedBlock : BlockMessage D S) (order : HashOrder) : Setup D S where
  validate := validateBlock E
  latestMessages := latestMessagesOf approvedBlock.justifications
  order := order

def Runs (E : BlockCodec D S) (approvedBlock : BlockMessage D S) (order : HashOrder) (r r' : Requester D S) : Prop :=
  ∃ faults event, r' = streamStep (setupOf E approvedBlock order) faults r event

/-- A round in which no block passes for the genesis block with a hash that is not its own. -/
def RunsWithoutFalseGenesis (E : BlockCodec D S) (approvedBlock : BlockMessage D S) (order : HashOrder)
    (r r' : Requester D S) : Prop :=
  ∃ faults event, (∀ block, processed r event = some block → blockNumber block = 0 → block.blockHash = hashBlock E block) ∧
    r' = streamStep (setupOf E approvedBlock order) faults r event

theorem saved_blocks_authentic {E : BlockCodec D S} {approvedBlock : BlockMessage D S} {order : HashOrder}
    {initialMinimumHeight : Int64} {blockStore : Finmap fun _ : Bytes => BlockMessage D S}
    (hRun : Relation.ReflTransGen (RunsWithoutFalseGenesis E approvedBlock order)
      (startOf approvedBlock initialMinimumHeight blockStore) r) (h : Bytes) (b : BlockMessage D S)
    (hStored : r.blockStore.lookup h = some b) : blockStore.lookup h = some b ∨ hashBlock E b = h := by
  induction hRun with
  | refl => exact .inl hStored
  | @tail r r' _ hStep ih =>
    obtain ⟨faults, event, hGenesis, rfl⟩ := hStep
    obtain hSame | ⟨block, hProcessed, hValid, hInserted⟩ :=
      streamStep_blockStore (setupOf E approvedBlock order) faults r event
    · rw [hSame] at hStored
      exact ih hStored
    · rw [hInserted] at hStored
      obtain rfl | hNe := eq_or_ne h block.blockHash
      · rw [Finmap.lookup_insert] at hStored
        cases hStored
        have hHash : b.blockHash = hashBlock E b := by
          change validateBlock E b = true at hValid
          rw [validateBlock] at hValid
          split at hValid
          · next hZero => exact hGenesis b hProcessed hZero
          · exact of_decide_eq_true hValid
        exact .inr hHash.symm
      · rw [Finmap.lookup_insert_of_ne _ hNe] at hStored
        exact ih hStored

def sampleCodec : BlockCodec Unit Unit where
  blake := paddingDigest
  headerProto _ := []
  rejectedDeployProto _ := []
  processedDeployProto _ := []
  processedSystemDeployProto _ := []

def draftBlock (postStateHash : Bytes) (number : Int64) (justifications : List Justification) : BlockMessage Unit Unit where
  blockHash := []
  header := ⟨[], 0, 1, []⟩
  body := ⟨⟨[], postStateHash, [], number⟩, [], [], [], [], [], []⟩
  justifications := justifications
  sender := []
  seqNum := 0
  sig := []
  sigAlgorithm := ""
  shardId := ""
  extraBytes := []

def sealBlock (block : BlockMessage Unit Unit) : BlockMessage Unit Unit := { block with blockHash := hashBlock sampleCodec block }

def latestBlock : BlockMessage Unit Unit := sealBlock (draftBlock [1] 4 [])

def approvedBlock : BlockMessage Unit Unit := sealBlock (draftBlock [2] 5 [⟨[9], latestBlock.blockHash⟩])

def forgedBlock (number : Int64) : BlockMessage Unit Unit := { draftBlock [3] number [] with blockHash := latestBlock.blockHash }

def noFaults : Faults := ⟨fun _ => false, false, false, false⟩

def sampleSetup : Setup Unit Unit := setupOf sampleCodec approvedBlock .ascending

def afterEvents (events : List (Event Unit Unit)) : Requester Unit Unit :=
  events.foldl (streamStep sampleSetup noFaults) (startOf approvedBlock 0 ∅)

/-- The latest block is requested, and a block with its hash and the number of the genesis block comes. -/
theorem falseGenesis_saved :
    ∃ r, Relation.ReflTransGen (Runs sampleCodec approvedBlock .ascending) (startOf approvedBlock 0 ∅) r ∧
      latestBlock.blockHash = hashBlock sampleCodec latestBlock ∧
      r.blockStore.lookup latestBlock.blockHash = some (forgedBlock 0) ∧
      hashBlock sampleCodec (forgedBlock 0) ≠ latestBlock.blockHash := by
  refine ⟨afterEvents [.request, .block (forgedBlock 0)], ?_, rfl, rfl, by decide⟩
  exact .head ⟨noFaults, .request, rfl⟩ (.single ⟨noFaults, .block (forgedBlock 0), rfl⟩)

/-- The genuine block comes instead. -/
theorem genuineBlock_authentic :
    (afterEvents [.request, .block latestBlock]).blockStore.lookup latestBlock.blockHash = some latestBlock ∧
      hashBlock sampleCodec latestBlock = latestBlock.blockHash := by
  have hStored : (afterEvents [.request, .block latestBlock]).blockStore.lookup latestBlock.blockHash =
      some latestBlock := rfl
  have hRun : Relation.ReflTransGen (RunsWithoutFalseGenesis sampleCodec approvedBlock .ascending)
      (startOf approvedBlock 0 ∅) (afterEvents [.request, .block latestBlock]) := by
    refine .head ⟨noFaults, .request, nofun, rfl⟩ (.single ⟨noFaults, .block latestBlock, ?_, rfl⟩)
    rintro _ ⟨⟩ hZero
    exact absurd hZero (by decide)
  refine ⟨hStored, ?_⟩
  obtain hInitial | hAuthentic := saved_blocks_authentic hRun _ _ hStored
  · cases hInitial
  · exact hAuthentic

/-- The state that decides what is still asked for is as it was. -/
structure Undisturbed (st st' : ST Bytes) : Prop where
  latest : st'.latest = st.latest
  lowerBound : st'.lowerBound = st.lowerBound
  heightMap : st'.heightMap = st.heightMap
  d : st'.d = st.d
  resent : (st'.getNext true).2 = (st.getNext true).2

/-- Nothing is left that could be requested for the first time. -/
structure AllIssued (st : ST Bytes) : Prop where
  latest : ∀ k ∈ st.latest, k ∈ st.d ∧ st.d.lookup k ≠ some .init
  others : st.latest = ∅ → ∀ k, st.d.lookup k ≠ some .init

theorem due_false_or (found : Option ReqStatus) (p : Prop) [Decidable p] :
    ST.due false (found.or (if p then some .init else none)) = true ↔ found = some .init ∨ found = none ∧ p := by
  cases found with
  | none => by_cases hp : p <;> simp [ST.due, hp]
  | some status => simp [ST.due]

theorem mem_requestKeys_false {st : ST Bytes} {k : Bytes} :
    k ∈ st.requestKeys false ↔
      (st.d.lookup k = some .init ∨ st.d.lookup k = none ∧ k ∈ st.latest) ∧ (st.latest = ∅ ∨ k ∈ st.latest) := by
  rw [ST.requestKeys, Finset.mem_filter, Finset.mem_union, Finmap.mem_keys]
  have hStatus : ST.due false (st.requestStatus k) = true ↔
      st.d.lookup k = some .init ∨ st.d.lookup k = none ∧ k ∈ st.latest := due_false_or _ _
  rw [hStatus]
  constructor
  · rintro ⟨-, h⟩
    exact h
  · intro h
    refine ⟨?_, h⟩
    rcases h.1 with hInit | ⟨-, hLatest⟩
    · exact .inl (Finmap.mem_of_lookup_eq_some hInit)
    · exact .inr hLatest

theorem allIssued_iff {st : ST Bytes} : AllIssued st ↔ st.requestKeys false = ∅ := by
  constructor
  · intro h
    refine Finset.eq_empty_of_forall_notMem fun k hk => ?_
    obtain ⟨hStatus, hTurn⟩ := mem_requestKeys_false.mp hk
    rcases hTurn with hNone | hLatest
    · rcases hStatus with hInit | ⟨-, hLatest⟩
      · exact h.others hNone k hInit
      · exact absurd (hNone ▸ hLatest) (Finset.notMem_empty k)
    · obtain ⟨hMem, hNotInit⟩ := h.latest k hLatest
      rcases hStatus with hInit | ⟨hAbsent, -⟩
      · exact hNotInit hInit
      · exact Finmap.lookup_eq_none.mp hAbsent hMem
  · intro h
    have hNot : ∀ k, ¬ ((st.d.lookup k = some .init ∨ st.d.lookup k = none ∧ k ∈ st.latest) ∧
        (st.latest = ∅ ∨ k ∈ st.latest)) := by
      intro k hk
      have hMem := mem_requestKeys_false.mpr hk
      rw [h] at hMem
      exact Finset.notMem_empty k hMem
    refine ⟨fun k hk => ⟨?_, ?_⟩, fun hNone k hInit => hNot k ⟨.inl hInit, .inl hNone⟩⟩
    · by_contra hAbsent
      exact hNot k ⟨.inr ⟨Finmap.lookup_eq_none.mpr hAbsent, hk⟩, .inr hk⟩
    · exact fun hInit => hNot k ⟨.inl hInit, .inr hk⟩

theorem processBlock_of_invalid (hInvalid : setup.validate block = false) :
    (processBlock setup faults r block).1.st = ((markReceived setup r block).1.getNext false).1 := by
  have hValidated : validateReceivedBlock setup r block = ((markReceived setup r block).1, false) := by
    simp [validateReceivedBlock, hInvalid]
  simp [processBlock, hValidated, requestNext]

theorem markReceived_of_not_requested (h : r.st.d.lookup block.blockHash ≠ some .requested) :
    (markReceived setup r block).1 = r.st := by
  rw [markReceived, ST.received, if_neg h]

theorem markReceived_of_requested (h : r.st.d.lookup block.blockHash = some .requested) :
    (markReceived setup r block).1.d = r.st.d.insert block.blockHash .received := by
  rw [markReceived, ST.received, if_pos h]

theorem lookup_getNext (st : ST Bytes) (k : Bytes) :
    (st.getNext false).1.d.lookup k = if k ∈ st.requestKeys false then some .requested else st.d.lookup k :=
  lookup_allAt_union _ _ _ _

theorem getNext_of_allIssued {st : ST Bytes} (h : AllIssued st) : (st.getNext false).1 = st := by
  have hTable : allAt .requested (st.requestKeys false) ∪ st.d = st.d := by
    refine Finmap.ext_lookup fun k => ?_
    rw [lookup_allAt_union, allIssued_iff.mp h, if_neg (Finset.notMem_empty k)]
  rw [ST.getNext, hTable]

theorem undisturbed_iff (setup : Setup D S) (faults : Faults) (r : Requester D S) (block : BlockMessage D S)
    (hInvalid : setup.validate block = false) :
    Undisturbed r.st (processBlock setup faults r block).1.st ↔
      r.st.d.lookup block.blockHash ≠ some .requested ∧ AllIssued r.st := by
  rw [processBlock_of_invalid hInvalid]
  constructor
  · intro h
    have hNot : r.st.d.lookup block.blockHash ≠ some .requested := by
      intro hRequested
      -- the hash is marked as received, and that status is not one to be requested
      have hMarked : (markReceived setup r block).1.d.lookup block.blockHash = some .received := by
        rw [markReceived_of_requested hRequested, Finmap.lookup_insert]
      have hAfter : ((markReceived setup r block).1.getNext false).1.d.lookup block.blockHash = some .received := by
        rw [lookup_getNext, if_neg, hMarked]
        intro hMem
        rcases (mem_requestKeys_false.mp hMem).1 with hInit | ⟨hNone, -⟩
        · rw [hMarked] at hInit
          cases hInit
        · rw [hMarked] at hNone
          cases hNone
      rw [h.d, hRequested] at hAfter
      cases hAfter
    refine ⟨hNot, allIssued_iff.mpr (Finset.eq_empty_of_forall_notMem fun k hk => ?_)⟩
    have hTable := h.d
    rw [markReceived_of_not_requested hNot] at hTable
    have hStatus := lookup_getNext r.st k
    rw [if_pos hk, hTable] at hStatus
    rcases (mem_requestKeys_false.mp hk).1 with hInit | ⟨hNone, -⟩
    · rw [hStatus] at hInit
      cases hInit
    · rw [hStatus] at hNone
      cases hNone
  · rintro ⟨hNot, hIssued⟩
    rw [markReceived_of_not_requested hNot, getNext_of_allIssued hIssued]
    exact ⟨rfl, rfl, rfl, rfl, rfl⟩

/-- A forged block comes for a requested hash. The hash is not asked for any more, and the genuine block that comes
afterwards is not taken. -/
theorem forgedBlock_disturbs :
    ∃ r, Relation.ReflTransGen (Runs sampleCodec approvedBlock .ascending) (startOf approvedBlock 0 ∅) r ∧
      validateBlock sampleCodec (forgedBlock 4) = false ∧
      r.st.d.lookup latestBlock.blockHash = some .requested ∧
      ¬ Undisturbed r.st (processBlock sampleSetup noFaults r (forgedBlock 4)).1.st ∧
      latestBlock.blockHash ∉ ((processBlock sampleSetup noFaults r (forgedBlock 4)).1.st.getNext true).2 ∧
      (afterEvents [.request, .block (forgedBlock 4), .block latestBlock]).blockStore.lookup latestBlock.blockHash = none := by
  refine ⟨afterEvents [.request], .single ⟨noFaults, .request, rfl⟩, by decide, rfl, ?_, by decide, rfl⟩
  intro h
  have hLatest := h.latest
  revert hLatest
  decide

/-- A forged block for a hash that was not asked for. -/
theorem unrequested_undisturbed :
    Undisturbed (afterEvents [.request]).st
      (processBlock sampleSetup noFaults (afterEvents [.request]) { forgedBlock 4 with blockHash := [7] }).1.st := by
  refine (undisturbed_iff sampleSetup noFaults _ _ (by decide)).mpr ⟨by decide, ?_⟩
  exact allIssued_iff.mpr (by decide)

end F1r3Node.StateSync
