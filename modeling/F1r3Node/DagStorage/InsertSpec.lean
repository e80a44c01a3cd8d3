import F1r3Node.DagStorage.Insert

/-! # What an insert writes

Each stage of an insert either returns, and then its write is known, or fails, and then the state it stopped in is
known.
-/

namespace F1r3Node.DagStorage

open Shared Dag Lib.Stateful
open Casper (BlockMessage)

variable {S : Type} {s s' : BlockDagStorage} {e : StoreError}

theorem run_modify (write : BlockDagStorage → BlockDagStorage) : (modify write : StorageM Unit).run s = .ok () (write s) :=
  rfl

variable {fails : Bool} {table : String}

theorem run_failIf_eq_ok :
    (failIf fails table).run s = .ok () s' ↔ fails = false ∧ s = s' := by
  cases fails with
  | true => exact iff_of_false (by rintro ⟨⟩) (by rintro ⟨⟨⟩, -⟩)
  | false => exact ⟨fun h => ⟨rfl, (EStateM.Result.ok.inj h).2⟩, fun ⟨_, h⟩ => h ▸ rfl⟩

theorem run_failIf_eq_error (h : (failIf fails table).run s = .error e s') :
    fails = true ∧ s = s' := by
  cases fails with
  | false => cases h
  | true => exact ⟨rfl, (EStateM.Result.error.inj h).2⟩

variable {write : BlockDagStorage → BlockDagStorage}

theorem run_write_eq_ok :
    (failIf fails table >>= fun _ => modify write : StorageM Unit).run s = .ok () s' ↔ fails = false ∧ write s = s' := by
  rw [run_bind_eq_ok]
  constructor
  · rintro ⟨_, t, hGuard, hWrite⟩
    obtain ⟨hFails, rfl⟩ := run_failIf_eq_ok.mp hGuard
    exact ⟨hFails, (EStateM.Result.ok.inj hWrite).2⟩
  · rintro ⟨hFails, rfl⟩
    exact ⟨(), s, run_failIf_eq_ok.mpr ⟨hFails, rfl⟩, rfl⟩

theorem run_write_eq_error
    (h : (failIf fails table >>= fun _ => modify write : StorageM Unit).run s = .error e s') : fails = true ∧ s = s' := by
  obtain hGuard | ⟨_, t, -, hWrite⟩ := run_bind_eq_error.mp h
  · exact run_failIf_eq_error hGuard
  · cases hWrite

theorem run_writeEach_eq_ok {α : Type} {items : List α} {fails : α → Bool}
    {write : α → BlockDagStorage → BlockDagStorage} :
    (writeEach items fails table write).run s = .ok () s' ↔
      (∀ item ∈ items, fails item = false) ∧ items.foldl (fun s item => write item s) s = s' := by
  induction items generalizing s with
  | nil => exact ⟨fun h => ⟨by simp, (EStateM.Result.ok.inj h).2⟩, fun ⟨_, h⟩ => h ▸ rfl⟩
  | cons item items ih =>
    rw [List.forall_mem_cons, List.foldl_cons]
    constructor
    · intro h
      obtain ⟨_, t, hHead, hTail⟩ := run_bind_eq_ok.mp h
      obtain ⟨hFails, rfl⟩ := run_write_eq_ok.mp hHead
      obtain ⟨hRest, rfl⟩ := ih.mp hTail
      exact ⟨⟨hFails, hRest⟩, rfl⟩
    · rintro ⟨⟨hFails, hRest⟩, rfl⟩
      exact run_bind_eq_ok.mpr ⟨(), _, run_write_eq_ok.mpr ⟨hFails, rfl⟩, ih.mpr ⟨hRest, rfl⟩⟩

def SameButTables (s s' : BlockDagStorage) : Prop :=
  s' = { s with carrierIndex := s'.carrierIndex, lifecycle := s'.lifecycle }

theorem SameButTables.refl (s : BlockDagStorage) : SameButTables s s := rfl

theorem SameButTables.trans {r s t : BlockDagStorage} (h : SameButTables r s) (h' : SameButTables s t) :
    SameButTables r t := by
  rw [SameButTables] at h h' ⊢
  rw [h', h]

theorem SameButTables.symm {s t : BlockDagStorage} (h : SameButTables s t) : SameButTables t s := by
  rw [SameButTables] at h ⊢
  rw [h]

theorem SameButTables.exists_eq {s t : BlockDagStorage} (h : SameButTables s t) :
    ∃ carrierIndex lifecycle, t = { s with carrierIndex, lifecycle } :=
  ⟨t.carrierIndex, t.lifecycle, h⟩

theorem respects_writeEach {α : Type} {items : List α} {fails : α → Bool}
    {write : α → BlockDagStorage → BlockDagStorage} (hWrite : ∀ item s, SameButTables s (write item s)) :
    Respects SameButTables (writeEach items fails table write) := by
  refine Respects.forM SameButTables.refl (fun _ _ _ => SameButTables.trans) fun item _ => ?_
  refine Respects.bind (fun _ _ _ => SameButTables.trans) ?_ fun _ s => hWrite item s
  intro s
  cases fails item with
  | true => exact SameButTables.refl s
  | false => exact SameButTables.refl s

def IngestSucceeds (faults : StoreFaults) (block : BlockMessage ProcessedDeploy S) (mode : InsertMode) : Prop :=
  (∀ pd ∈ block.body.deploys, faults.carriers pd.sig = false) ∧
    (mode ≠ .invalid → (∀ pd ∈ block.body.deploys, faults.lifecycle pd.sig = false) ∧
      ∀ rd ∈ block.body.rejectedDeploys, faults.lifecycle rd.sig = false)

theorem respects_ingest (faults : StoreFaults) (block : BlockMessage ProcessedDeploy S) (mode : InsertMode) :
    Respects SameButTables (ingest faults block mode) := by
  refine Respects.bind (fun _ _ _ => SameButTables.trans) (respects_writeEach fun _ _ => rfl) fun _ => ?_
  rw [ingestLifecycle]
  split
  · exact SameButTables.refl
  · exact Respects.bind (fun _ _ _ => SameButTables.trans) (respects_writeEach fun _ _ => rfl)
      fun _ => respects_writeEach fun _ _ => rfl

theorem run_ingest_eq_ok {faults : StoreFaults} {block : BlockMessage ProcessedDeploy S} {mode : InsertMode} :
    (∃ t, (ingest faults block mode).run s = .ok () t) ↔ IngestSucceeds faults block mode := by
  rw [ingest, IngestSucceeds]
  constructor
  · rintro ⟨t, h⟩
    obtain ⟨_, t', hCarriers, hLifecycle⟩ := run_bind_eq_ok.mp h
    refine ⟨(run_writeEach_eq_ok.mp hCarriers).1, fun hMode => ?_⟩
    rw [ingestLifecycle, if_neg hMode] at hLifecycle
    obtain ⟨_, t'', hIncluded, hRejected⟩ := run_bind_eq_ok.mp hLifecycle
    exact ⟨(run_writeEach_eq_ok.mp hIncluded).1, (run_writeEach_eq_ok.mp hRejected).1⟩
  · rintro ⟨hCarriers, hLifecycle⟩
    rw [ingestCarriers, run_bind_of_ok (run_writeEach_eq_ok.mpr ⟨hCarriers, rfl⟩), ingestLifecycle]
    split
    · exact ⟨_, rfl⟩
    · next hMode =>
      obtain ⟨hIncluded, hRejected⟩ := hLifecycle hMode
      rw [run_bind_of_ok (run_writeEach_eq_ok.mpr ⟨hIncluded, rfl⟩)]
      exact ⟨_, run_writeEach_eq_ok.mpr ⟨hRejected, rfl⟩⟩

theorem ingestSucceeds_none (block : BlockMessage ProcessedDeploy S) (mode : InsertMode) :
    IngestSucceeds .none block mode :=
  ⟨fun _ _ => rfl, fun _ => ⟨fun _ _ => rfl, fun _ _ => rfl⟩⟩

theorem run_checkFormat_eq_ok {block : BlockMessage ProcessedDeploy S} :
    (checkFormat block).run s = .ok () s' ↔ WellFormed block ∧ s = s' := by
  rw [checkFormat, WellFormed]
  by_cases hSender : block.sender ≠ [] ∧ block.sender.length ≠ validatorLength
  · rw [if_pos hSender]
    exact iff_of_false (by rintro ⟨⟩) fun h => hSender.2 (h.1.1 hSender.1)
  · rw [if_neg hSender]
    have hLength : block.sender ≠ [] → block.sender.length = validatorLength :=
      fun hNe => not_not.mp fun hLen => hSender ⟨hNe, hLen⟩
    by_cases hHash : block.blockHash.length ≠ blockHashLength
    · rw [if_pos hHash]
      exact iff_of_false (by rintro ⟨⟩) fun h => hHash h.1.2
    · rw [if_neg hHash]
      exact ⟨fun h => ⟨⟨hLength, not_not.mp hHash⟩, (EStateM.Result.ok.inj h).2⟩, fun h => h.2 ▸ rfl⟩

theorem run_checkFormat_eq_error {block : BlockMessage ProcessedDeploy S}
    (h : (checkFormat block).run s = .error e s') : ¬ WellFormed block ∧ s = s' := by
  have hNot : ¬ WellFormed block := by
    intro hWell
    rw [run_checkFormat_eq_ok.mpr ⟨hWell, rfl⟩] at h
    cases h
  refine ⟨hNot, ?_⟩
  rw [checkFormat] at h
  split at h
  · exact (EStateM.Result.error.inj h).2
  · split at h
    · exact (EStateM.Result.error.inj h).2
    · cases h

/-- The block is in the DAG set, its row and its place among the invalid blocks are written. -/
def BlockDagStorage.visible (s : BlockDagStorage) (metadata : BlockMetadata) (mode : InsertMode) : BlockDagStorage :=
  if mode = .invalid then ((s.addToDagState metadata).putMetadata metadata).putInvalid metadata
  else (s.addToDagState metadata).putMetadata metadata

variable {metadata : BlockMetadata}

theorem run_add_eq_ok {faults : StoreFaults} :
    (add faults metadata).run s = .ok () s' ↔
      faults.metadata = false ∧ (s.addToDagState metadata).putMetadata metadata = s' := by
  rw [add, run_bind_of_ok (run_modify _)]
  exact run_write_eq_ok

theorem run_add_eq_error {faults : StoreFaults}
    (h : (add faults metadata).run s = .error e s') : faults.metadata = true ∧ s.addToDagState metadata = s' := by
  rw [add, run_bind_of_ok (run_modify _)] at h
  exact run_write_eq_error h

theorem run_indexInvalid_eq_ok {faults : StoreFaults} {mode : InsertMode} :
    (indexInvalid faults metadata mode).run s = .ok () s' ↔
      (mode = .invalid → faults.invalidBlocks = false) ∧ (if mode = .invalid then s.putInvalid metadata else s) = s' := by
  rw [indexInvalid]
  by_cases hMode : mode = .invalid
  · rw [if_pos hMode, if_pos hMode, run_write_eq_ok, forall_prop_of_true hMode]
  · rw [if_neg hMode, if_neg hMode]
    exact ⟨fun h => ⟨fun h' => absurd h' hMode, (EStateM.Result.ok.inj h).2⟩, fun h => h.2 ▸ rfl⟩

theorem run_indexInvalid_eq_error {faults : StoreFaults} {mode : InsertMode}
    (h : (indexInvalid faults metadata mode).run s = .error e s') :
    mode = .invalid ∧ faults.invalidBlocks = true ∧ s = s' := by
  rw [indexInvalid] at h
  split at h
  · next hMode => exact ⟨hMode, run_write_eq_error h⟩
  · cases h

/-- The placeholders of the newly bonded; none is needed when every bonded validator is known. -/
def BlockDagStorage.seeds (s : BlockDagStorage) (silent : SilentFaults) (block : BlockMessage ProcessedDeploy S) :
    Option (List (Bytes × Bytes)) :=
  if s.newlyBondedUnseen silent block = [] then some []
  else s.knownGenesis.map fun placeholder => (s.newlyBondedUnseen silent block).map (·, placeholder)

def SeedsFail (s : BlockDagStorage) (silent : SilentFaults) (faults : StoreFaults)
    (block : BlockMessage ProcessedDeploy S) : Prop :=
  s.newlyBondedUnseen silent block ≠ [] ∧ (faults.genesisHash = true ∨ s.knownGenesis = none)

variable {silent : SilentFaults} {faults : StoreFaults} {block : BlockMessage ProcessedDeploy S} {mode : InsertMode}

theorem run_newLatestMessages (hSeeds : ¬ SeedsFail s silent faults block) :
    ∃ seeded, s.seeds silent block = some seeded ∧ (newLatestMessages silent faults block).run s = .ok seeded s := by
  rw [newLatestMessages, run_bind_of_ok (EStateM.run_get s), BlockDagStorage.seeds]
  by_cases hUnseen : s.newlyBondedUnseen silent block = []
  · rw [if_pos hUnseen, if_pos hUnseen]
    exact ⟨[], rfl, rfl⟩
  · rw [if_neg hUnseen, if_neg hUnseen]
    have hRead : faults.genesisHash = false := Bool.eq_false_iff.mpr fun h => hSeeds ⟨hUnseen, .inl h⟩
    obtain ⟨placeholder, hKnown⟩ := Option.ne_none_iff_exists'.mp fun h => hSeeds ⟨hUnseen, .inr h⟩
    have hGenesis : (genesisHash faults).run s = .ok (some placeholder) s := by
      rw [genesisHash, run_bind_of_ok (run_failIf_eq_ok.mpr ⟨hRead, rfl⟩), run_bind_of_ok (EStateM.run_get s), hKnown]
      rfl
    rw [hKnown, run_bind_of_ok hGenesis]
    exact ⟨_, rfl, rfl⟩

theorem run_newLatestMessages_error (hSeeds : SeedsFail s silent faults block) :
    ∃ e, (newLatestMessages silent faults block).run s = .error e s := by
  rw [newLatestMessages, run_bind_of_ok (EStateM.run_get s), if_neg hSeeds.1]
  cases hRead : faults.genesisHash with
  | true => exact ⟨_, run_bind_of_error (run_bind_of_error (by rw [hRead]; rfl))⟩
  | false =>
    have hKnown := hSeeds.2.resolve_left (by simp [hRead])
    have hGenesis : (genesisHash faults).run s = .ok none s := by
      rw [genesisHash, run_bind_of_ok (run_failIf_eq_ok.mpr ⟨hRead, rfl⟩), run_bind_of_ok (EStateM.run_get s), hKnown]
      rfl
    rw [run_bind_of_ok hGenesis]
    exact ⟨_, rfl⟩

def BlockDagStorage.advanced (s : BlockDagStorage) (silent : SilentFaults) (block : BlockMessage ProcessedDeploy S)
    (mode : InsertMode) : BlockDagStorage :=
  if mode = .settledHistory then s
  else s.putLatestMessages ((s.seeds silent block).getD [] ++ s.newLatestFromSender silent block)

def AdvanceFails (s : BlockDagStorage) (silent : SilentFaults) (faults : StoreFaults)
    (block : BlockMessage ProcessedDeploy S) (mode : InsertMode) : Prop :=
  mode ≠ .settledHistory ∧ (faults.latestMessages = true ∨ SeedsFail s silent faults block)

theorem run_advanceLatestMessages (h : ¬ AdvanceFails s silent faults block mode) :
    (advanceLatestMessages silent faults block mode).run s = .ok () (s.advanced silent block mode) := by
  rw [advanceLatestMessages, BlockDagStorage.advanced]
  by_cases hMode : mode = .settledHistory
  · rw [if_pos hMode, if_pos hMode]
    rfl
  · rw [if_neg hMode, if_neg hMode]
    have hWrite : faults.latestMessages = false := Bool.eq_false_iff.mpr fun hw => h ⟨hMode, .inl hw⟩
    obtain ⟨seeded, hSeeds, hRun⟩ := run_newLatestMessages fun hs => h ⟨hMode, .inr hs⟩
    rw [run_bind_of_ok (EStateM.run_get s), run_bind_of_ok hRun, hSeeds]
    exact run_write_eq_ok.mpr ⟨hWrite, rfl⟩

theorem run_advanceLatestMessages_error (h : AdvanceFails s silent faults block mode) :
    ∃ e, (advanceLatestMessages silent faults block mode).run s = .error e s := by
  rw [advanceLatestMessages, if_neg h.1, run_bind_of_ok (EStateM.run_get s)]
  by_cases hSeeds : SeedsFail s silent faults block
  · obtain ⟨e, hRun⟩ := run_newLatestMessages_error hSeeds
    exact ⟨e, run_bind_of_error hRun⟩
  · obtain ⟨seeded, -, hRun⟩ := run_newLatestMessages hSeeds
    rw [run_bind_of_ok hRun]
    exact ⟨_, run_bind_of_error (by rw [h.2.resolve_right hSeeds]; rfl)⟩

theorem run_advanceLatestMessages_eq_ok :
    (advanceLatestMessages silent faults block mode).run s = .ok () s' ↔
      ¬ AdvanceFails s silent faults block mode ∧ s.advanced silent block mode = s' := by
  by_cases hFails : AdvanceFails s silent faults block mode
  · obtain ⟨e, hError⟩ := run_advanceLatestMessages_error hFails
    rw [hError]
    exact iff_of_false (by rintro ⟨⟩) fun h => h.1 hFails
  · rw [run_advanceLatestMessages hFails]
    exact ⟨fun h => ⟨hFails, (EStateM.Result.ok.inj h).2⟩, fun h => h.2 ▸ rfl⟩

theorem run_advanceLatestMessages_eq_error (h : (advanceLatestMessages silent faults block mode).run s = .error e s') :
    AdvanceFails s silent faults block mode ∧ s = s' := by
  by_cases hFails : AdvanceFails s silent faults block mode
  · obtain ⟨e', hError⟩ := run_advanceLatestMessages_error hFails
    rw [hError] at h
    exact ⟨hFails, (EStateM.Result.error.inj h).2⟩
  · rw [run_advanceLatestMessages hFails] at h
    cases h

/-- The state in which a fresh block is visible, with the tables as the ingest left them. -/
def VisibleFrom (s : BlockDagStorage) (block : BlockMessage ProcessedDeploy S) (mode : InsertMode) (t : BlockDagStorage) :
    Prop :=
  ∃ r, SameButTables s r ∧ t = r.visible (metadataFromBlock block (mode = .invalid)) mode

theorem run_insertFresh_eq_ok (h : (insertFresh silent faults block mode).run s = .ok () s') :
    WellFormed block ∧ faults.metadata = false ∧ (mode = .invalid → faults.invalidBlocks = false) ∧
      ∃ t, VisibleFrom s block mode t ∧ ¬ AdvanceFails t silent faults block mode ∧ s' = t.advanced silent block mode := by
  obtain ⟨_, r₀, hFormat, h⟩ := run_bind_eq_ok.mp h
  obtain ⟨hWell, rfl⟩ := run_checkFormat_eq_ok.mp hFormat
  obtain ⟨_, r, hIngest, h⟩ := run_bind_eq_ok.mp h
  obtain ⟨_, t₀, hAdd, h⟩ := run_bind_eq_ok.mp h
  obtain ⟨hMetadata, rfl⟩ := run_add_eq_ok.mp hAdd
  obtain ⟨_, t, hInvalid, h⟩ := run_bind_eq_ok.mp h
  obtain ⟨hIndexed, rfl⟩ := run_indexInvalid_eq_ok.mp hInvalid
  obtain ⟨hFails, rfl⟩ := run_advanceLatestMessages_eq_ok.mp h
  exact ⟨hWell, hMetadata, hIndexed, _, ⟨r, (respects_ingest faults block mode).of_ok hIngest, rfl⟩, hFails, rfl⟩

theorem run_insertFresh_eq_error (h : (insertFresh silent faults block mode).run s = .error e s') :
    (SameButTables s s' ∧ ¬ (WellFormed block ∧ IngestSucceeds faults block mode)) ∨
      WellFormed block ∧ IngestSucceeds faults block mode ∧ ∃ r, SameButTables s r ∧
        ((faults.metadata = true ∧ s' = r.addToDagState (metadataFromBlock block (mode = .invalid))) ∨
          (faults.metadata = false ∧ mode = .invalid ∧ faults.invalidBlocks = true ∧
            s' = (r.addToDagState (metadataFromBlock block (mode = .invalid))).putMetadata
              (metadataFromBlock block (mode = .invalid))) ∨
          (faults.metadata = false ∧ (mode = .invalid → faults.invalidBlocks = false) ∧
            s' = r.visible (metadataFromBlock block (mode = .invalid)) mode ∧
            AdvanceFails s' silent faults block mode)) := by
  obtain hFormat | ⟨_, r₀, hFormat, h⟩ := run_bind_eq_error.mp h
  · obtain ⟨hNot, rfl⟩ := run_checkFormat_eq_error hFormat
    exact .inl ⟨SameButTables.refl s, fun hBoth => hNot hBoth.1⟩
  obtain ⟨hWell, rfl⟩ := run_checkFormat_eq_ok.mp hFormat
  obtain hIngest | ⟨_, r, hIngest, h⟩ := run_bind_eq_error.mp h
  · refine .inl ⟨(respects_ingest faults block mode).of_error hIngest, fun hBoth => ?_⟩
    obtain ⟨t, hOk⟩ := (run_ingest_eq_ok (s := s)).mpr hBoth.2
    rw [hOk] at hIngest
    cases hIngest
  refine .inr ⟨hWell, run_ingest_eq_ok.mp ⟨r, hIngest⟩, r, (respects_ingest faults block mode).of_ok hIngest, ?_⟩
  obtain hAdd | ⟨_, t₀, hAdd, h⟩ := run_bind_eq_error.mp h
  · obtain ⟨hFault, rfl⟩ := run_add_eq_error hAdd
    exact .inl ⟨hFault, rfl⟩
  obtain ⟨hNoFault, rfl⟩ := run_add_eq_ok.mp hAdd
  obtain hInvalid | ⟨_, t, hInvalid, h⟩ := run_bind_eq_error.mp h
  · obtain ⟨hMode, hFault, rfl⟩ := run_indexInvalid_eq_error hInvalid
    exact .inr (.inl ⟨hNoFault, hMode, hFault, rfl⟩)
  obtain ⟨hIndexed, rfl⟩ := run_indexInvalid_eq_ok.mp hInvalid
  obtain ⟨hFails, rfl⟩ := run_advanceLatestMessages_eq_error h
  exact .inr (.inr ⟨hNoFault, hIndexed, rfl, hFails⟩)

theorem run_insertFresh (hWell : WellFormed block) (hIngest : IngestSucceeds faults block mode)
    (hMetadata : faults.metadata = false) (hInvalid : mode = .invalid → faults.invalidBlocks = false)
    (hAdvance : ∀ t, VisibleFrom s block mode t → ¬ AdvanceFails t silent faults block mode) :
    ∃ t, VisibleFrom s block mode t ∧
      (insertFresh silent faults block mode).run s = .ok () (t.advanced silent block mode) := by
  obtain ⟨r, hRun⟩ := (run_ingest_eq_ok (s := s)).mpr hIngest
  have hVisible : VisibleFrom s block mode (r.visible (metadataFromBlock block (mode = .invalid)) mode) :=
    ⟨r, (respects_ingest faults block mode).of_ok hRun, rfl⟩
  refine ⟨_, hVisible, ?_⟩
  rw [insertFresh, run_bind_of_ok (run_checkFormat_eq_ok.mpr ⟨hWell, rfl⟩), run_bind_of_ok hRun,
    run_bind_of_ok (run_add_eq_ok.mpr ⟨hMetadata, rfl⟩), run_bind_of_ok (run_indexInvalid_eq_ok.mpr ⟨hInvalid, rfl⟩)]
  exact run_advanceLatestMessages (hAdvance _ hVisible)

variable {order : HashOrder}

def BlockDagStorage.finalizedMarks (s : BlockDagStorage) (order : HashOrder) (directly : Bytes) (blockNumber : Int)
    (indirectly : Finset Bytes) : BlockDagStorage :=
  (s.finalizeInMemory order directly blockNumber indirectly).putFinalized directly indirectly

theorem run_recordFinalized_eq_ok {directly : Bytes} {indirectly : Finset Bytes} :
    (recordFinalized order faults directly indirectly).run s = .ok () s' ↔
      faults.finalizedRead = false ∧ faults.finalizedWrite = false ∧ (∀ h ∈ indirectly, s.metadataStore h ≠ none) ∧
        ∃ row, s.metadataStore directly = some row ∧
          s.finalizedMarks order directly row.metadata.blockNumber indirectly = s' := by
  have hFind : (order.toList indirectly).find? (fun hash => (s.metadataStore hash).isNone) = none ↔
      ∀ h ∈ indirectly, s.metadataStore h ≠ none := by
    rw [List.find?_eq_none]
    simp [order.mem_toList]
  rw [← hFind, recordFinalized, run_bind_eq_ok]
  constructor
  · rintro ⟨_, t, hRead, h⟩
    obtain ⟨hReadOk, rfl⟩ := run_failIf_eq_ok.mp hRead
    rw [run_bind_of_ok (EStateM.run_get s)] at h
    refine ⟨hReadOk, ?_⟩
    split at h
    · cases h
    · cases h
    · next row hNone hRow =>
      rw [run_bind_of_ok (run_modify _)] at h
      obtain ⟨hWriteOk, rfl⟩ := run_write_eq_ok.mp h
      exact ⟨hWriteOk, hNone, row, hRow, rfl⟩
  · rintro ⟨hReadOk, hWriteOk, hNone, row, hRow, rfl⟩
    refine ⟨(), s, run_failIf_eq_ok.mpr ⟨hReadOk, rfl⟩, ?_⟩
    rw [run_bind_of_ok (EStateM.run_get s), hNone, hRow]
    dsimp only
    rw [run_bind_of_ok (run_modify _)]
    exact run_write_eq_ok.mpr ⟨hWriteOk, rfl⟩

theorem run_recordFinalized_eq_error {directly : Bytes} {indirectly : Finset Bytes}
    (h : (recordFinalized order faults directly indirectly).run s = .error e s') :
    s' = s ∨ ∃ row, s.metadataStore directly = some row ∧
      s' = s.finalizeInMemory order directly row.metadata.blockNumber indirectly := by
  obtain hRead | ⟨_, t, hRead, h⟩ := run_bind_eq_error.mp h
  · exact .inl (run_failIf_eq_error hRead).2.symm
  · obtain ⟨-, rfl⟩ := run_failIf_eq_ok.mp hRead
    rw [run_bind_of_ok (EStateM.run_get s)] at h
    split at h
    · exact .inl (EStateM.Result.error.inj h).2.symm
    · exact .inl (EStateM.Result.error.inj h).2.symm
    · next row _ hRow =>
      rw [run_bind_of_ok (run_modify _)] at h
      exact .inr ⟨row, hRow, (run_write_eq_error h).2.symm⟩

def finishInsert (order : HashOrder) (faults : StoreFaults) (hash : Bytes) (mode : InsertMode) : StorageM BlockDagStorage := do
  markApproved order faults hash mode
  getRepresentationInternal faults

theorem run_insertInternal_visible (h : block.blockHash ∈ s.dagSet) :
    (insertInternal order silent faults block mode).run s = (finishInsert order faults block.blockHash mode).run s := by
  have hStored : (insertUnlessStored silent faults block mode).run s = .ok () s := by
    rw [insertUnlessStored, run_bind_of_ok (EStateM.run_get s), if_pos h]
    rfl
  rw [insertInternal, run_bind_of_ok hStored]
  rfl

theorem run_insertInternal_fresh (h : block.blockHash ∉ s.dagSet) :
    (insertInternal order silent faults block mode).run s =
      (insertFresh silent faults block mode >>= fun _ => finishInsert order faults block.blockHash mode).run s := by
  have hFresh : (insertUnlessStored silent faults block mode).run s = (insertFresh silent faults block mode).run s := by
    rw [insertUnlessStored, run_bind_of_ok (EStateM.run_get s), if_neg h]
  rw [insertInternal, EStateM.run_bind, EStateM.run_bind, hFresh]
  rfl

theorem run_getRepresentationInternal_eq_ok {t : BlockDagStorage} :
    (getRepresentationInternal faults).run s = .ok t s' ↔ faults.representation = false ∧ s = t ∧ s = s' := by
  rw [getRepresentationInternal, run_bind_eq_ok]
  constructor
  · rintro ⟨_, r, hGuard, h⟩
    obtain ⟨hOk, rfl⟩ := run_failIf_eq_ok.mp hGuard
    exact ⟨hOk, EStateM.Result.ok.inj h⟩
  · rintro ⟨hOk, rfl, rfl⟩
    exact ⟨(), s, run_failIf_eq_ok.mpr ⟨hOk, rfl⟩, rfl⟩

/-- The marks an approved block gets; other modes leave the state alone. -/
inductive Finished (order : HashOrder) (hash : Bytes) (mode : InsertMode) (s s' : BlockDagStorage) : Prop where
  | marked (row : MetadataRow) (approved : mode = .approved) (stored : s.metadataStore hash = some row)
      (marks : s' = s.finalizedMarks order hash row.metadata.blockNumber ∅)
  | kept (other : mode ≠ .approved) (same : s' = s)

theorem finished_of_ok {hash : Bytes} {t : BlockDagStorage}
    (h : (finishInsert order faults hash mode).run s = .ok t s') : Finished order hash mode s s' := by
  obtain ⟨_, r, hMark, hRest⟩ := run_bind_eq_ok.mp h
  obtain ⟨-, -, rfl⟩ := run_getRepresentationInternal_eq_ok.mp hRest
  rw [markApproved] at hMark
  split at hMark
  · next hMode =>
    obtain ⟨-, -, -, row, hRow, rfl⟩ := run_recordFinalized_eq_ok.mp hMark
    exact .marked row hMode hRow rfl
  · next hMode => exact .kept hMode (EStateM.Result.ok.inj hMark).2.symm

theorem Finished.run {hash : Bytes} (h : Finished order hash mode s s') :
    (finishInsert order .none hash mode).run s = .ok s' s' := by
  cases h with
  | marked row hMode hRow hEq =>
    have hMark : (recordFinalized order .none hash ∅).run s = .ok () s' :=
      run_recordFinalized_eq_ok.mpr ⟨rfl, rfl, by simp, row, hRow, hEq.symm⟩
    rw [finishInsert, markApproved, if_pos hMode, run_bind_of_ok hMark]
    rfl
  | kept hMode hEq =>
    rw [finishInsert, markApproved, if_neg hMode, hEq]
    rfl

theorem lookup_insert_seeds (validators : List Bytes) (placeholder : Bytes) (index : AList fun _ : Bytes => Bytes)
    (v : Bytes) :
    ((validators.map (·, placeholder)).foldl (fun index update => index.insert update.1 update.2) index).lookup v =
      if v ∈ validators then some placeholder else index.lookup v := by
  induction validators generalizing index with
  | nil => simp
  | cons w validators ih =>
    rw [List.map_cons, List.foldl_cons, ih]
    by_cases hMem : v ∈ validators
    · rw [if_pos hMem, if_pos (List.mem_cons_of_mem w hMem)]
    · rw [if_neg hMem]
      by_cases hEq : v = w
      · rw [hEq, AList.lookup_insert, if_pos List.mem_cons_self]
      · rw [AList.lookup_insert_ne hEq, if_neg (by simp [hEq, hMem])]

theorem latestMessageHash_advanced (hMode : mode ≠ .settledHistory)
    (hSeeds : s.newlyBondedUnseen silent block ≠ [] → s.knownGenesis ≠ none) (v : Bytes) :
    (s.advanced silent block mode).latestMessageHash v =
      if s.newLatestFromSender silent block ≠ [] ∧ v = block.sender then some block.blockHash
      else if v ∈ s.newlyBondedUnseen silent block then s.knownGenesis
      else s.latestMessageHash v := by
  have hSeeded : (((s.seeds silent block).getD []).foldl (fun index update => index.insert update.1 update.2)
      s.latestMessagesIndex).lookup v =
        if v ∈ s.newlyBondedUnseen silent block then s.knownGenesis else s.latestMessageHash v := by
    rw [BlockDagStorage.seeds]
    by_cases hUnseen : s.newlyBondedUnseen silent block = []
    · rw [if_pos hUnseen, hUnseen, if_neg List.not_mem_nil]
      rfl
    · obtain ⟨placeholder, hKnown⟩ := Option.ne_none_iff_exists'.mp (hSeeds hUnseen)
      rw [if_neg hUnseen, hKnown]
      exact lookup_insert_seeds _ _ _ v
  rw [BlockDagStorage.advanced, if_neg hMode, BlockDagStorage.latestMessageHash, BlockDagStorage.putLatestMessages,
    List.foldl_append]
  rw [BlockDagStorage.newLatestFromSender]
  by_cases hAdvances : block.sender ≠ [] ∧ s.senderAdvances silent block = true
  · rw [if_pos hAdvances, List.foldl_cons, List.foldl_nil]
    by_cases hEq : v = block.sender
    · rw [hEq, AList.lookup_insert, if_pos ⟨List.cons_ne_nil _ _, rfl⟩]
    · rw [AList.lookup_insert_ne hEq, hSeeded]
      exact (if_neg fun h => hEq h.2).symm
  · rw [if_neg hAdvances, List.foldl_nil, hSeeded]
    exact (if_neg fun h => h.1 rfl).symm

section VisibleFrom

variable {t : BlockDagStorage}

theorem newlyBondedUnseen_congr (h : t.latestMessagesIndex = s.latestMessagesIndex) :
    t.newlyBondedUnseen silent block = s.newlyBondedUnseen silent block := by
  rw [BlockDagStorage.newlyBondedUnseen, BlockDagStorage.newlyBondedUnseen, h]

variable (h : VisibleFrom s block mode t)

include h

theorem VisibleFrom.latestMessagesIndex_eq : t.latestMessagesIndex = s.latestMessagesIndex := by
  obtain ⟨r, hTables, rfl⟩ := h
  obtain ⟨carrierIndex, lifecycle, rfl⟩ := hTables.exists_eq
  rw [BlockDagStorage.visible]
  split <;> rfl

theorem VisibleFrom.dagSet_eq : t.dagSet = insert block.blockHash s.dagSet := by
  obtain ⟨r, hTables, rfl⟩ := h
  obtain ⟨carrierIndex, lifecycle, rfl⟩ := hTables.exists_eq
  rw [BlockDagStorage.visible]
  split <;> rfl

theorem VisibleFrom.metadataStore_eq :
    t.metadataStore = Function.update s.metadataStore block.blockHash
      (some ⟨metadataFromBlock block (mode = .invalid), false, false⟩) := by
  obtain ⟨r, hTables, rfl⟩ := h
  obtain ⟨carrierIndex, lifecycle, rfl⟩ := hTables.exists_eq
  rw [BlockDagStorage.visible]
  split <;> rfl

theorem VisibleFrom.finalizedBlockSet_eq : t.finalizedBlockSet = s.finalizedBlockSet := by
  obtain ⟨r, hTables, rfl⟩ := h
  obtain ⟨carrierIndex, lifecycle, rfl⟩ := hTables.exists_eq
  rw [BlockDagStorage.visible]
  split <;> rfl

theorem VisibleFrom.knownGenesis_eq :
    t.knownGenesis = (s.addToDagState (metadataFromBlock block (mode = .invalid))).knownGenesis := by
  obtain ⟨r, hTables, rfl⟩ := h
  obtain ⟨carrierIndex, lifecycle, rfl⟩ := hTables.exists_eq
  rw [BlockDagStorage.visible]
  split <;> rfl

theorem VisibleFrom.invalidBlocksIndex_eq :
    t.invalidBlocksIndex = if mode = .invalid then
      Function.update s.invalidBlocksIndex block.blockHash (some (metadataFromBlock block (mode = .invalid)))
      else s.invalidBlocksIndex := by
  obtain ⟨r, hTables, rfl⟩ := h
  obtain ⟨carrierIndex, lifecycle, rfl⟩ := hTables.exists_eq
  rw [BlockDagStorage.visible]
  split <;> rfl

theorem VisibleFrom.advanceFails_iff :
    AdvanceFails t silent faults block mode ↔
      AdvanceFails (s.addToDagState (metadataFromBlock block (mode = .invalid))) silent faults block mode := by
  have hUnseen : t.newlyBondedUnseen silent block =
      (s.addToDagState (metadataFromBlock block (mode = .invalid))).newlyBondedUnseen silent block :=
    newlyBondedUnseen_congr h.latestMessagesIndex_eq
  rw [AdvanceFails, AdvanceFails, SeedsFail, SeedsFail, hUnseen, h.knownGenesis_eq]

theorem VisibleFrom.newLatestFromSender_eq (hFresh : s.metadataStore block.blockHash = none) :
    t.newLatestFromSender silent block = s.newLatestFromSender silent block := by
  have hAdvances : t.senderAdvances silent block = s.senderAdvances silent block := by
    rw [BlockDagStorage.senderAdvances, BlockDagStorage.senderAdvances, h.latestMessagesIndex_eq, h.metadataStore_eq]
    cases if silent.latestMessage then none else s.latestMessagesIndex.lookup block.sender with
    | none => rfl
    | some slot =>
      dsimp only
      cases silent.slotMetadata with
      | true => rfl
      | false =>
        by_cases hSlot : slot = block.blockHash
        · subst hSlot
          rw [Function.update_self, hFresh]
          exact decide_eq_true (le_refl _)
        · rw [Function.update_of_ne hSlot]
  rw [BlockDagStorage.newLatestFromSender, BlockDagStorage.newLatestFromSender, hAdvances]

end VisibleFrom

section advanced

variable (s : BlockDagStorage) (silent : SilentFaults) (block : BlockMessage ProcessedDeploy S) (mode : InsertMode)

theorem dagSet_advanced : (s.advanced silent block mode).dagSet = s.dagSet := by
  rw [BlockDagStorage.advanced]
  split <;> rfl

theorem metadataStore_advanced : (s.advanced silent block mode).metadataStore = s.metadataStore := by
  rw [BlockDagStorage.advanced]
  split <;> rfl

theorem finalizedBlockSet_advanced : (s.advanced silent block mode).finalizedBlockSet = s.finalizedBlockSet := by
  rw [BlockDagStorage.advanced]
  split <;> rfl

theorem invalidBlocksIndex_advanced : (s.advanced silent block mode).invalidBlocksIndex = s.invalidBlocksIndex := by
  rw [BlockDagStorage.advanced]
  split <;> rfl

end advanced

section finished

variable {hash : Bytes} {rep : BlockDagStorage}

theorem finished_of_visible (hRetry : (insertInternal order silent faults block mode).run s = .ok rep s')
    (hVisible : block.blockHash ∈ s.dagSet) : Finished order block.blockHash mode s s' := by
  rw [run_insertInternal_visible hVisible] at hRetry
  exact finished_of_ok hRetry

theorem finished_of_fresh (h : (insertInternal order silent faults block mode).run s = .ok rep s')
    (hFresh : block.blockHash ∉ s.dagSet) :
    WellFormed block ∧ ∃ u, VisibleFrom s block mode u ∧ ¬ AdvanceFails u silent faults block mode ∧
      Finished order block.blockHash mode (u.advanced silent block mode) s' := by
  rw [run_insertInternal_fresh hFresh] at h
  obtain ⟨_, v, hInsert, hFinish⟩ := run_bind_eq_ok.mp h
  obtain ⟨hWell, -, -, u, hVisible, hAdvances, rfl⟩ := run_insertFresh_eq_ok hInsert
  exact ⟨hWell, u, hVisible, hAdvances, finished_of_ok hFinish⟩

theorem Finished.latestMessagesIndex_eq (h : Finished order hash mode s s') :
    s'.latestMessagesIndex = s.latestMessagesIndex := by
  cases h with
  | kept _ hEq => rw [hEq]
  | marked _ _ _ hEq => rw [hEq]; rfl

theorem Finished.invalidBlocksIndex_eq (h : Finished order hash mode s s') :
    s'.invalidBlocksIndex = s.invalidBlocksIndex := by
  cases h with
  | kept _ hEq => rw [hEq]
  | marked _ _ _ hEq => rw [hEq]; rfl

end finished

end F1r3Node.DagStorage
