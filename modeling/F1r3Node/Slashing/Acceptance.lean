import F1r3Node.Slashing.Issuance
import F1r3Node.Lib.ListRelation

/-! # Which proposals pass the receiver's check

The proposer drops a rejected slash when its evidence is already among its own; the receiver wants one slash for each
offender, and a bonded one.
-/

namespace F1r3Node.Slashing

open Shared Lib
open Casper (BlockMessage)
open Dag (BlockMetadata KeyValueDagRepresentation)

variable {snapshot : CasperSnapshot} {epoch : Epoch}

structure Evidence (snapshot : CasperSnapshot) (epoch : Epoch) (m : BlockMetadata) : Prop where
  held : snapshot.dag.lookup m.blockHash = some m
  invalid : m.invalid = true
  epoch_eq : evidenceEpoch m snapshot.epochLength = .ok epoch

def Smallest (snapshot : CasperSnapshot) (epoch : Epoch) (m : BlockMetadata) : Prop :=
  Evidence snapshot epoch m ∧ ∀ m', Evidence snapshot epoch m' → m'.sender = m.sender → m.blockHash ≤ m'.blockHash

variable {m : BlockMetadata}

theorem Evidence.eq_of_blockHash {m' : BlockMetadata} (h : Evidence snapshot epoch m)
    (h' : Evidence snapshot epoch m') (hHash : m.blockHash = m'.blockHash) : m = m' := by
  have hHeld := h.held
  rw [hHash, h'.held] at hHeld
  exact (Option.some.inj hHeld).symm

theorem Smallest.eq_of_sender {m' : BlockMetadata} (h : Smallest snapshot epoch m) (h' : Smallest snapshot epoch m')
    (hSender : m.sender = m'.sender) : m = m' :=
  h.1.eq_of_blockHash h'.1 (List.le_antisymm (h.2 m' h'.1 hSender.symm) (h'.2 m h.1 hSender))

def candidateFor (epoch : Epoch) (m : BlockMetadata) : AuthorizedSlashCandidate := ⟨m.sender, m.blockHash, epoch⟩

variable {candidate : AuthorizedSlashCandidate}

theorem slashCandidate_eq_some :
    snapshot.slashCandidate epoch m = some candidate ↔
      m.invalid = true ∧ evidenceEpoch m snapshot.epochLength = .ok epoch ∧ 0 < snapshot.bond m.sender ∧
        candidate = candidateFor epoch m := by
  rw [CasperSnapshot.slashCandidate]
  cases m.invalid with
  | false => simp
  | true =>
    cases evidenceEpoch m snapshot.epochLength with
    | error e => simp
    | ok target =>
      rcases eq_or_ne target epoch with rfl | hEpoch
      · by_cases hBond : snapshot.bond m.sender ≤ 0
        · simp [hBond, Int.not_lt.mpr hBond]
        · simp [hBond, Int.not_le.mp hBond, candidateFor, eq_comm]
      · simp [hEpoch]

variable {byOffender : ByOffender} {c : AuthorizedSlashCandidate} {v : Bytes}

theorem lookup_keep
    (h : (byOffender.keep candidate).lookup v = some c) :
    byOffender.lookup v = some c ∨ c = candidate ∧ v = candidate.offender := by
  have hInsert : (byOffender.insert candidate.offender candidate).lookup v = some c →
      byOffender.lookup v = some c ∨ c = candidate ∧ v = candidate.offender := by
    intro h
    rcases eq_or_ne v candidate.offender with rfl | hNe
    · rw [AList.lookup_insert] at h
      exact .inr ⟨(Option.some.inj h).symm, rfl⟩
    · rw [AList.lookup_insert_ne hNe] at h
      exact .inl h
  rw [ByOffender.keep] at h
  split at h
  · exact hInsert h
  · split at h
    · exact hInsert h
    · exact .inl h

def HasAtMost (byOffender : ByOffender) (v hash : Bytes) : Prop :=
  ∃ kept, byOffender.lookup v = some kept ∧ kept.invalidBlockHash ≤ hash

theorem hasAtMost_keep_self (byOffender : ByOffender) (candidate : AuthorizedSlashCandidate) :
    HasAtMost (byOffender.keep candidate) candidate.offender candidate.invalidBlockHash := by
  rw [ByOffender.keep]
  split
  · exact ⟨candidate, AList.lookup_insert _, List.le_refl _⟩
  case h_2 kept hKept =>
    split
    · exact ⟨candidate, AList.lookup_insert _, List.le_refl _⟩
    case isFalse hNot => exact ⟨kept, hKept, List.not_lt.mp hNot⟩

variable {hash : Bytes}

theorem HasAtMost.keep (h : HasAtMost byOffender v hash)
    (candidate : AuthorizedSlashCandidate) : HasAtMost (byOffender.keep candidate) v hash := by
  obtain ⟨kept, hKept, hLe⟩ := h
  rcases eq_or_ne v candidate.offender with rfl | hNe
  · rw [ByOffender.keep, hKept]
    dsimp only
    split
    case isTrue hLt => exact ⟨candidate, AList.lookup_insert _, List.le_trans (List.le_of_lt hLt) hLe⟩
    · exact ⟨kept, hKept, hLe⟩
  · refine ⟨kept, ?_, hLe⟩
    rw [ByOffender.keep]
    split
    · rwa [AList.lookup_insert_ne hNe]
    · split
      · rwa [AList.lookup_insert_ne hNe]
      · exact hKept

variable {candidates : List AuthorizedSlashCandidate}

theorem lookup_foldl_keep (h : (candidates.foldl ByOffender.keep byOffender).lookup v = some c) :
    byOffender.lookup v = some c ∨ c ∈ candidates ∧ v = c.offender := by
  induction candidates generalizing byOffender with
  | nil => exact .inl h
  | cons candidate candidates ih =>
    rcases ih h with hKeep | ⟨hMem, hOffender⟩
    · rcases lookup_keep hKeep with hLookup | ⟨rfl, hOffender⟩
      · exact .inl hLookup
      · exact .inr ⟨List.mem_cons_self, hOffender⟩
    · exact .inr ⟨List.mem_cons_of_mem _ hMem, hOffender⟩

theorem HasAtMost.foldl_keep (h : HasAtMost byOffender v hash)
    (candidates : List AuthorizedSlashCandidate) :
    HasAtMost (candidates.foldl ByOffender.keep byOffender) v hash := by
  induction candidates generalizing byOffender with
  | nil => exact h
  | cons candidate candidates ih => exact ih (h.keep candidate)

theorem hasAtMost_foldl_keep (h : c ∈ candidates) (byOffender : ByOffender) :
    HasAtMost (candidates.foldl ByOffender.keep byOffender) c.offender c.invalidBlockHash := by
  induction candidates generalizing byOffender with
  | nil => cases h
  | cons candidate candidates ih =>
    rcases List.mem_cons.mp h with rfl | hMem
    · exact (hasAtMost_keep_self byOffender c).foldl_keep candidates
    · exact ih hMem _

theorem mem_slashCandidates :
    candidate ∈ snapshot.dag.invalidBlocks.filterMap (snapshot.slashCandidate epoch) ↔
      ∃ m, Evidence snapshot epoch m ∧ 0 < snapshot.bond m.sender ∧ candidate = candidateFor epoch m := by
  rw [List.mem_filterMap]
  constructor
  · rintro ⟨m, hMem, hCandidate⟩
    obtain ⟨hInvalid, hEpoch, hBond, hEq⟩ := slashCandidate_eq_some.mp hCandidate
    exact ⟨m, ⟨(KeyValueDagRepresentation.mem_invalidBlocks.mp hMem).1, hInvalid, hEpoch⟩, hBond, hEq⟩
  · rintro ⟨m, hm, hBond, hEq⟩
    exact ⟨m, KeyValueDagRepresentation.mem_invalidBlocks.mpr ⟨hm.held, hm.invalid⟩,
      slashCandidate_eq_some.mpr ⟨hm.invalid, hm.epoch_eq, hBond, hEq⟩⟩

theorem hasAtMost_candidatesByOffender (hm : Evidence snapshot epoch m)
    (hBond : 0 < snapshot.bond m.sender) :
    HasAtMost (snapshot.candidatesByOffender epoch) m.sender m.blockHash :=
  hasAtMost_foldl_keep (mem_slashCandidates.mpr ⟨m, hm, hBond, rfl⟩) ∅

theorem lookup_candidatesByOffender :
    (snapshot.candidatesByOffender epoch).lookup v = some candidate ↔
      ∃ m, Smallest snapshot epoch m ∧ 0 < snapshot.bond m.sender ∧ m.sender = v ∧
        candidate = candidateFor epoch m := by
  have hFound : ∀ v candidate, (snapshot.candidatesByOffender epoch).lookup v = some candidate →
      ∃ m, Smallest snapshot epoch m ∧ 0 < snapshot.bond m.sender ∧ m.sender = v ∧
        candidate = candidateFor epoch m := by
    intro v candidate h
    rcases lookup_foldl_keep h with hEmpty | ⟨hMem, hv⟩
    · cases hEmpty
    · obtain ⟨m, hm, hBond, rfl⟩ := mem_slashCandidates.mp hMem
      subst hv
      refine ⟨m, ⟨hm, fun m' hm' hSender => ?_⟩, hBond, rfl, rfl⟩
      obtain ⟨kept, hKept, hLe⟩ := hasAtMost_candidatesByOffender hm' (hSender ▸ hBond)
      rw [hSender] at hKept
      obtain rfl := Option.some.inj (h.symm.trans hKept)
      exact hLe
  constructor
  · exact hFound v candidate
  · rintro ⟨m, hm, hBond, rfl, rfl⟩
    obtain ⟨kept, hKept, -⟩ := hasAtMost_candidatesByOffender hm.1 hBond
    obtain ⟨m', hm', -, hSender, rfl⟩ := hFound _ _ hKept
    rw [hKept, hm'.eq_of_sender hm hSender]

theorem exists_smallest (hm : Evidence snapshot epoch m) (hBond : 0 < snapshot.bond m.sender) :
    ∃ least, Smallest snapshot epoch least ∧ least.sender = m.sender := by
  obtain ⟨kept, hKept, -⟩ := hasAtMost_candidatesByOffender hm hBond
  obtain ⟨least, hLeast, -, hSender, -⟩ := lookup_candidatesByOffender.mp hKept
  exact ⟨least, hLeast, hSender⟩

theorem mem_intoValues :
    candidate ∈ byOffender.intoValues ↔ ∃ v, byOffender.lookup v = some candidate := by
  rw [ByOffender.intoValues, List.mem_map]
  constructor
  · rintro ⟨⟨v, c⟩, hMem, rfl⟩
    exact ⟨v, AList.mem_lookup_iff.mpr ((perm_sortByKey _ _).mem_iff.mp hMem)⟩
  · rintro ⟨v, hLookup⟩
    exact ⟨⟨v, candidate⟩, (perm_sortByKey _ _).mem_iff.mpr (AList.mem_lookup_iff.mp hLookup), rfl⟩

theorem nodup_offenders (snapshot : CasperSnapshot) (epoch : Epoch) :
    ((snapshot.candidatesByOffender epoch).intoValues.map (·.offender)).Nodup := by
  have hKeys : ∀ entry ∈ sortByKey Sigma.fst (snapshot.candidatesByOffender epoch).entries,
      entry.2.offender = entry.1 := by
    intro entry hMem
    have hLookup := AList.mem_lookup_iff.mpr ((perm_sortByKey _ _).mem_iff.mp hMem)
    obtain ⟨m, -, -, hSender, hCandidate⟩ := lookup_candidatesByOffender.mp hLookup
    rw [hCandidate]
    exact hSender
  rw [ByOffender.intoValues, List.map_map]
  have hEq := List.map_congr_left hKeys
  rw [Function.comp_def, hEq]
  exact ((perm_sortByKey Sigma.fst _).map Sigma.fst).nodup_iff.mpr (snapshot.candidatesByOffender epoch).nodupKeys

theorem exists_intoValues_eq (snapshot : CasperSnapshot) (epoch : Epoch) :
    ∃ own : List BlockMetadata,
      (snapshot.candidatesByOffender epoch).intoValues = own.map (candidateFor epoch) ∧
      (∀ m, m ∈ own ↔ Smallest snapshot epoch m ∧ 0 < snapshot.bond m.sender) ∧ (own.map (·.sender)).Nodup := by
  have hEach : ∀ c ∈ (snapshot.candidatesByOffender epoch).intoValues,
      ∃ m, (Smallest snapshot epoch m ∧ 0 < snapshot.bond m.sender) ∧ c = candidateFor epoch m := by
    intro c hMem
    obtain ⟨v, hLookup⟩ := mem_intoValues.mp hMem
    obtain ⟨m, hm, hBond, -, hEq⟩ := lookup_candidatesByOffender.mp hLookup
    exact ⟨m, ⟨hm, hBond⟩, hEq⟩
  obtain ⟨own, hOwn, hMem⟩ := exists_eq_map_of_forall hEach
  have hSenders := nodup_offenders snapshot epoch
  refine ⟨own, hOwn, fun m => ⟨hMem m, ?_⟩, ?_⟩
  · rintro ⟨hm, hBond⟩
    have hValue : candidateFor epoch m ∈ (snapshot.candidatesByOffender epoch).intoValues :=
      mem_intoValues.mpr ⟨m.sender, lookup_candidatesByOffender.mpr ⟨m, hm, hBond, rfl, rfl⟩⟩
    rw [hOwn] at hValue
    obtain ⟨m', hMem', hEq⟩ := List.mem_map.mp hValue
    have hHash : m'.blockHash = m.blockHash := congrArg AuthorizedSlashCandidate.invalidBlockHash hEq
    rwa [(hMem m' hMem').1.1.eq_of_blockHash hm.1 hHash] at hMem'
  · rw [hOwn, List.map_map] at hSenders
    exact hSenders

def CasperSnapshot.currentEpoch (snapshot : CasperSnapshot) : Except CasperError Epoch := do
  let proposedBlockNum ← snapshot.nextBlockNum
  (epochForBlockNumber proposedBlockNum.toInt snapshot.epochLength).mapError DomainError.toCasperError

def CasperSnapshot.Trails (snapshot : CasperSnapshot) (epoch : Epoch) : Prop :=
  snapshot.trailsFinalizedFrontier epoch = .ok true

theorem epochForBlockNumber_eq_ok {blockNumber epochLength : Int} {epoch : Epoch} :
    epochForBlockNumber blockNumber epochLength = .ok epoch ↔
      0 < epochLength ∧ 0 ≤ blockNumber ∧ epoch = blockNumber / epochLength := by
  rw [epochForBlockNumber]
  split
  case isTrue hLength => simp [Int.not_lt.mpr hLength]
  case isFalse hLength =>
    split
    case isTrue hNegative => simp [Int.not_le.mpr hNegative]
    case isFalse hNegative => simp [Int.not_le.mp hLength, Int.not_lt.mp hNegative, eq_comm]

theorem exists_of_currentEpoch (h : snapshot.currentEpoch = .ok epoch) :
    ∃ number, snapshot.nextBlockNum = .ok number ∧
      epochForBlockNumber number.toInt snapshot.epochLength = .ok epoch := by
  obtain ⟨number, hNumber, hEpoch⟩ := exists_of_bind_ok h
  exact ⟨number, hNumber, eq_ok_of_mapError hEpoch⟩

theorem epochLength_pos (h : snapshot.currentEpoch = .ok epoch) : 0 < snapshot.epochLength := by
  obtain ⟨number, -, hEpoch⟩ := exists_of_currentEpoch h
  exact (epochForBlockNumber_eq_ok.mp hEpoch).1

theorem evidenceEpoch_eq (hLength : 0 < snapshot.epochLength)
    (h : snapshot.dag.lookup hash = some m) :
    evidenceEpoch m snapshot.epochLength = .ok (m.blockNumber / snapshot.epochLength) :=
  epochForBlockNumber_eq_ok.mpr ⟨hLength, KeyValueDagRepresentation.blockNumber_nonneg h, rfl⟩

theorem trailsFinalizedFrontier_eq_ok (hLength : 0 < snapshot.epochLength) (epoch : Epoch) :
    ∃ trails, snapshot.trailsFinalizedFrontier epoch = .ok trails := by
  rw [CasperSnapshot.trailsFinalizedFrontier]
  split
  · exact ⟨false, rfl⟩
  case h_2 lfb hLookup =>
    have hEpoch := evidenceEpoch_eq hLength hLookup
    rw [evidenceEpoch] at hEpoch
    rw [hEpoch]
    exact ⟨_, rfl⟩

theorem authorizedSlashCandidates_eq (hEpoch : snapshot.currentEpoch = .ok epoch) :
    ∃ own : List BlockMetadata, authorizedSlashCandidates snapshot = .ok (own.map (candidateFor epoch)) ∧
      (∀ m, m ∈ own ↔ ¬ snapshot.Trails epoch ∧ Smallest snapshot epoch m ∧ 0 < snapshot.bond m.sender) ∧
      (own.map (·.sender)).Nodup := by
  obtain ⟨number, hNumber, hOk⟩ := exists_of_currentEpoch hEpoch
  obtain ⟨trails, hTrails⟩ := trailsFinalizedFrontier_eq_ok (epochLength_pos hEpoch) epoch
  have hRun : authorizedSlashCandidates snapshot =
      .ok (if trails then [] else (snapshot.candidatesByOffender epoch).intoValues) := by
    rw [authorizedSlashCandidates, hNumber]
    change (epochForBlockNumber _ _).mapError _ >>= _ = _
    rw [hOk]
    change snapshot.trailsFinalizedFrontier epoch >>= _ = _
    rw [hTrails]
    cases trails <;> rfl
  cases trails with
  | true => exact ⟨[], hRun, by simp [CasperSnapshot.Trails, hTrails], List.nodup_nil⟩
  | false =>
    obtain ⟨own, hOwn, hMem, hNodup⟩ := exists_intoValues_eq snapshot epoch
    refine ⟨own, hRun.trans (congrArg Except.ok hOwn), fun m => ?_, hNodup⟩
    rw [hMem]
    simp [CasperSnapshot.Trails, hTrails]

theorem length_destutter_of_nodup {offenders : List Bytes} (h : offenders.Nodup) :
    ((offenders.insertionSort (· ≤ ·)).destutter (· ≠ ·)).length = (offenders.insertionSort (· ≤ ·)).length := by
  have hNodup : (offenders.insertionSort (· ≤ ·)).Nodup := (List.perm_insertionSort _ _).nodup_iff.mpr h
  rw [(List.destutter_eq_self_iff _ _).mpr hNodup.isChain]

section Issue

variable {R : Type} (generateSlashDeployRandomSeed : Bytes → Int32 → Bytes → R)

def SlashDeploy.data (deploy : SlashDeploy R) : Bytes × Bytes × Epoch :=
  (deploy.invalidBlockHash, deploy.pk, deploy.targetActivationEpoch)

def slashFor (publicKey : PublicKey) (epoch : Epoch) (m : BlockMetadata) : Bytes × Bytes × Epoch :=
  (m.blockHash, publicKey.bytes, epoch)

theorem prepareSlashingDeploys_eq (hEpoch : snapshot.currentEpoch = .ok epoch) {publicKey : PublicKey}
    (hBonded : 0 < snapshot.bond publicKey.bytes) (seqNum : Int32) :
    ∃ own : List BlockMetadata,
      prepareSlashingDeploys generateSlashDeployRandomSeed snapshot publicKey seqNum = .ok (own.map fun m =>
        buildSlashDeploy generateSlashDeployRandomSeed m.blockHash publicKey.bytes epoch seqNum) ∧
      (∀ m, m ∈ own ↔ ¬ snapshot.Trails epoch ∧ Smallest snapshot epoch m ∧ 0 < snapshot.bond m.sender) ∧
      (own.map (·.sender)).Nodup := by
  obtain ⟨own, hOwn, hMem, hNodup⟩ := authorizedSlashCandidates_eq hEpoch
  refine ⟨own, ?_, hMem, hNodup⟩
  have hOffenders : (own.map (candidateFor epoch)).map (·.offender) = own.map (·.sender) := by
    rw [List.map_map]
    rfl
  rw [prepareSlashingDeploys, if_neg (Int.not_le.mpr hBonded), hOwn]
  dsimp only [bind, Except.bind]
  rw [hOffenders, length_destutter_of_nodup hNodup, if_neg (not_not.mpr rfl), List.map_map]
  rfl

def Recoverable (snapshot : CasperSnapshot) (epoch : Epoch) (rejected : List RejectedSlash) (m : BlockMetadata) :
    Prop :=
  Evidence snapshot epoch m ∧ ∃ rs ∈ rejected, rs.invalidBlockHash = m.blockHash

variable {rejected : List RejectedSlash}

theorem mem_firstPerHash {seen : List Bytes} {hash : Bytes} :
    hash ∈ (firstPerHash seen rejected).map (·.invalidBlockHash) ↔
      hash ∉ seen ∧ hash ∈ rejected.map (·.invalidBlockHash) := by
  induction rejected generalizing seen with
  | nil => simp [firstPerHash]
  | cons rs rejected ih =>
    rw [firstPerHash]
    split
    case isTrue hSeen =>
      rw [ih, List.map_cons, List.mem_cons]
      constructor
      · rintro ⟨hNot, hMem⟩
        exact ⟨hNot, .inr hMem⟩
      · rintro ⟨hNot, rfl | hMem⟩
        · exact absurd hSeen hNot
        · exact ⟨hNot, hMem⟩
    case isFalse hSeen =>
      rw [List.map_cons, List.mem_cons, ih, List.map_cons, List.mem_cons, List.mem_cons]
      rcases eq_or_ne hash rs.invalidBlockHash with rfl | hNe
      · simp [hSeen]
      · simp [hNe]

theorem nodup_firstPerHash {seen : List Bytes} :
    ((firstPerHash seen rejected).map (·.invalidBlockHash)).Nodup := by
  induction rejected generalizing seen with
  | nil => exact List.nodup_nil
  | cons rs rejected ih =>
    rw [firstPerHash]
    split
    · exact ih
    · rw [List.map_cons, List.nodup_cons]
      exact ⟨fun hMem => (mem_firstPerHash.mp hMem).1 List.mem_cons_self, ih⟩

theorem mem_filterRecoverable {own : List Bytes} {hash : Bytes} :
    hash ∈ (filterRecoverable rejected own).map (·.invalidBlockHash) ↔
      hash ∉ own ∧ ∃ rs ∈ rejected, rs.invalidBlockHash = hash := by
  rw [filterRecoverable, mem_firstPerHash, List.mem_map]
  simp only [List.not_mem_nil, not_false_eq_true, true_and, List.mem_filter, decide_eq_true_eq,
    (perm_sortByKey _ rejected).mem_iff]
  constructor
  · rintro ⟨rs, ⟨hMem, hNot⟩, rfl⟩
    exact ⟨hNot, rs, hMem, rfl⟩
  · rintro ⟨hNot, rs, hMem, rfl⟩
    exact ⟨rs, ⟨hMem, hNot⟩, rfl⟩

theorem foldlM_keep_eq {ε α : Type} {test : α → Except ε Bool} {p : α → Bool} {items out : List α}
    (h : ∀ a ∈ items, test a = .ok (p a)) :
    items.foldlM (fun out a => do if ← test a then return out ++ [a] else return out) out =
      .ok (out ++ items.filter p) := by
  induction items generalizing out with
  | nil => simp [List.foldlM, pure, Except.pure]
  | cons a items ih =>
    obtain ⟨ha, hItems⟩ := List.forall_mem_cons.mp h
    rw [List.foldlM_cons, ha]
    cases hp : p a with
    | true =>
      rw [List.filter_cons_of_pos hp]
      exact (ih hItems).trans (by rw [List.append_assoc]; rfl)
    | false =>
      rw [List.filter_cons_of_neg (by simp [hp])]
      exact ih hItems

theorem evidenceIsCurrent_eq (hLength : 0 < snapshot.epochLength) (epoch : Epoch) (hash : Bytes) :
    ∃ current, evidenceIsCurrent snapshot epoch hash = .ok current ∧
      (current = true ↔ ∃ m, Evidence snapshot epoch m ∧ m.blockHash = hash) := by
  have hHash : ∀ m, Evidence snapshot epoch m ∧ m.blockHash = hash → snapshot.dag.lookup hash = some m := by
    rintro m ⟨hm, rfl⟩
    exact hm.held
  rw [evidenceIsCurrent]
  cases hLookup : snapshot.dag.lookup hash with
  | none =>
    refine ⟨false, rfl, iff_of_false Bool.false_ne_true ?_⟩
    rintro ⟨m, hm⟩
    rw [hHash m hm] at hLookup
    cases hLookup
  | some m =>
    have hEq := KeyValueDagRepresentation.blockHash_of_lookup hLookup
    have hOnly : (∃ m', Evidence snapshot epoch m' ∧ m'.blockHash = hash) ↔ Evidence snapshot epoch m := by
      constructor
      · rintro ⟨m', hm'⟩
        obtain rfl := Option.some.inj (hLookup.symm.trans (hHash m' hm'))
        exact hm'.1
      · exact fun hm => ⟨m, hm, hEq⟩
    rw [hOnly]
    cases hInvalid : m.invalid with
    | false =>
      refine ⟨false, by dsimp only; rw [hInvalid]; rfl, iff_of_false Bool.false_ne_true fun hm => ?_⟩
      rw [hm.invalid] at hInvalid
      cases hInvalid
    | true =>
      have hEpoch := evidenceEpoch_eq hLength hLookup
      refine ⟨decide (m.blockNumber / snapshot.epochLength = epoch), ?_, ?_⟩
      · rw [evidenceEpoch] at hEpoch
        dsimp only
        rw [hInvalid, hEpoch]
        rfl
      · rw [decide_eq_true_iff]
        constructor
        · rintro rfl
          exact ⟨hEq ▸ hLookup, hInvalid, hEpoch⟩
        · intro hm
          exact Except.ok.inj (hEpoch.symm.trans hm.epoch_eq)

theorem filterRecoverableWithEvidence_eq (hLength : 0 < snapshot.epochLength) (epoch : Epoch)
    (rejected : List RejectedSlash) (own : List Bytes) :
    ∃ (recovered : List RejectedSlash) (ms : List BlockMetadata), filterRecoverableWithEvidence (filterRecoverable rejected own) []
        (evidenceIsCurrent snapshot epoch) = .ok recovered ∧
      recovered.map (·.invalidBlockHash) = ms.map BlockMetadata.blockHash ∧
      (∀ m, m ∈ ms ↔ Recoverable snapshot epoch rejected m ∧ m.blockHash ∉ own) ∧ ms.Nodup := by
  let twice := filterRecoverable (filterRecoverable rejected own) []
  choose current hCurrent hIff using evidenceIsCurrent_eq hLength epoch
  have hRun : filterRecoverableWithEvidence (filterRecoverable rejected own) [] (evidenceIsCurrent snapshot epoch) =
      .ok (twice.filter fun rs => current rs.invalidBlockHash) :=
    foldlM_keep_eq fun rs _ => hCurrent rs.invalidBlockHash
  have hEach : ∀ hash ∈ (twice.filter fun rs => current rs.invalidBlockHash).map (·.invalidBlockHash),
      ∃ m, (Recoverable snapshot epoch rejected m ∧ m.blockHash ∉ own) ∧ hash = m.blockHash := by
    intro hash hMem
    obtain ⟨rs, hrs, rfl⟩ := List.mem_map.mp hMem
    obtain ⟨hTwice, hTest⟩ := List.mem_filter.mp hrs
    obtain ⟨m, hm, hHash⟩ := (hIff _).mp hTest
    obtain ⟨-, rs', hrs', hHash'⟩ := mem_filterRecoverable.mp (List.mem_map_of_mem hTwice)
    have hOnce := mem_filterRecoverable.mp (List.mem_map_of_mem hrs')
    rw [hHash', ← hHash] at hOnce
    exact ⟨m, ⟨⟨hm, hOnce.2⟩, hOnce.1⟩, hHash.symm⟩
  obtain ⟨ms, hEq, hMem⟩ := exists_eq_map_of_forall hEach
  have hNodup : ((twice.filter fun rs => current rs.invalidBlockHash).map (·.invalidBlockHash)).Nodup :=
    (List.filter_sublist.map _).nodup nodup_firstPerHash
  refine ⟨_, ms, hRun, hEq, fun m => ⟨hMem m, ?_⟩, ?_⟩
  · rintro ⟨⟨hm, hRejected⟩, hNot⟩
    have hOnce : m.blockHash ∈ (filterRecoverable rejected own).map (·.invalidBlockHash) :=
      mem_filterRecoverable.mpr ⟨hNot, hRejected⟩
    have hTwice : m.blockHash ∈ twice.map (·.invalidBlockHash) :=
      mem_filterRecoverable.mpr ⟨List.not_mem_nil, List.mem_map.mp hOnce⟩
    obtain ⟨rs, hrs, hHash⟩ := List.mem_map.mp hTwice
    have hTest : current rs.invalidBlockHash = true := (hIff _).mpr ⟨m, hm, hHash.symm⟩
    have hKept : m.blockHash ∈ ms.map BlockMetadata.blockHash := by
      rw [← hEq, ← hHash]
      exact List.mem_map_of_mem (List.mem_filter.mpr ⟨hrs, hTest⟩)
    obtain ⟨m', hm', hSame⟩ := List.mem_map.mp hKept
    rwa [(hMem m' hm').1.1.eq_of_blockHash hm hSame] at hm'
  · rw [hEq] at hNodup
    exact hNodup.of_map _

theorem recoveredRejectedSlashes_eq {number : Int64} (hLength : 0 < snapshot.epochLength)
    (hEpoch : epochForBlockNumber number.toInt snapshot.epochLength = .ok epoch) (rejected : List RejectedSlash)
    (own : List Bytes) :
    ∃ (epoch? : Option Epoch) (recovered : List RejectedSlash) (ms : List BlockMetadata),
      recoveredRejectedSlashes snapshot number rejected own = .ok (epoch?, recovered) ∧
      (epoch? = none ∧ recovered = [] ∨ epoch? = some epoch) ∧
      recovered.map (·.invalidBlockHash) = ms.map BlockMetadata.blockHash ∧
      (∀ m, m ∈ ms ↔ Recoverable snapshot epoch rejected m ∧ m.blockHash ∉ own) ∧ ms.Nodup := by
  obtain ⟨recovered, ms, hRun, hEq, hMem, hNodup⟩ :=
    filterRecoverableWithEvidence_eq hLength epoch rejected own
  rw [recoveredRejectedSlashes]
  cases hCandidates : filterRecoverable rejected own with
  | nil =>
    rw [hCandidates] at hRun
    obtain rfl := Except.ok.inj hRun
    exact ⟨none, [], ms, rfl, .inl ⟨rfl, rfl⟩, hEq, hMem, hNodup⟩
  | cons rs candidates =>
    rw [hCandidates] at hRun
    rw [hEpoch]
    refine ⟨some epoch, recovered, ms, ?_, .inr rfl, hEq, hMem, hNodup⟩
    change filterRecoverableWithEvidence (rs :: candidates) [] (evidenceIsCurrent snapshot epoch) >>= _ = _
    rw [hRun]
    rfl

theorem slashesOfProposal_eq (hEpoch : snapshot.currentEpoch = .ok epoch) {publicKey : PublicKey}
    (hBonded : 0 < snapshot.bond publicKey.bytes) {slashes : List (SlashDeploy R)}
    (h : slashesOfProposal generateSlashDeployRandomSeed snapshot publicKey rejected = .ok slashes) :
    ∃ own recovered : List BlockMetadata,
      slashes.map SlashDeploy.data = (own ++ recovered).map (slashFor publicKey epoch) ∧
      (∀ m, m ∈ own ↔ ¬ snapshot.Trails epoch ∧ Smallest snapshot epoch m ∧ 0 < snapshot.bond m.sender) ∧
      (own.map (·.sender)).Nodup ∧
      (∀ m, m ∈ recovered ↔ Recoverable snapshot epoch rejected m ∧ m ∉ own) ∧ recovered.Nodup := by
  obtain ⟨number, hNumber, hOk⟩ := exists_of_currentEpoch hEpoch
  obtain ⟨seqNum, -, h⟩ := exists_of_bind_ok h
  obtain ⟨number', hNumber', h⟩ := exists_of_bind_ok h
  obtain rfl := Except.ok.inj (hNumber.symm.trans hNumber')
  obtain ⟨own, hPrepare, hOwn, hSenders⟩ :=
    prepareSlashingDeploys_eq generateSlashDeployRandomSeed hEpoch hBonded seqNum
  obtain ⟨deploys, hDeploys, h⟩ := exists_of_bind_ok h
  obtain rfl := Except.ok.inj (hPrepare.symm.trans hDeploys)
  obtain ⟨⟨epoch?, recovered⟩, hRecovered, h⟩ := exists_of_bind_ok h
  obtain ⟨epoch?', recovered', ms, hRun, hCases, hEq, hMem, hNodup⟩ := recoveredRejectedSlashes_eq
    (epochLength_pos hEpoch) hOk rejected ((own.map fun m => buildSlashDeploy generateSlashDeployRandomSeed
      m.blockHash publicKey.bytes epoch seqNum).map (·.invalidBlockHash))
  obtain ⟨rfl, rfl⟩ := Prod.mk.inj (Except.ok.inj (hRun.symm.trans hRecovered))
  have hHashes : (own.map fun m => buildSlashDeploy generateSlashDeployRandomSeed m.blockHash publicKey.bytes epoch
      seqNum).map (·.invalidBlockHash) = own.map BlockMetadata.blockHash := by
    rw [List.map_map]
    rfl
  refine ⟨own, ms, ?_, hOwn, hSenders, fun m => ?_, hNodup⟩
  · rcases hCases with ⟨rfl, rfl⟩ | rfl
    · obtain rfl := List.map_eq_nil_iff.mp hEq.symm
      obtain rfl := Except.ok.inj h
      rw [List.append_nil, List.map_map]
      rfl
    · obtain rfl := Except.ok.inj h
      rw [List.map_append, List.map_append, List.map_map, List.map_map]
      have hLast := congrArg (List.map fun hash : Bytes => (hash, publicKey.bytes, epoch)) hEq
      rw [List.map_map, List.map_map] at hLast
      exact congrArg _ hLast
  · rw [hMem, hHashes]
    refine and_congr_right fun hRecoverable => not_congr ⟨fun hIn => ?_, List.mem_map_of_mem⟩
    obtain ⟨m', hm', hSame⟩ := List.mem_map.mp hIn
    rwa [((hOwn m').mp hm').2.1.1.eq_of_blockHash hRecoverable.1 hSame] at hm'

end Issue

section Receive

variable {D E : Type} {block : BlockMessage D (ProcessedSystemDeploy E)} {publicKey : PublicKey}

structure Proposes (snapshot : CasperSnapshot) (publicKey : PublicKey)
    (block : BlockMessage D (ProcessedSystemDeploy E)) : Prop where
  sender : block.sender = publicKey.bytes
  seqNum : snapshot.nextSeqNum publicKey.bytes = .ok block.seqNum
  blockNumber : snapshot.nextBlockNum = .ok block.body.state.blockNumber

theorem nextSeqNum_nonneg {validator : Bytes} {seqNum : Int32} (h : snapshot.nextSeqNum validator = .ok seqNum) :
    ¬ seqNum < 0 := by
  rw [CasperSnapshot.nextSeqNum] at h
  split at h
  · obtain rfl := Except.ok.inj h
    decide
  · split at h
    case h_1 next hNext =>
      obtain rfl := Except.ok.inj h
      rw [checkedNextSeq] at hNext
      split at hNext
      case isTrue hLt =>
        obtain rfl := Option.some.inj hNext
        rw [Int32.lt_iff_toInt_lt, Int32.toInt_ofNat_of_lt hLt]
        simp
        omega
      · cases hNext
    · cases h

theorem Proposes.epoch_eq (hBlock : Proposes snapshot publicKey block) (hEpoch : snapshot.currentEpoch = .ok epoch) :
    epochForBlockNumber block.body.state.blockNumber.toInt snapshot.epochLength = .ok epoch := by
  obtain ⟨number, hNumber, hOk⟩ := exists_of_currentEpoch hEpoch
  rwa [Except.ok.inj (hNumber.symm.trans hBlock.blockNumber)] at hOk

theorem receivedSlashDeployAuthorized_eq {reference evidenceNumber epochLength bond : Int} {evidence : Epoch}
    {invalid : Bool} (target : Epoch) (hReference : epochForBlockNumber reference epochLength = .ok epoch)
    (hEvidence : epochForBlockNumber evidenceNumber epochLength = .ok evidence) :
    receivedSlashDeployAuthorized reference evidenceNumber target epochLength bond invalid =
      .ok (decide (target = epoch) && decide (target = evidence) && slashTargetHasPositiveBond bond && invalid) := by
  rw [receivedSlashDeployAuthorized, slashTargetEpochIsCurrent, slashEvidenceEpochMatchesTarget, hReference, hEvidence]
  rfl

section

variable (hBlock : Proposes snapshot publicKey block) (hEpoch : snapshot.currentEpoch = .ok epoch)

include hBlock hEpoch

theorem checkReceivedSlash_eq {m : BlockMetadata} (hm : Evidence snapshot epoch m) :
    checkReceivedSlash block snapshot epoch (slashFor publicKey epoch m) =
      if snapshot.bond m.sender ≤ 0 then .error (.slashAuth (.targetNotBonded (hexEncode m.sender)))
      else .ok (m.sender, epoch) := by
  have hNonempty : ¬ publicKey.bytes.isEmpty = true := fun hNil => publicKey.nonempty (List.isEmpty_iff.mp hNil)
  have hAuthorized : ∀ bond, receivedSlashDeployAuthorized block.body.state.blockNumber.toInt m.blockNumber epoch
      snapshot.epochLength bond true = .ok (slashTargetHasPositiveBond bond) := fun bond => by
    rw [receivedSlashDeployAuthorized_eq epoch (hBlock.epoch_eq hEpoch) hm.epoch_eq]
    simp
  have hSame : ¬ publicKey.bytes ≠ block.sender := not_not.mpr hBlock.sender.symm
  rw [slashFor, checkReceivedSlash, if_neg hNonempty, if_neg hSame, if_neg (not_not.mpr rfl), hm.held]
  dsimp only
  rw [hm.invalid, checkSlashTarget, hm.epoch_eq, hm.invalid, hAuthorized]
  change (if epoch ≠ epoch then _ else _) = _
  rw [if_neg (not_not.mpr rfl)]
  split
  · rfl
  case isFalse hBond =>
    have hPositive : slashTargetHasPositiveBond (snapshot.bond m.sender) = true :=
      decide_eq_true (Int.not_le.mp hBond)
    rw [hPositive]
    rfl

theorem foldlM_receiveSlash
    {ms : List BlockMetadata} (hEvidence : ∀ m ∈ ms, Evidence snapshot epoch m) (seen : List (Bytes × Epoch)) :
    (∃ seen', (ms.map (slashFor publicKey epoch)).foldlM (receiveSlash block snapshot epoch) seen = .ok seen') ↔
      (∀ m ∈ ms, 0 < snapshot.bond m.sender) ∧ (ms.map (·.sender)).Nodup ∧ ∀ m ∈ ms, (m.sender, epoch) ∉ seen := by
  induction ms generalizing seen with
  | nil => exact iff_of_true ⟨seen, rfl⟩ ⟨by simp, List.nodup_nil, by simp⟩
  | cons m ms ih =>
    obtain ⟨hm, hEvidence⟩ := List.forall_mem_cons.mp hEvidence
    rw [List.map_cons, List.foldlM_cons, receiveSlash, checkReceivedSlash_eq hBlock hEpoch hm]
    split
    case isTrue hBond =>
      refine iff_of_false ?_ fun h => Int.not_lt.mpr hBond (h.1 m List.mem_cons_self)
      rintro ⟨seen', hRun⟩
      cases hRun
    case isFalse hBond =>
      have hPositive : 0 < snapshot.bond m.sender := Int.not_le.mp hBond
      change (∃ seen', (if (m.sender, epoch) ∈ seen then _ else _) >>= _ = Except.ok seen') ↔ _
      split
      case isTrue hSeen =>
        refine iff_of_false ?_ fun h => h.2.2 m List.mem_cons_self hSeen
        rintro ⟨seen', hRun⟩
        cases hRun
      case isFalse hSeen =>
        refine (ih hEvidence ((m.sender, epoch) :: seen)).trans ?_
        rw [List.forall_mem_cons, List.forall_mem_cons, List.map_cons, List.nodup_cons, List.mem_map]
        simp only [List.mem_cons, not_or, Prod.mk.injEq, and_true]
        constructor
        · rintro ⟨hBonds, hNodup, hNew⟩
          exact ⟨⟨hPositive, hBonds⟩, ⟨fun ⟨m', hm', hEq⟩ => (hNew m' hm').1 hEq, hNodup⟩, hSeen,
            fun m' hm' => (hNew m' hm').2⟩
        · rintro ⟨⟨-, hBonds⟩, ⟨hFirst, hNodup⟩, -, hNew⟩
          exact ⟨hBonds, hNodup, fun m' hm' => ⟨fun hEq => hFirst ⟨m', hm', hEq⟩, hNew m' hm'⟩⟩

theorem validateReceivedSlashDeploys_eq_ok {ms : List BlockMetadata} (hEvidence : ∀ m ∈ ms, Evidence snapshot epoch m)
    (hSlashes : succeededSlashes block = ms.map (slashFor publicKey epoch)) :
    validateReceivedSlashDeploys block snapshot = .ok () ↔
      (∀ m ∈ ms, 0 < snapshot.bond m.sender) ∧ (ms.map (·.sender)).Nodup := by
  have hLoop := foldlM_receiveSlash hBlock hEpoch hEvidence []
  simp only [List.not_mem_nil, not_false_eq_true, implies_true, and_true] at hLoop
  rw [← hLoop, validateReceivedSlashDeploys, hSlashes, hBlock.epoch_eq hEpoch]
  cases ms with
  | nil => exact iff_of_true rfl ⟨[], rfl⟩
  | cons m ms =>
    rw [List.map_cons, if_neg (by simp)]
    change (if block.seqNum < 0 then _ else _) = _ ↔ _
    rw [if_neg (nextSeqNum_nonneg hBlock.seqNum)]
    cases (slashFor publicKey epoch m :: ms.map (slashFor publicKey epoch)).foldlM
        (receiveSlash block snapshot epoch) [] with
    | error e => exact iff_of_false (by rintro ⟨⟩) (by rintro ⟨_, ⟨⟩⟩)
    | ok seen => exact iff_of_true rfl ⟨seen, rfl⟩

end

/-- Every rejected slash that can be issued again is against a bonded validator, on the proposer's own evidence or, while
issuance is suspended, on the only evidence named. -/
def NoSecondEvidence (snapshot : CasperSnapshot) (epoch : Epoch) (rejected : List RejectedSlash) : Prop :=
  ∀ m, Recoverable snapshot epoch rejected m → 0 < snapshot.bond m.sender ∧
    (snapshot.Trails epoch → ∀ m', Recoverable snapshot epoch rejected m' → m'.sender = m.sender → m' = m) ∧
    (¬ snapshot.Trails epoch → ∀ m', Evidence snapshot epoch m' → m'.sender = m.sender → m.blockHash ≤ m'.blockHash)

theorem nodup_senders_iff {rejected : List RejectedSlash} {own recovered : List BlockMetadata}
    (hOwn : ∀ m, m ∈ own ↔ ¬ snapshot.Trails epoch ∧ Smallest snapshot epoch m ∧ 0 < snapshot.bond m.sender)
    (hSenders : (own.map (·.sender)).Nodup)
    (hRecovered : ∀ m, m ∈ recovered ↔ Recoverable snapshot epoch rejected m ∧ m ∉ own) (hNodup : recovered.Nodup) :
    ((∀ m ∈ own ++ recovered, 0 < snapshot.bond m.sender) ∧ ((own ++ recovered).map (·.sender)).Nodup) ↔
      NoSecondEvidence snapshot epoch rejected := by
  rw [List.map_append, List.nodup_append]
  constructor
  · rintro ⟨hBonds, -, hRecoveredSenders, hDisjoint⟩ m hm
    by_cases hMem : m ∈ own
    · obtain ⟨hTrails, hSmallest, hBond⟩ := (hOwn m).mp hMem
      exact ⟨hBond, fun h => absurd h hTrails, fun _ => hSmallest.2⟩
    · have hIn := (hRecovered m).mpr ⟨hm, hMem⟩
      have hBond := hBonds m (List.mem_append_right _ hIn)
      refine ⟨hBond, fun hTrails m' hm' hSender => ?_, fun hTrails => ?_⟩
      · have hIn' := (hRecovered m').mpr ⟨hm', fun hOwn' => ((hOwn m').mp hOwn').1 hTrails⟩
        exact List.inj_on_of_nodup_map hRecoveredSenders hIn' hIn hSender
      · -- the proposer's own slash already has this offender
        obtain ⟨least, hLeast, hSender⟩ := exists_smallest hm.1 hBond
        have hLeastOwn := (hOwn least).mpr ⟨hTrails, hLeast, hSender ▸ hBond⟩
        exact absurd hSender (hDisjoint _ (List.mem_map_of_mem hLeastOwn) _ (List.mem_map_of_mem hIn))
  · intro h
    refine ⟨?_, hSenders, ?_, ?_⟩
    · intro m hMem
      rcases List.mem_append.mp hMem with hMem | hMem
      · exact ((hOwn m).mp hMem).2.2
      · exact (h m ((hRecovered m).mp hMem).1).1
    · refine hNodup.map_on fun m hm m' hm' hSender => ?_
      have hRec := (hRecovered m).mp hm
      have hRec' := (hRecovered m').mp hm'
      by_cases hTrails : snapshot.Trails epoch
      · exact (h m' hRec'.1).2.1 hTrails m hRec.1 hSender
      · have hSmallest : Smallest snapshot epoch m := ⟨hRec.1.1, (h m hRec.1).2.2 hTrails⟩
        exact absurd ((hOwn m).mpr ⟨hTrails, hSmallest, (h m hRec.1).1⟩) hRec.2
    · intro v hv v' hv'
      obtain ⟨m, hm, rfl⟩ := List.mem_map.mp hv
      obtain ⟨m', hm', rfl⟩ := List.mem_map.mp hv'
      have hTrails := ((hOwn m).mp hm).1
      have hRec' := (hRecovered m').mp hm'
      have hSmallest : Smallest snapshot epoch m' := ⟨hRec'.1.1, (h m' hRec'.1).2.2 hTrails⟩
      exact absurd ((hOwn m').mpr ⟨hTrails, hSmallest, (h m' hRec'.1).1⟩) hRec'.2

/-- The receiver accepts the slashes of a bonded proposer when no offender has a second invalid block in play. -/
theorem slashesOfProposal_accepted_iff {R : Type} {generateSlashDeployRandomSeed : Bytes → Int32 → Bytes → R}
    (hEpoch : snapshot.currentEpoch = .ok epoch) (hBonded : 0 < snapshot.bond publicKey.bytes)
    {rejected : List RejectedSlash} {slashes : List (SlashDeploy R)}
    (hSlashes : slashesOfProposal generateSlashDeployRandomSeed snapshot publicKey rejected = .ok slashes)
    (hBlock : Proposes snapshot publicKey block) (hDeploys : succeededSlashes block = slashes.map SlashDeploy.data) :
    validateReceivedSlashDeploys block snapshot = .ok () ↔ NoSecondEvidence snapshot epoch rejected := by
  obtain ⟨own, recovered, hData, hOwn, hSenders, hRecovered, hNodup⟩ :=
    slashesOfProposal_eq generateSlashDeployRandomSeed hEpoch hBonded hSlashes
  have hEvidence : ∀ m ∈ own ++ recovered, Evidence snapshot epoch m := by
    intro m hMem
    rcases List.mem_append.mp hMem with hMem | hMem
    · exact ((hOwn m).mp hMem).2.1.1
    · exact ((hRecovered m).mp hMem).1.1
  rw [validateReceivedSlashDeploys_eq_ok hBlock hEpoch hEvidence (hDeploys.trans hData)]
  exact nodup_senders_iff hOwn hSenders hRecovered hNodup

end Receive

def faultyBlock (hash : Bytes) : BlockMetadata where
  blockHash := hash
  parents := []
  sender := [2]
  justifications := []
  weightMap := .empty
  blockNumber := 1
  sequenceNumber := 1
  invalid := true
  mergeBase := []

def twoFaults : CasperSnapshot where
  dag := .ofRecords [faultyBlock [1], faultyBlock [4]] (by decide) (by decide) (by decide)
  lastFinalizedBlock := []
  justifications := []
  maxBlockNum := 1
  maxSeqNums := ∅
  onChainState := ⟨10, ((∅ : AList fun _ : Bytes => Int).insert [2] 5).insert [3] 7⟩
  own_testimony := by simp

def proposalWith (slashes : List (SlashDeploy Unit)) : BlockMessage Unit (ProcessedSystemDeploy Unit) where
  blockHash := [9]
  header := ⟨[], 0, 1, []⟩
  body := ⟨⟨[], [], [], 2⟩, [], [], slashes.map fun s => .succeeded [] (.slash s.invalidBlockHash s.pk
    s.targetActivationEpoch), [], [], []⟩
  justifications := []
  sender := [3]
  seqNum := 1
  sig := []
  sigAlgorithm := ""
  shardId := ""
  extraBytes := []

def thirdValidator : PublicKey := ⟨[3], by decide⟩

def rejectedSecond : RejectedSlash := ⟨[4], [5], [6]⟩

theorem proposal_rejected :
    0 < twoFaults.bond thirdValidator.bytes ∧
    (∃ m, twoFaults.dag.lookup rejectedSecond.invalidBlockHash = some m ∧ m.invalid = true) ∧
    ∃ slashes, slashesOfProposal (fun _ _ _ => ()) twoFaults thirdValidator [rejectedSecond] = .ok slashes ∧
      Proposes twoFaults thirdValidator (proposalWith slashes) ∧
      succeededSlashes (proposalWith slashes) = slashes.map SlashDeploy.data ∧
      validateReceivedSlashDeploys (proposalWith slashes) twoFaults =
        .error (.slashAuth (.duplicateTarget (hexEncode [2]) 0)) :=
  ⟨by decide, ⟨faultyBlock [4], rfl, rfl⟩, [⟨[1], [3], 0, ()⟩, ⟨[4], [3], 0, ()⟩], by rfl, ⟨rfl, rfl, rfl⟩, rfl, by rfl⟩

/-- A rejected slash for the block that the proposer slashes by itself is dropped. -/
theorem proposal_accepted : NoSecondEvidence twoFaults 0 [⟨[1], [5], [6]⟩] := by
  have hSlashes : slashesOfProposal (fun _ _ _ => ()) twoFaults thirdValidator [⟨[1], [5], [6]⟩] =
      .ok [⟨[1], [3], 0, ()⟩] := rfl
  have hBlock : Proposes twoFaults thirdValidator (proposalWith [⟨[1], [3], 0, ()⟩]) := ⟨rfl, rfl, rfl⟩
  exact (slashesOfProposal_accepted_iff rfl (by decide) hSlashes hBlock rfl).mp rfl

end F1r3Node.Slashing
