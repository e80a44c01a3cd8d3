import F1r3Node.Casper.BlockSignature
import F1r3Node.Slashing.Acceptance

/-! # The obligation to slash

A block that cites an invalid block of its own epoch has to slash the sender, as long as the sender is bonded.
-/

namespace F1r3Node.Slashing

open Shared Lib
open Casper (BlockMessage Justification Bond ValidBlock)
open Dag (BlockMetadata KeyValueDagRepresentation)

inductive BlockError where
  | neglectedInvalidBlock
  | blockException (error : CasperError)
  deriving DecidableEq

def bondOf (bonds : List Bond) (validator : Bytes) : Option Int :=
  (bonds.reverse.find? (·.validator = validator)).map (·.stake.toInt)

namespace Validate

variable {D E : Type}

def liftDomainError (e : DomainError) : BlockError := .blockException e.toCasperError

def collectSlashTarget (block : BlockMessage D (ProcessedSystemDeploy E)) (s : CasperSnapshot)
    (slashTargets : List (Bytes × Epoch)) : Bytes × Bytes × Epoch → Except BlockError (List (Bytes × Epoch))
  | (invalidBlockHash, issuerPublicKey, targetActivationEpoch) =>
    if issuerPublicKey ≠ block.sender then .ok slashTargets
    else
      match s.dag.lookup invalidBlockHash with
      | none => .ok slashTargets
      | some metadata => do
        let authorized ← (receivedSlashDeployAuthorized block.body.state.blockNumber.toInt metadata.blockNumber
          targetActivationEpoch s.epochLength ((bondOf block.body.state.bonds metadata.sender).getD 0)
          metadata.invalid).mapError liftDomainError
        return if authorized then (metadata.sender, targetActivationEpoch) :: slashTargets else slashTargets

def justificationBond (block : BlockMessage D (ProcessedSystemDeploy E)) (metadata : BlockMetadata)
    (justification : Justification) : Int :=
  ((bondOf block.body.state.bonds metadata.sender).or
    (bondOf block.body.state.bonds justification.validator)).getD 0

def checkJustification (block : BlockMessage D (ProcessedSystemDeploy E)) (s : CasperSnapshot) (currentEpoch : Epoch)
    (slashTargets : List (Bytes × Epoch)) (justification : Justification) : Except BlockError Unit :=
  match s.dag.lookup justification.latestBlockHash with
  | none => .ok ()
  | some metadata =>
    if !metadata.invalid then .ok ()
    else do
      let slashRequired ← (receivedSlashDeployAuthorized block.body.state.blockNumber.toInt metadata.blockNumber
        currentEpoch s.epochLength (justificationBond block metadata justification) metadata.invalid).mapError
        liftDomainError
      if slashRequired ∧ (metadata.sender, currentEpoch) ∉ slashTargets then .error .neglectedInvalidBlock
      else .ok ()

def neglectedInvalidBlock (block : BlockMessage D (ProcessedSystemDeploy E)) (s : CasperSnapshot) :
    Except BlockError ValidBlock := do
  let currentEpoch ← (epochForBlockNumber block.body.state.blockNumber.toInt s.epochLength).mapError liftDomainError
  let slashTargets ← (succeededSlashes block).foldlM (collectSlashTarget block s) []
  forM block.justifications (checkJustification block s currentEpoch slashTargets)
  return .valid

end Validate

variable {D E : Type} {block : BlockMessage D (ProcessedSystemDeploy E)} {publicKey : PublicKey}
  {snapshot : CasperSnapshot} {epoch : Epoch}

def SameBonds (snapshot : CasperSnapshot) (block : BlockMessage D (ProcessedSystemDeploy E)) : Prop :=
  ∀ v, bondOf block.body.state.bonds v = snapshot.onChainState.bondsMap.lookup v

def Obliges (snapshot : CasperSnapshot) (epoch : Epoch) (j : Justification) : Prop :=
  ∃ m, m.blockHash = j.latestBlockHash ∧ Evidence snapshot epoch m ∧ 0 < snapshot.bond m.sender

theorem SameBonds.getD_eq (h : SameBonds snapshot block) (v : Bytes) :
    (bondOf block.body.state.bonds v).getD 0 = snapshot.bond v := by
  rw [h v]
  rfl

theorem foldlM_collectSlashTarget (hBlock : Proposes snapshot publicKey block) (hBonds : SameBonds snapshot block)
    (hEpoch : snapshot.currentEpoch = .ok epoch) {ms : List BlockMetadata}
    (hEvidence : ∀ m ∈ ms, Evidence snapshot epoch m ∧ 0 < snapshot.bond m.sender)
    (slashTargets : List (Bytes × Epoch)) :
    (ms.map (slashFor publicKey epoch)).foldlM (Validate.collectSlashTarget block snapshot) slashTargets =
      .ok ((ms.map fun m => (m.sender, epoch)).reverse ++ slashTargets) := by
  induction ms generalizing slashTargets with
  | nil => rfl
  | cons m ms ih =>
    obtain ⟨⟨hm, hBond⟩, hEvidence⟩ := List.forall_mem_cons.mp hEvidence
    have hStep : Validate.collectSlashTarget block snapshot slashTargets (slashFor publicKey epoch m) =
        .ok ((m.sender, epoch) :: slashTargets) := by
      rw [slashFor, Validate.collectSlashTarget, if_neg (not_not.mpr hBlock.sender.symm), hm.held]
      dsimp only
      rw [hBonds.getD_eq, receivedSlashDeployAuthorized_eq epoch (hBlock.epoch_eq hEpoch) hm.epoch_eq]
      simp [hm.invalid, slashTargetHasPositiveBond, hBond, Except.mapError, pure, Except.pure, bind, Except.bind]
    rw [List.map_cons, List.foldlM_cons, hStep, List.map_cons, List.reverse_cons, List.append_assoc]
    exact ih hEvidence _

theorem checkJustification_eq_ok (hBlock : Proposes snapshot publicKey block) (hBonds : SameBonds snapshot block)
    (hEpoch : snapshot.currentEpoch = .ok epoch) {j : Justification} (hj : j ∈ snapshot.justifications)
    {slashTargets : List (Bytes × Epoch)} :
    Validate.checkJustification block snapshot epoch slashTargets j = .ok () ↔
      ∀ m, m.blockHash = j.latestBlockHash → Evidence snapshot epoch m → 0 < snapshot.bond m.sender →
        (m.sender, epoch) ∈ slashTargets := by
  have hHeld : ∀ m, m.blockHash = j.latestBlockHash → Evidence snapshot epoch m →
      snapshot.dag.lookup j.latestBlockHash = some m := fun m hHash hm => hHash ▸ hm.held
  rw [Validate.checkJustification]
  cases hLookup : snapshot.dag.lookup j.latestBlockHash with
  | none =>
    refine iff_of_true rfl fun m hHash hm => ?_
    rw [hHeld m hHash hm] at hLookup
    cases hLookup
  | some found =>
    have hOnly : ∀ m, m.blockHash = j.latestBlockHash → Evidence snapshot epoch m → m = found := fun m hHash hm =>
      Option.some.inj ((hHeld m hHash hm).symm.trans hLookup)
    cases hInvalid : found.invalid with
    | false =>
      refine iff_of_true (by dsimp only; rw [hInvalid]; rfl) fun m hHash hm => ?_
      rw [← hOnly m hHash hm, hm.invalid] at hInvalid
      cases hInvalid
    | true =>
      have hSender := snapshot.own_testimony j hj found hLookup hInvalid
      have hBond : Validate.justificationBond block found j = snapshot.bond found.sender := by
        rw [Validate.justificationBond, ← hSender, Option.or_self, hBonds.getD_eq]
      have hFound := evidenceEpoch_eq (epochLength_pos hEpoch) hLookup
      have hEvidence : Evidence snapshot epoch found ↔ epoch = found.blockNumber / snapshot.epochLength := by
        refine ⟨fun hm => Except.ok.inj (hm.epoch_eq.symm.trans hFound), fun hEq => ⟨?_, hInvalid, hEq ▸ hFound⟩⟩
        rwa [KeyValueDagRepresentation.blockHash_of_lookup hLookup]
      have hRequired : (decide (epoch = epoch) && decide (epoch = found.blockNumber / snapshot.epochLength) &&
          slashTargetHasPositiveBond (snapshot.bond found.sender) && true) = true ↔
          Evidence snapshot epoch found ∧ 0 < snapshot.bond found.sender := by
        simp [hEvidence, slashTargetHasPositiveBond]
      dsimp only
      rw [hInvalid, hBond, receivedSlashDeployAuthorized_eq epoch (hBlock.epoch_eq hEpoch) hFound]
      change (if (_ && _ && _ && _) = true ∧ _ then _ else _) = _ ↔ _
      split
      case isTrue h =>
        obtain ⟨hm, hPositive⟩ := hRequired.mp h.1
        refine iff_of_false (by rintro ⟨⟩) fun hAll => h.2 (hAll found ?_ hm hPositive)
        exact KeyValueDagRepresentation.blockHash_of_lookup hLookup
      case isFalse h =>
        refine iff_of_true rfl fun m hHash hm hPositive => ?_
        obtain rfl := hOnly m hHash hm
        exact not_not.mp fun hNot => h ⟨hRequired.mpr ⟨hm, hPositive⟩, hNot⟩

/-- The block of a bonded proposer meets its obligations, and while issuance is suspended exactly when it has none. -/
theorem neglectedInvalidBlock_valid_iff {R : Type} {generateSlashDeployRandomSeed : Bytes → Int32 → Bytes → R}
    (hEpoch : snapshot.currentEpoch = .ok epoch) (hBonded : 0 < snapshot.bond publicKey.bytes) {seqNum : Int32}
    {slashes : List (SlashDeploy R)}
    (hSlashes : prepareSlashingDeploys generateSlashDeployRandomSeed snapshot publicKey seqNum = .ok slashes)
    (hBlock : Proposes snapshot publicKey block) (hBonds : SameBonds snapshot block)
    (hJustifications : block.justifications.Perm snapshot.justifications)
    (hDeploys : succeededSlashes block = slashes.map SlashDeploy.data) :
    Validate.neglectedInvalidBlock block snapshot = .ok .valid ↔
      (snapshot.Trails epoch → ∀ j ∈ snapshot.justifications, ¬ Obliges snapshot epoch j) := by
  obtain ⟨own, hPrepare, hOwn, -⟩ := prepareSlashingDeploys_eq generateSlashDeployRandomSeed hEpoch hBonded seqNum
  obtain rfl := Except.ok.inj (hPrepare.symm.trans hSlashes)
  have hData : succeededSlashes block = own.map (slashFor publicKey epoch) := by
    rw [hDeploys, List.map_map]
    rfl
  have hTargets := foldlM_collectSlashTarget hBlock hBonds hEpoch
    (fun m hm => ⟨((hOwn m).mp hm).2.1.1, ((hOwn m).mp hm).2.2⟩) []
  have hCheck : Validate.neglectedInvalidBlock block snapshot = .ok .valid ↔ ∀ j ∈ block.justifications,
      Validate.checkJustification block snapshot epoch ((own.map fun m => (m.sender, epoch)).reverse ++ []) j =
        .ok () := by
    rw [Validate.neglectedInvalidBlock, hBlock.epoch_eq hEpoch, hData, hTargets, ← forM_eq_ok]
    change (forM block.justifications (Validate.checkJustification block snapshot epoch
      ((own.map fun m => (m.sender, epoch)).reverse ++ [])) >>= fun _ => Pure.pure ValidBlock.valid) = _ ↔ _
    cases forM block.justifications (Validate.checkJustification block snapshot epoch
        ((own.map fun m => (m.sender, epoch)).reverse ++ [])) with
    | error e => exact iff_of_false (by rintro ⟨⟩) (by rintro ⟨⟩)
    | ok u => exact iff_of_true rfl rfl
  have hTarget : ∀ v, (v, epoch) ∈ (own.map fun m => (m.sender, epoch)).reverse ++ [] ↔ ∃ m ∈ own, m.sender = v := by
    intro v
    simp
  rw [hCheck]
  constructor
  · -- a suspended proposer has no targets to show
    rintro hAll hTrails j hj ⟨m, hHash, hm, hPositive⟩
    have hPassed := (checkJustification_eq_ok hBlock hBonds hEpoch hj).mp
      (hAll j (hJustifications.mem_iff.mpr hj)) m hHash hm hPositive
    obtain ⟨m', hm', -⟩ := (hTarget _).mp hPassed
    exact ((hOwn m').mp hm').1 hTrails
  · intro hNone j hj
    have hj := hJustifications.mem_iff.mp hj
    refine (checkJustification_eq_ok hBlock hBonds hEpoch hj).mpr fun m hHash hm hPositive => ?_
    by_cases hTrails : snapshot.Trails epoch
    · exact absurd ⟨m, hHash, hm, hPositive⟩ (hNone hTrails j hj)
    · obtain ⟨least, hLeast, hSender⟩ := exists_smallest hm hPositive
      exact (hTarget _).mpr ⟨least, (hOwn least).mpr ⟨hTrails, hLeast, hSender ▸ hPositive⟩, hSender⟩

def aheadBlock : BlockMetadata where
  blockHash := [8]
  parents := []
  sender := [3]
  justifications := []
  weightMap := .empty
  blockNumber := 30
  sequenceNumber := 1
  invalid := false
  mergeBase := []

/-- Validator 2 is bonded and has signed an invalid block of the first epoch; the finalized block is given. -/
def citedFault (lastFinalizedBlock : Bytes) : CasperSnapshot where
  dag := .ofRecords [faultyBlock [1], aheadBlock] (by decide) (by decide) (by decide)
  lastFinalizedBlock := lastFinalizedBlock
  justifications := [⟨[2], [1]⟩]
  maxBlockNum := 1
  maxSeqNums := ∅
  onChainState := ⟨10, ((∅ : AList fun _ : Bytes => Int).insert [2] 5).insert [3] 7⟩
  own_testimony := by
    intro j hj metadata hLookup _
    obtain rfl := List.mem_singleton.mp hj
    obtain rfl := Option.some.inj hLookup
    rfl

def citingProposal (slashes : List (SlashDeploy Unit)) : BlockMessage Unit (ProcessedSystemDeploy Unit) :=
  { proposalWith slashes with
    justifications := [⟨[2], [1]⟩]
    body := { (proposalWith slashes).body with state := ⟨[], [], [⟨[2], 5⟩, ⟨[3], 7⟩], 2⟩ } }

theorem sameBonds_citingProposal (lastFinalizedBlock : Bytes) (slashes : List (SlashDeploy Unit)) :
    SameBonds (citedFault lastFinalizedBlock) (citingProposal slashes) := by
  intro v
  rcases eq_or_ne v [3] with rfl | hThird
  · rfl
  · rcases eq_or_ne v [2] with rfl | hSecond
    · rfl
    · have hNone : (citedFault lastFinalizedBlock).onChainState.bondsMap.lookup v = none := by
        change (((∅ : AList fun _ : Bytes => Int).insert [2] 5).insert [3] 7).lookup v = none
        rw [AList.lookup_insert_ne hThird, AList.lookup_insert_ne hSecond, AList.lookup_empty]
      rw [hNone]
      simp [bondOf, citingProposal, hThird.symm, hSecond.symm]

/-- The suspended proposer issues no slash, and its block is rejected for that. -/
theorem proposal_neglects_while_suspended :
    0 < (citedFault [8]).bond thirdValidator.bytes ∧ 0 < (citedFault [8]).epochLength ∧
    prepareSlashingDeploys (fun _ _ _ => ()) (citedFault [8]) thirdValidator 1 = .ok [] ∧
    Proposes (citedFault [8]) thirdValidator (citingProposal []) ∧
    SameBonds (citedFault [8]) (citingProposal []) ∧
    (citingProposal []).justifications = (citedFault [8]).justifications ∧
    succeededSlashes (citingProposal []) = [] ∧
    Validate.neglectedInvalidBlock (citingProposal []) (citedFault [8]) = .error .neglectedInvalidBlock :=
  ⟨by decide, by decide, rfl, ⟨rfl, rfl, rfl⟩, sameBonds_citingProposal _ _, rfl, rfl, rfl⟩

/-- With an unknown finalized block the slash is issued, and the block passes. -/
theorem proposal_meets_obligation :
    Validate.neglectedInvalidBlock (citingProposal [⟨[1], [3], 0, ()⟩]) (citedFault []) = .ok .valid := by
  have hSlashes : prepareSlashingDeploys (fun _ _ _ => ()) (citedFault []) thirdValidator 1 =
      .ok [⟨[1], [3], 0, ()⟩] := rfl
  have hBlock : Proposes (citedFault []) thirdValidator (citingProposal [⟨[1], [3], 0, ()⟩]) := ⟨rfl, rfl, rfl⟩
  have hTrails : ¬ (citedFault []).Trails 0 := by
    intro h
    cases h
  exact (neglectedInvalidBlock_valid_iff rfl (by decide) hSlashes hBlock (sameBonds_citingProposal _ _)
    (List.Perm.refl _) rfl).mpr fun h => absurd h hTrails

end F1r3Node.Slashing
