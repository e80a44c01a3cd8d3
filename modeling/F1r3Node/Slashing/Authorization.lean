import F1r3Node.Dag.Representation
import F1r3Node.Lib.Fallible

/-! # Who may be slashed, and by which block

Numbers of blocks and epochs are `i64` values and stand here as integers, except where an overflow is caught.
-/

namespace F1r3Node.Slashing

open Shared
open Casper (BlockMessage Justification)
open Dag (BlockMetadata KeyValueDagRepresentation)

abbrev Epoch := Int

instance instLawfulBEqTarget : LawfulBEq (Bytes × Epoch) := inferInstance

inductive DomainError where
  | invalidEpochLength (epochLength : Int)
  | negativeBlockNumber (blockNumber : Int)
  deriving DecidableEq

inductive SlashAuthError where
  | issuerMismatch (blockHash issuer sender : String)
  | epochMismatch (target current : Epoch)
  | referencesUnknownBlock (hash : String)
  | referencesValidBlock (hash : String)
  | invalidEpochLength (epochLength : Int)
  | negativeBlockNumber (blockNumber : Int)
  | evidenceEpochMismatch (evidenceEpoch targetEpoch : Epoch)
  | targetNotBonded (validator : String)
  | notAuthorizedByEvidence (validator : String)
  | duplicateTarget (validator : String) (epoch : Epoch)
  | negativeSequenceNumber (blockHash : String) (seqNum : Int)
  deriving DecidableEq

inductive CasperError where
  | runtimeError (message : String)
  | slashAuth (error : SlashAuthError)
  deriving DecidableEq

def DomainError.toCasperError : DomainError → CasperError
  | .invalidEpochLength n => .slashAuth (.invalidEpochLength n)
  | .negativeBlockNumber n => .slashAuth (.negativeBlockNumber n)

/-- `hex::encode`. -/
def hexEncode (bytes : Bytes) : String :=
  .ofList (bytes.flatMap fun b => [Nat.digitChar (b.toNat / 16), Nat.digitChar (b.toNat % 16)])

inductive SystemDeployData where
  | slash (invalidBlockHash issuerPublicKey : Bytes) (targetActivationEpoch : Epoch)
  | closeBlockSystemDeployData
  | empty
  deriving DecidableEq

inductive ProcessedSystemDeploy (E : Type) where
  | succeeded (eventList : List E) (systemDeploy : SystemDeployData)
  | failed (eventList : List E) (errorMsg : String)

structure OnChainCasperState where
  epochLength : Int
  bondsMap : AList fun _ : Bytes => Int

/-- What a node knows when it proposes or checks a block. The slot of a validator in the justifications holds a
block the validator has signed, or the genesis block, which is not invalid. -/
structure CasperSnapshot where
  dag : KeyValueDagRepresentation
  lastFinalizedBlock : Bytes
  justifications : List Justification
  maxBlockNum : Int64
  maxSeqNums : AList fun _ : Bytes => UInt64
  onChainState : OnChainCasperState
  own_testimony : ∀ j ∈ justifications, ∀ metadata, dag.lookup j.latestBlockHash = some metadata →
    metadata.invalid = true → metadata.sender = j.validator

def epochForBlockNumber (blockNumber epochLength : Int) : Except DomainError Epoch :=
  if epochLength ≤ 0 then .error (.invalidEpochLength epochLength)
  else if blockNumber < 0 then .error (.negativeBlockNumber blockNumber)
  else .ok (blockNumber / epochLength)

def slashTargetEpochIsCurrent (referenceBlockNumber : Int) (targetActivationEpoch : Epoch) (epochLength : Int) :
    Except DomainError Bool := do
  let currentEpoch ← epochForBlockNumber referenceBlockNumber epochLength
  return targetActivationEpoch = currentEpoch

def slashEvidenceEpochMatchesTarget (evidenceBlockNumber : Int) (targetActivationEpoch : Epoch) (epochLength : Int) :
    Except DomainError Bool := do
  let evidenceEpoch ← epochForBlockNumber evidenceBlockNumber epochLength
  return targetActivationEpoch = evidenceEpoch

def slashTargetHasPositiveBond (bond : Int) : Bool := 0 < bond

def receivedSlashDeployAuthorized (referenceBlockNumber evidenceBlockNumber : Int) (targetActivationEpoch : Epoch)
    (epochLength bond : Int) (invalid : Bool) : Except DomainError Bool := do
  let current ← slashTargetEpochIsCurrent referenceBlockNumber targetActivationEpoch epochLength
  let evidence ← slashEvidenceEpochMatchesTarget evidenceBlockNumber targetActivationEpoch epochLength
  return current && evidence && slashTargetHasPositiveBond bond && invalid

def evidenceEpoch (metadata : BlockMetadata) (epochLength : Int) : Except DomainError Epoch :=
  epochForBlockNumber metadata.blockNumber epochLength

structure AuthorizedSlashCandidate where
  offender : Bytes
  invalidBlockHash : Bytes
  targetActivationEpoch : Epoch
  deriving DecidableEq

namespace CasperSnapshot

variable (snapshot : CasperSnapshot)

def epochLength : Int := snapshot.onChainState.epochLength

def bond (validator : Bytes) : Int := (snapshot.onChainState.bondsMap.lookup validator).getD 0

def nextBlockNum : Except CasperError Int64 :=
  if snapshot.maxBlockNum = Int64.maxValue then
    .error (.runtimeError s!"max_block_num overflow: {snapshot.maxBlockNum} + 1 wraps i64")
  else .ok (snapshot.maxBlockNum + 1)

/-- The finalized block may be epochs ahead of the latest messages while a restored node catches up. -/
def trailsFinalizedFrontier (currentEpoch : Epoch) : Except CasperError Bool :=
  match snapshot.dag.lookup snapshot.lastFinalizedBlock with
  | none => .ok false
  | some lfbMetadata => do
    let lfbEpoch ← (epochForBlockNumber lfbMetadata.blockNumber snapshot.epochLength).mapError
      DomainError.toCasperError
    return currentEpoch < lfbEpoch

/-- The candidate that one invalid block gives, if its epoch is current and its sender is bonded. -/
def slashCandidate (currentEpoch : Epoch) (metadata : BlockMetadata) : Option AuthorizedSlashCandidate :=
  if !metadata.invalid then none
  else
    match evidenceEpoch metadata snapshot.epochLength with
    | .error _ => none
    | .ok targetActivationEpoch =>
      if targetActivationEpoch ≠ currentEpoch then none
      else if snapshot.bond metadata.sender ≤ 0 then none
      else some ⟨metadata.sender, metadata.blockHash, targetActivationEpoch⟩

end CasperSnapshot

abbrev ByOffender := AList fun _ : Bytes => AuthorizedSlashCandidate

def ByOffender.keep (byOffender : ByOffender) (candidate : AuthorizedSlashCandidate) : ByOffender :=
  match byOffender.lookup candidate.offender with
  | none => byOffender.insert candidate.offender candidate
  | some kept =>
    if candidate.invalidBlockHash < kept.invalidBlockHash then byOffender.insert candidate.offender candidate
    else byOffender

def ByOffender.intoValues (byOffender : ByOffender) : List AuthorizedSlashCandidate :=
  (sortByKey Sigma.fst byOffender.entries).map Sigma.snd

def CasperSnapshot.candidatesByOffender (snapshot : CasperSnapshot) (currentEpoch : Epoch) : ByOffender :=
  (snapshot.dag.invalidBlocks.filterMap (snapshot.slashCandidate currentEpoch)).foldl ByOffender.keep ∅

def authorizedSlashCandidates (snapshot : CasperSnapshot) : Except CasperError (List AuthorizedSlashCandidate) := do
  let proposedBlockNum ← snapshot.nextBlockNum
  let currentEpoch ← (epochForBlockNumber proposedBlockNum.toInt snapshot.epochLength).mapError
    DomainError.toCasperError
  if ← snapshot.trailsFinalizedFrontier currentEpoch then return []
  return (snapshot.candidatesByOffender currentEpoch).intoValues

section Receive

variable {D E : Type}

def succeededSlash : ProcessedSystemDeploy E → Option (Bytes × Bytes × Epoch)
  | .succeeded _ (.slash invalidBlockHash issuerPublicKey targetActivationEpoch) =>
    some (invalidBlockHash, issuerPublicKey, targetActivationEpoch)
  | _ => none

def succeededSlashes (block : BlockMessage D (ProcessedSystemDeploy E)) : List (Bytes × Bytes × Epoch) :=
  block.body.systemDeploys.filterMap succeededSlash

/-- The checks of a slash against the invalid block it names; the result is its offender with its epoch. -/
def checkSlashTarget (block : BlockMessage D (ProcessedSystemDeploy E)) (snapshot : CasperSnapshot)
    (targetActivationEpoch : Epoch) (metadata : BlockMetadata) : Except CasperError (Bytes × Epoch) := do
  let evidence ← (evidenceEpoch metadata snapshot.epochLength).mapError DomainError.toCasperError
  if evidence ≠ targetActivationEpoch then
    .error (.slashAuth (.evidenceEpochMismatch evidence targetActivationEpoch))
  else if snapshot.bond metadata.sender ≤ 0 then
    .error (.slashAuth (.targetNotBonded (hexEncode metadata.sender)))
  else
    let authorized ← (receivedSlashDeployAuthorized block.body.state.blockNumber.toInt metadata.blockNumber
      targetActivationEpoch snapshot.epochLength (snapshot.bond metadata.sender) metadata.invalid).mapError
      DomainError.toCasperError
    if !authorized then .error (.slashAuth (.notAuthorizedByEvidence (hexEncode metadata.sender)))
    else return (metadata.sender, targetActivationEpoch)

def checkReceivedSlash (block : BlockMessage D (ProcessedSystemDeploy E)) (snapshot : CasperSnapshot)
    (currentEpoch : Epoch) : Bytes × Bytes × Epoch → Except CasperError (Bytes × Epoch)
  | (invalidBlockHash, issuerPublicKey, targetActivationEpoch) =>
    if issuerPublicKey.isEmpty then
      .error (.slashAuth (.issuerMismatch (hexEncode block.blockHash) "<empty>" (hexEncode block.sender)))
    else if issuerPublicKey ≠ block.sender then
      .error (.slashAuth (.issuerMismatch (hexEncode block.blockHash) (hexEncode issuerPublicKey)
        (hexEncode block.sender)))
    else if targetActivationEpoch ≠ currentEpoch then
      .error (.slashAuth (.epochMismatch targetActivationEpoch currentEpoch))
    else
      match snapshot.dag.lookup invalidBlockHash with
      | none => .error (.slashAuth (.referencesUnknownBlock (hexEncode invalidBlockHash)))
      | some metadata =>
        if !metadata.invalid then .error (.slashAuth (.referencesValidBlock (hexEncode invalidBlockHash)))
        else checkSlashTarget block snapshot targetActivationEpoch metadata

def receiveSlash (block : BlockMessage D (ProcessedSystemDeploy E)) (snapshot : CasperSnapshot)
    (currentEpoch : Epoch) (seen : List (Bytes × Epoch)) (slash : Bytes × Bytes × Epoch) :
    Except CasperError (List (Bytes × Epoch)) := do
  let key ← checkReceivedSlash block snapshot currentEpoch slash
  if key ∈ seen then throw (.slashAuth (.duplicateTarget (hexEncode key.1) key.2))
  return key :: seen

def validateReceivedSlashDeploys (block : BlockMessage D (ProcessedSystemDeploy E)) (snapshot : CasperSnapshot) :
    Except CasperError Unit := do
  if (succeededSlashes block).isEmpty then return ()
  let currentEpoch ← (epochForBlockNumber block.body.state.blockNumber.toInt snapshot.epochLength).mapError
    DomainError.toCasperError
  if block.seqNum < 0 then
    throw (.slashAuth (.negativeSequenceNumber (hexEncode block.blockHash) block.seqNum.toInt))
  let _ ← (succeededSlashes block).foldlM (receiveSlash block snapshot currentEpoch) []
  return ()

end Receive

end F1r3Node.Slashing
