import F1r3Node.Slashing.Authorization
import Mathlib.Data.List.Destutter

/-! # The slashes of a proposed block

A proposer issues a slash for each of its own candidates, and again those that the merge of its parents rejected, as far
as their evidence is not among its own.
-/

namespace F1r3Node.Slashing

open Shared
open Dag (BlockMetadata)

/-- The public key of a proposer, of which nothing else is used here; the curve gives it some bytes. -/
structure PublicKey where
  bytes : Bytes
  nonempty : bytes ≠ []

structure SlashDeploy (R : Type) where
  invalidBlockHash : Bytes
  pk : Bytes
  targetActivationEpoch : Epoch
  initialRand : R

structure RejectedSlash where
  invalidBlockHash : Bytes
  issuerPublicKey : Bytes
  sourceBlockHash : Bytes
  deriving DecidableEq

def firstPerHash (seen : List Bytes) : List RejectedSlash → List RejectedSlash
  | [] => []
  | rs :: rejected =>
    if rs.invalidBlockHash ∈ seen then firstPerHash seen rejected
    else rs :: firstPerHash (rs.invalidBlockHash :: seen) rejected

def filterRecoverable (rejected : List RejectedSlash) (ownInvalidBlockHashes : List Bytes) : List RejectedSlash :=
  firstPerHash [] ((sortByKey RejectedSlash.invalidBlockHash rejected).filter
    fun rs => rs.invalidBlockHash ∉ ownInvalidBlockHashes)

def filterRecoverableWithEvidence {ε : Type} (rejected : List RejectedSlash) (ownInvalidBlockHashes : List Bytes)
    (evidenceIsCurrent : Bytes → Except ε Bool) : Except ε (List RejectedSlash) :=
  (filterRecoverable rejected ownInvalidBlockHashes).foldlM (fun out rs => do
    if ← evidenceIsCurrent rs.invalidBlockHash then return out ++ [rs] else return out) []

def checkedNextSeq (maxSeq : UInt64) : Option Int32 :=
  if maxSeq.toNat + 1 < 2 ^ 31 then some (.ofNat (maxSeq.toNat + 1)) else none

namespace CasperSnapshot

variable (snapshot : CasperSnapshot)

def nextSeqNum (validator : Bytes) : Except CasperError Int32 :=
  match snapshot.maxSeqNums.lookup validator with
  | none => .ok 1
  | some seq =>
    match checkedNextSeq seq with
    | some next => .ok next
    | none => .error (.runtimeError s!"next sequence number overflows i32: {seq}")

end CasperSnapshot

def DomainError.debug : DomainError → String
  | .invalidEpochLength n => s!"InvalidEpochLength({n})"
  | .negativeBlockNumber n => s!"NegativeBlockNumber({n})"

section Issue

variable {R : Type} (generateSlashDeployRandomSeed : Bytes → Int32 → Bytes → R)

def buildSlashDeploy (invalidBlockHash proposerPublicKey : Bytes) (targetActivationEpoch : Epoch) (seqNum : Int32) :
    SlashDeploy R where
  invalidBlockHash := invalidBlockHash
  pk := proposerPublicKey
  targetActivationEpoch := targetActivationEpoch
  initialRand := generateSlashDeployRandomSeed proposerPublicKey seqNum invalidBlockHash

def prepareSlashingDeploys (snapshot : CasperSnapshot) (publicKey : PublicKey) (seqNum : Int32) :
    Except CasperError (List (SlashDeploy R)) := do
  if snapshot.bond publicKey.bytes ≤ 0 then return []
  let slashCandidates ← authorizedSlashCandidates snapshot
  let offenders := (slashCandidates.map (·.offender)).insertionSort (· ≤ ·)
  if (offenders.destutter (· ≠ ·)).length ≠ offenders.length then
    throw (.runtimeError "authorized slash candidates contain a duplicate offender")
  return slashCandidates.map fun candidate =>
    buildSlashDeploy generateSlashDeployRandomSeed candidate.invalidBlockHash publicKey.bytes
      candidate.targetActivationEpoch seqNum

/-- Whether a rejected slash still names an invalid block of the epoch of the next block. -/
def evidenceIsCurrent (snapshot : CasperSnapshot) (currentEpoch : Epoch) (invalidBlockHash : Bytes) :
    Except CasperError Bool :=
  match snapshot.dag.lookup invalidBlockHash with
  | none => .ok false
  | some metadata => do
    if !metadata.invalid then return false
    let evidence ← (epochForBlockNumber metadata.blockNumber snapshot.epochLength).mapError DomainError.toCasperError
    return evidence = currentEpoch

/-- The rejected slashes that are issued again, with the epoch of the block that carries them. -/
def recoveredRejectedSlashes (snapshot : CasperSnapshot) (nextBlockNum : Int64) (rejected : List RejectedSlash)
    (ownInvalidBlockHashes : List Bytes) : Except CasperError (Option Epoch × List RejectedSlash) := do
  let candidates := filterRecoverable rejected ownInvalidBlockHashes
  if candidates.isEmpty then return (none, [])
  let epoch ← (epochForBlockNumber nextBlockNum.toInt snapshot.epochLength).mapError fun e =>
    .runtimeError ("Failed to compute current epoch for recovered slash deploy: " ++ e.debug)
  let recovered ← filterRecoverableWithEvidence candidates [] (evidenceIsCurrent snapshot epoch)
  return (some epoch, recovered)

/-- The slashes that `create` puts into a block: the proposer's own first. -/
def slashesOfProposal (snapshot : CasperSnapshot) (publicKey : PublicKey) (rejected : List RejectedSlash) :
    Except CasperError (List (SlashDeploy R)) := do
  let nextSeqNum ← snapshot.nextSeqNum publicKey.bytes
  let nextBlockNum ← snapshot.nextBlockNum
  let own ← prepareSlashingDeploys generateSlashDeployRandomSeed snapshot publicKey nextSeqNum
  let (epoch?, recovered) ← recoveredRejectedSlashes snapshot nextBlockNum rejected (own.map (·.invalidBlockHash))
  match epoch? with
  | none => return own
  | some epoch =>
    return own ++ recovered.map fun rs =>
      buildSlashDeploy generateSlashDeployRandomSeed rs.invalidBlockHash publicKey.bytes epoch nextSeqNum

end Issue

end F1r3Node.Slashing
