import F1r3Node.Crypto.MerkleBinding

/-! # Block messages and the Merkle block hash

Deploys enter the hash only through their protobuf encoding, so the two deploy
types stay abstract and `BlockCodec` supplies the encoders together with the digest.
-/

namespace F1r3Node.Casper

open Shared Crypto.Merkle

structure Header where
  parentsHashList : List Bytes
  timestamp : Int64
  version : Int64
  extraBytes : Bytes
  deriving DecidableEq

structure RejectedDeploy where
  sig : Bytes
  duplicate : Bool
  carrier : Bytes
  deriving DecidableEq

structure Bond where
  validator : Bytes
  stake : Int64
  deriving DecidableEq

structure F1r3flyState where
  preStateHash : Bytes
  postStateHash : Bytes
  bonds : List Bond
  blockNumber : Int64
  deriving DecidableEq

structure Body (D S : Type*) where
  state : F1r3flyState
  deploys : List D
  rejectedDeploys : List RejectedDeploy
  systemDeploys : List S
  extraBytes : Bytes
  appliedFromScope : List Bytes
  mergeBase : Bytes

structure Justification where
  validator : Bytes
  latestBlockHash : Bytes
  deriving DecidableEq

structure BlockMessage (D S : Type*) where
  blockHash : Bytes
  header : Header
  body : Body D S
  justifications : List Justification
  sender : Bytes
  seqNum : Int32
  sig : Bytes
  sigAlgorithm : String
  shardId : String
  extraBytes : Bytes

/-- The foreign functions the block hash is computed with: the digest and the
protobuf encoders of the messages it covers. -/
structure BlockCodec (D S : Type*) where
  blake : Blake2b256
  headerProto : Header → Bytes
  rejectedDeployProto : RejectedDeploy → Bytes
  processedDeployProto : D → Bytes
  processedSystemDeployProto : S → Bytes

def blockHashSchemeVersion : UInt8 := 0x01
def interiorDomain : UInt8 := 0x01
def topDomain : UInt8 := 0x02
def leafProcessedDeploy : UInt8 := 0x10
def leafProcessedSystemDeploy : UInt8 := 0x11
def leafHeader : UInt8 := 0x12
def leafRejectedDeploy : UInt8 := 0x13
def leafAppliedFromScopeSig : UInt8 := 0x14
def leafBond : UInt8 := 0x15

def merkleParams : MerkleParams := ⟨interiorDomain⟩

variable {D S : Type*} (E : BlockCodec D S)

def hashProcessedDeployLeaf (pd : D) : Bytes :=
  hashLeafTagged E.blake leafProcessedDeploy (E.processedDeployProto pd)

def hashProcessedSystemDeployLeaf (psd : S) : Bytes :=
  hashLeafTagged E.blake leafProcessedSystemDeploy (E.processedSystemDeployProto psd)

/-- Commit order: user deploys first, then system deploys. The parallel path of the
source returns the same list. -/
def deploysRootLeaves (block : BlockMessage D S) : List Bytes :=
  block.body.deploys.map (hashProcessedDeployLeaf E) ++
    block.body.systemDeploys.map (hashProcessedSystemDeployLeaf E)

def rejectedRoot (block : BlockMessage D S) : Bytes :=
  merkleRoot E.blake merkleParams ((sortByKey RejectedDeploy.sig block.body.rejectedDeploys).map
    fun r => hashLeafTagged E.blake leafRejectedDeploy (E.rejectedDeployProto r))

def appliedFromScopeRoot (block : BlockMessage D S) : Bytes :=
  merkleRoot E.blake merkleParams ((sortByKey id block.body.appliedFromScope).map
    (hashLeafTagged E.blake leafAppliedFromScopeSig))

def bondsRoot (bonds : List Bond) : Bytes :=
  merkleRoot E.blake merkleParams ((sortByKey Bond.validator bonds).map fun b =>
    hashLeafTagged E.blake leafBond (b.validator ++ toLeBytes 8 b.stake.toInt))

def headerPreimage (block : BlockMessage D S) : Bytes :=
  [blockHashSchemeVersion] ++ E.headerProto block.header ++
    block.body.state.preStateHash ++ block.body.state.postStateHash ++
    bondsRoot E block.body.state.bonds ++ toLeBytes 8 block.body.state.blockNumber.toInt ++
    rejectedRoot E block ++ appliedFromScopeRoot E block ++
    block.body.mergeBase ++ block.body.extraBytes ++
    block.sender ++ asBytes block.sigAlgorithm ++ toLeBytes 4 block.seqNum.toInt ++
    asBytes block.shardId ++ block.extraBytes

def hashTop (hHeader deploysRoot : Bytes) : Bytes :=
  E.blake.hash (topDomain :: (hHeader ++ deploysRoot))

def hashBlockWithLeaves (block : BlockMessage D S) (deploysLeaves : List Bytes) : Bytes :=
  hashTop E (hashLeafTagged E.blake leafHeader (headerPreimage E block))
    (merkleRoot E.blake merkleParams deploysLeaves)

def hashBlock (block : BlockMessage D S) : Bytes :=
  hashBlockWithLeaves E block (deploysRootLeaves E block)

end F1r3Node.Casper
