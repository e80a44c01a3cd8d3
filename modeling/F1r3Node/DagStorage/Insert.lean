import F1r3Node.DagStorage.BlockDagStorage

/-! # Inserting a block

A block that is not in the DAG set passes through a row of writes, the deploy tables first and the latest messages
last; in the middle it becomes visible.
-/

namespace F1r3Node.DagStorage

open Shared Dag
open Casper (BlockMessage)

variable {S : Type}

def validatorLength : Nat := 65
def blockHashLength : Nat := 32

def WellFormed (block : BlockMessage ProcessedDeploy S) : Prop :=
  (block.sender ≠ [] → block.sender.length = validatorLength) ∧ block.blockHash.length = blockHashLength

instance (block : BlockMessage ProcessedDeploy S) : Decidable (WellFormed block) :=
  inferInstanceAs (Decidable ((_ → _) ∧ _))

def checkFormat (block : BlockMessage ProcessedDeploy S) : StorageM Unit :=
  if block.sender ≠ [] ∧ block.sender.length ≠ validatorLength then
    throw (.invalidArgument "Block sender is malformed." block.blockHash)
  else if block.blockHash.length ≠ blockHashLength then
    throw (.invalidArgument "Block hash is not correct length." block.blockHash)
  else pure ()

def writeEach {α : Type} (items : List α) (fails : α → Bool) (table : String)
    (write : α → BlockDagStorage → BlockDagStorage) : StorageM Unit :=
  items.forM fun item => do
    failIf (fails item) table
    modify (write item)

def ingestCarriers (faults : StoreFaults) (block : BlockMessage ProcessedDeploy S) : StorageM Unit :=
  writeEach block.body.deploys (fun pd => faults.carriers pd.sig) "deploy-carriers" fun pd s => s.recordCarriers block pd

def ingestLifecycle (faults : StoreFaults) (block : BlockMessage ProcessedDeploy S) (mode : InsertMode) : StorageM Unit :=
  if mode = .invalid then pure ()
  else do
    writeEach block.body.deploys (fun pd => faults.lifecycle pd.sig) "deploy-lifecycle-events" fun pd s =>
      s.appendLifecycle block pd.sig (some pd.validAfterBlockNumber) (.included pd.isFailed)
    writeEach block.body.rejectedDeploys (fun rd => faults.lifecycle rd.sig) "deploy-lifecycle-events" fun rd s =>
      s.appendLifecycle block rd.sig none (.rejected rd.duplicate)

def ingest (faults : StoreFaults) (block : BlockMessage ProcessedDeploy S) (mode : InsertMode) : StorageM Unit := do
  ingestCarriers faults block
  ingestLifecycle faults block mode

def add (faults : StoreFaults) (metadata : BlockMetadata) : StorageM Unit := do
  modify (·.addToDagState metadata)
  failIf faults.metadata "block-metadata"
  modify (·.putMetadata metadata)

def indexInvalid (faults : StoreFaults) (metadata : BlockMetadata) (mode : InsertMode) : StorageM Unit :=
  if mode = .invalid then do
    failIf faults.invalidBlocks "invalid-blocks"
    modify (·.putInvalid metadata)
  else pure ()

/-- Does the block take its sender's slot? A slot that cannot be read, or whose block is not held, is given up. -/
def BlockDagStorage.senderAdvances (s : BlockDagStorage) (silent : SilentFaults) (block : BlockMessage ProcessedDeploy S) :
    Bool :=
  match if silent.latestMessage then none else s.latestMessagesIndex.lookup block.sender with
  | some latestMessageHash =>
    match if silent.slotMetadata then none else s.metadataStore latestMessageHash with
    | some row => row.metadata.sequenceNumber ≤ block.seqNum.toInt
    | none => true
  | none => true

def BlockDagStorage.newLatestFromSender (s : BlockDagStorage) (silent : SilentFaults)
    (block : BlockMessage ProcessedDeploy S) : List (Bytes × Bytes) :=
  if block.sender ≠ [] ∧ s.senderAdvances silent block then [(block.sender, block.blockHash)] else []

def BlockDagStorage.newlyBondedUnseen (s : BlockDagStorage) (silent : SilentFaults)
    (block : BlockMessage ProcessedDeploy S) : List Bytes :=
  (block.body.state.bonds.map (·.validator)).dedup.filter fun validator =>
    validator ∉ block.justifications.map (·.validator) ∧ silent.containsKey validator = false ∧
      s.latestMessagesIndex.lookup validator = none

def genesisHash (faults : StoreFaults) : StorageM (Option Bytes) := do
  failIf faults.genesisHash "genesis-hash"
  return (← get).knownGenesis

/-- A slot of a newly bonded validator is seeded with the genesis hash, the same on every node. -/
def newLatestMessages (silent : SilentFaults) (faults : StoreFaults) (block : BlockMessage ProcessedDeploy S) :
    StorageM (List (Bytes × Bytes)) := do
  let unseen := (← get).newlyBondedUnseen silent block
  if unseen = [] then return []
  else
    match ← genesisHash faults with
    | some placeholder => return unseen.map (·, placeholder)
    | none => throw (.invalidArgument ("cannot seed newly-bonded latest-message slot(s): " ++
        "no height-0 block is held and no genesis hash was learned") block.blockHash)

def advanceLatestMessages (silent : SilentFaults) (faults : StoreFaults) (block : BlockMessage ProcessedDeploy S)
    (mode : InsertMode) : StorageM Unit :=
  if mode = .settledHistory then pure ()
  else do
    let fromSender := (← get).newLatestFromSender silent block
    let seeded ← newLatestMessages silent faults block
    failIf faults.latestMessages "latest-messages"
    modify (·.putLatestMessages (seeded ++ fromSender))

def insertFresh (silent : SilentFaults) (faults : StoreFaults) (block : BlockMessage ProcessedDeploy S)
    (mode : InsertMode) : StorageM Unit := do
  checkFormat block
  ingest faults block mode
  add faults (metadataFromBlock block (mode = .invalid))
  indexInvalid faults (metadataFromBlock block (mode = .invalid)) mode
  advanceLatestMessages silent faults block mode

def recordFinalized (order : HashOrder) (faults : StoreFaults) (directly : Bytes) (indirectly : Finset Bytes) :
    StorageM Unit := do
  failIf faults.finalizedRead "block-metadata"
  let s ← get
  match (order.toList indirectly).find? (fun hash => (s.metadataStore hash).isNone), s.metadataStore directly with
  | some missing, _ => throw (.keyNotFound "Error when reading from KeyValueStore: value for key not found." missing)
  | none, none => throw (.keyNotFound "Error when reading from KeyValueStore: value for key not found." directly)
  | none, some row => do
    modify (·.finalizeInMemory order directly row.metadata.blockNumber indirectly)
    failIf faults.finalizedWrite "block-metadata"
    modify (·.putFinalized directly indirectly)

def getRepresentationInternal (faults : StoreFaults) : StorageM BlockDagStorage := do
  failIf faults.representation "latest-messages"
  get

def insertUnlessStored (silent : SilentFaults) (faults : StoreFaults) (block : BlockMessage ProcessedDeploy S)
    (mode : InsertMode) : StorageM Unit := do
  if block.blockHash ∈ (← get).dagSet then pure () else insertFresh silent faults block mode

def markApproved (order : HashOrder) (faults : StoreFaults) (hash : Bytes) (mode : InsertMode) : StorageM Unit :=
  if mode = .approved then recordFinalized order faults hash ∅ else pure ()

def insertInternal (order : HashOrder) (silent : SilentFaults) (faults : StoreFaults)
    (block : BlockMessage ProcessedDeploy S) (mode : InsertMode) : StorageM BlockDagStorage := do
  insertUnlessStored silent faults block mode
  -- shared by both paths: an approved block is marked whether it was stored before or not
  markApproved order faults block.blockHash mode
  getRepresentationInternal faults

def recordGenesisHash (hash : Bytes) : StorageM Unit := do
  match (← get).genesisHashIndex with
  | some existing =>
    if existing = hash then pure ()
    else throw (.invalidArgument "genesis hash already recorded; refusing to overwrite" hash)
  | none => modify fun s => { s with genesisHashIndex := some hash }

end F1r3Node.DagStorage
