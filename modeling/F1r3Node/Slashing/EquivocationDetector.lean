import F1r3Node.Dag.MainChain

/-! # Neglected equivocations

The detector collects the oldest blocks above the base on the equivocator's branches that the justifications of a block
lead to, in one step or in two.
-/

namespace F1r3Node.Slashing

open Shared
open Casper (BlockMessage Justification Bond)
open Dag (KeyValueDagRepresentation KvStoreError)

variable {D S : Type}

structure EquivocationRecord where
  equivocator : Bytes
  equivocationBaseBlockSeqNum : Int32
  equivocationDetectedBlockHashes : Finset Bytes
  deriving DecidableEq

inductive EquivocationDiscoveryStatus where
  | equivocationNeglected
  | equivocationDetected
  | equivocationOblivious
  deriving DecidableEq

/-- `BTreeMap::insert`. -/
def insertLatest (entry : Justification) : List Justification → List Justification
  | [] => [entry]
  | head :: entries =>
    if entry.validator < head.validator then entry :: head :: entries
    else if head.validator < entry.validator then head :: insertLatest entry entries
    else entry :: entries

def toLatestMessageHashes (justifications : List Justification) : List Justification :=
  justifications.foldl (fun entries justification => insertLatest justification entries) []

def canonicalLoop (dag : KeyValueDagRepresentation) (targetValidator : Bytes) (baseSeqNum : Int) :
    Nat → Finset Bytes → Bytes → Except KvStoreError Bytes
  | 0, _, current => .ok current
  | fuel + 1, visited, current =>
    if current ∈ visited then .ok current
    else
      match dag.selfJustification current with
      | .error e => .error e
      | .ok none => .ok current
      | .ok (some parent) =>
        match dag.lookupUnsafe parent with
        | .error e => .error e
        | .ok metadata =>
          if metadata.sender = targetValidator ∧ baseSeqNum < metadata.sequenceNumber then
            canonicalLoop dag targetValidator baseSeqNum fuel (insert current visited) parent
          else .ok current

def findCanonicalCreatorJustificationChildAboveSeq (dag : KeyValueDagRepresentation) (block : BlockMessage D S)
    (targetValidator : Bytes) (baseSeqNum : Int) : Except KvStoreError (Option Bytes) :=
  if block.sender ≠ targetValidator ∨ block.seqNum.toInt ≤ baseSeqNum then .ok none
  else (canonicalLoop dag targetValidator baseSeqNum (dag.records.length + 1) ∅ block.blockHash).map some

abbrev CanonicalChildCache := AList fun _ : Bytes × Bytes × Int => Option Bytes

/-- The children collected so far and the memo of a detection pass. -/
structure Detection (D S : Type) where
  children : List (BlockMessage D S)
  cache : CanonicalChildCache

section detector

variable (dag : KeyValueDagRepresentation) (blockStore : Bytes → Option (BlockMessage D S))

def canonicalChild (block : BlockMessage D S) (validator : Bytes) (base : Int) (cache : CanonicalChildCache) :
    Except KvStoreError (Option Bytes × CanonicalChildCache) :=
  match cache.lookup (block.blockHash, validator, base) with
  | some cached => .ok (cached, cache)
  | none =>
    match findCanonicalCreatorJustificationChildAboveSeq dag block validator base with
    | .error e => .error e
    | .ok computed => .ok (computed, cache.insert (block.blockHash, validator, base) computed)

def pushChild (childHash : Option Bytes) (children : List (BlockMessage D S)) : List (BlockMessage D S) :=
  match childHash.bind blockStore with
  | none => children
  | some child => if children.any (·.blockHash = child.blockHash) then children else children ++ [child]

def addEquivocationChild (justificationBlock : BlockMessage D S) (validator : Bytes) (base : Int)
    (state : Detection D S) : Except KvStoreError (Detection D S) :=
  match canonicalChild dag justificationBlock validator base state.cache with
  | .error e => .error e
  | .ok (childHash, cache) => .ok ⟨pushChild blockStore childHash state.children, cache⟩

def latestOf (justificationBlock : BlockMessage D S) (validator : Bytes) : Option (BlockMessage D S) :=
  ((toLatestMessageHashes justificationBlock.justifications).find? (·.validator = validator)).bind
    fun entry => blockStore entry.latestBlockHash

def maybeAddEquivocationChild (justificationBlock : BlockMessage D S) (validator : Bytes) (base : Int)
    (genesis : BlockMessage D S) (state : Detection D S) : Except KvStoreError (Detection D S) :=
  -- genesis is the root of every equivocation and no child of it
  if justificationBlock.blockHash = genesis.blockHash then .ok state
  else if justificationBlock.sender = validator then
    if base < justificationBlock.seqNum.toInt then
      addEquivocationChild dag blockStore justificationBlock validator base state
    else .ok state
  else
    match latestOf blockStore justificationBlock validator with
    | none => .ok state
    | some latest =>
      if base < latest.seqNum.toInt then addEquivocationChild dag blockStore latest validator base state
      else .ok state

def detectLoop (record : EquivocationRecord) (genesis : BlockMessage D S) :
    List Bytes → Detection D S → Except KvStoreError (Bool × CanonicalChildCache)
  | [], state => .ok (false, state.cache)
  | hash :: hashes, state =>
    if hash ∈ record.equivocationDetectedBlockHashes then .ok (true, state.cache)
    else
      match blockStore hash with
      | none => detectLoop record genesis hashes state
      | some justificationBlock =>
        match maybeAddEquivocationChild dag blockStore justificationBlock record.equivocator
          record.equivocationBaseBlockSeqNum.toInt genesis state with
        | .error e => .error e
        | .ok state' =>
          if 1 < state'.children.length then .ok (true, state'.cache) else detectLoop record genesis hashes state'

def isEquivocationDetectable (latestMessages : List Justification) (record : EquivocationRecord)
    (equivocationChildren : List (BlockMessage D S)) (genesis : BlockMessage D S) (cache : CanonicalChildCache) :
    Except KvStoreError (Bool × CanonicalChildCache) :=
  detectLoop dag blockStore record genesis (latestMessages.map (·.latestBlockHash)) ⟨equivocationChildren, cache⟩

def getEquivocationDiscoveryStatusForBondedValidator (record : EquivocationRecord) (latestMessages : List Justification)
    (stake : Int64) (genesis : BlockMessage D S) (cache : CanonicalChildCache) :
    Except KvStoreError (EquivocationDiscoveryStatus × CanonicalChildCache) :=
  if 0 < stake then
    match isEquivocationDetectable dag blockStore latestMessages record [] genesis cache with
    | .error e => .error e
    | .ok (true, cache) => .ok (.equivocationNeglected, cache)
    | .ok (false, cache) => .ok (.equivocationOblivious, cache)
  else .ok (.equivocationOblivious, cache)

def getEquivocationDiscoveryStatus (record : EquivocationRecord) (genesis : BlockMessage D S)
    (cache : CanonicalChildCache) (latestMessages : List Justification) (bonds : List Bond) :
    Except KvStoreError (EquivocationDiscoveryStatus × CanonicalChildCache) :=
  match bonds.find? (·.validator = record.equivocator) with
  | some bond =>
    getEquivocationDiscoveryStatusForBondedValidator dag blockStore record latestMessages bond.stake genesis cache
  | none => .ok (.equivocationOblivious, cache)

end detector

end F1r3Node.Slashing
