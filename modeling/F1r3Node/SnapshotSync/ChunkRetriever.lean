import F1r3Node.Crypto.MerkleProof

/-! # The chunks of a snapshot and their retriever

The retriever checks every response against this root on its own and keeps the bytes under the index the response
names.
-/

namespace F1r3Node.SnapshotSync

open Shared
open Crypto.Merkle

def chunkSize : Nat := 4 * 1024 * 1024

def leafDomain : UInt8 := 0x00

def interiorDomain : UInt8 := 0x01

def merkleParams : MerkleParams := ⟨interiorDomain⟩

def maxChunkBytes : Nat := 4 * 1024 * 1024

def maxMerkleProofSteps : Nat := 40

structure SnapshotChunk where
  index : UInt32
  bytes : Bytes
  hash : Bytes

structure MerkleProofStep where
  siblingHash : Bytes
  isSiblingRight : Bool

structure SnapshotChunkResponse where
  blockHash : Bytes
  chunkIndex : UInt32
  chunkCount : UInt32
  chunkBytes : Bytes
  chunkHash : Bytes
  merkleRoot : Bytes
  merkleProof : List MerkleProofStep

structure SnapshotTarget where
  blockHash : Bytes
  merkleRoot : Bytes
  chunkCount : UInt32

structure ChunkRequestState where
  chunkIndex : UInt32
  lastRequestMs : Nat
  initialRequestMs : Nat
  peersTried : List Bytes
  retryCount : UInt32
  bytes : Option Bytes

inductive AdmitOutcome where
  | chunkAccepted
  | unknownRequest
  | wrongTarget
  | merkleRootMismatch
  | chunkHashMismatch
  | merkleProofInvalid
  | chunkCountMismatch
  deriving DecidableEq

structure SnapshotChunkRetriever where
  target : SnapshotTarget
  chunks : UInt32 → Option ChunkRequestState

variable (H : Blake2b256)

def hashLeaf (bytes : Bytes) : Bytes := hashLeafTagged H leafDomain bytes

def chunkBytesAt (bytes : Bytes) (i : Nat) : Bytes :=
  let start := i * chunkSize
  let stop := min (start + chunkSize) bytes.length
  (bytes.take stop).drop start

def chunkAt (bytes : Bytes) (i : Nat) : SnapshotChunk where
  index := .ofNat i
  bytes := chunkBytesAt bytes i
  hash := hashLeaf H (chunkBytesAt bytes i)

def chunkCountOf (bytes : Bytes) : Nat := (bytes.length + chunkSize - 1) / chunkSize

/-- `none` is the panic on a chunk number beyond `u32::MAX`. -/
def chunkSnapshot (bytes : Bytes) : Option (List SnapshotChunk) :=
  if chunkCountOf bytes ≤ 2 ^ 32 then some ((List.range (chunkCountOf bytes)).map (chunkAt H bytes)) else none

def snapshotMerkleRoot (chunkHashes : List Bytes) : Bytes := merkleRoot H merkleParams chunkHashes

def verifyChunkHash (chunk : SnapshotChunk) : Bool := decide (hashLeaf H chunk.bytes = chunk.hash)

def buildMerkleProof (chunkHashes : List Bytes) (index : UInt32) : Option MerkleProof :=
  buildProof H merkleParams chunkHashes index

def verifyMerkleProof (root chunkHash : Bytes) (proof : MerkleProof) : Bool :=
  verifyProof H merkleParams root chunkHash proof

def sliceToHash (slice : Bytes) : Option Bytes := if slice.length = 32 then some slice else none

def siblingHashes (merkleProof : List MerkleProofStep) : List (Bytes × Bool) :=
  merkleProof.filterMap fun step => (sliceToHash step.siblingHash).map fun h => (h, step.isSiblingRight)

namespace SnapshotChunkRetriever

def new (target : SnapshotTarget) : SnapshotChunkRetriever where
  target := target
  chunks i := if i < target.chunkCount then some ⟨i, 0, 0, [], 0, none⟩ else none

variable (retriever : SnapshotChunkRetriever)

def setChunk (i : UInt32) (state : ChunkRequestState) : SnapshotChunkRetriever :=
  { retriever with chunks := Function.update retriever.chunks i (some state) }

/-- The checks that hash: the bytes against their digest, then the digest against the root. -/
def contentRefusal (response : SnapshotChunkResponse) (claimedHash : Bytes) : Option AdmitOutcome :=
  if ¬ verifyChunkHash H ⟨response.chunkIndex, response.chunkBytes, claimedHash⟩ then some .chunkHashMismatch
  else if (siblingHashes response.merkleProof).length ≠ response.merkleProof.length then some .merkleProofInvalid
  else if ¬ verifyMerkleProof H retriever.target.merkleRoot claimedHash
      ⟨response.chunkIndex, siblingHashes response.merkleProof⟩ then
    some .merkleProofInvalid
  else none

/-- The checks of `admit_response` before it takes the write lock, in their order. -/
def refusal (response : SnapshotChunkResponse) : Option AdmitOutcome :=
  if (retriever.chunks response.chunkIndex).isNone then some .unknownRequest
  else if maxChunkBytes < response.chunkBytes.length then some .chunkHashMismatch
  else if maxMerkleProofSteps < response.merkleProof.length then some .merkleProofInvalid
  else if response.blockHash ≠ retriever.target.blockHash then some .wrongTarget
  else if response.chunkCount ≠ retriever.target.chunkCount then some .chunkCountMismatch
  else match sliceToHash response.merkleRoot with
    | none => some .merkleRootMismatch
    | some responseRoot =>
      if responseRoot ≠ retriever.target.merkleRoot then some .merkleRootMismatch
      else match sliceToHash response.chunkHash with
        | none => some .chunkHashMismatch
        | some claimedHash => retriever.contentRefusal H response claimedHash

def admitResponse (response : SnapshotChunkResponse) : SnapshotChunkRetriever × AdmitOutcome :=
  match retriever.refusal H response with
  | some outcome => (retriever, outcome)
  | none =>
    match retriever.chunks response.chunkIndex with
    | none => (retriever, .unknownRequest)
    | some state =>
      -- bytes that were verified before stay
      if state.bytes.isSome then (retriever, .chunkAccepted)
      else (retriever.setChunk response.chunkIndex { state with bytes := some response.chunkBytes }, .chunkAccepted)

def recordRequestSent (chunkIndex : UInt32) (peerId : Bytes) (now : Nat) : SnapshotChunkRetriever :=
  match retriever.chunks chunkIndex with
  | none => retriever
  | some state => retriever.setChunk chunkIndex { state with
      initialRequestMs := if state.initialRequestMs = 0 then now else state.initialRequestMs
      lastRequestMs := now
      peersTried := if peerId ∈ state.peersTried then state.peersTried else state.peersTried ++ [peerId] }

def recordRetry (chunkIndex : UInt32) : SnapshotChunkRetriever :=
  match retriever.chunks chunkIndex with
  | none => retriever
  | some state => retriever.setChunk chunkIndex { state with retryCount := state.retryCount + 1 }

def bytesAt (i : UInt32) : Option Bytes := (retriever.chunks i).bind ChunkRequestState.bytes

def assemble : Option Bytes :=
  (List.range retriever.target.chunkCount.toNat).foldlM
    (fun out i => (retriever.bytesAt (.ofNat i)).map fun bytes => out ++ bytes) []

end SnapshotChunkRetriever

inductive Event where
  | response (response : SnapshotChunkResponse)
  | requestSent (chunkIndex : UInt32) (peerId : Bytes) (now : Nat)
  | retry (chunkIndex : UInt32)

def step (retriever : SnapshotChunkRetriever) : Event → SnapshotChunkRetriever
  | .response response => (retriever.admitResponse H response).1
  | .requestSent chunkIndex peerId now => retriever.recordRequestSent chunkIndex peerId now
  | .retry chunkIndex => retriever.recordRetry chunkIndex

def run (retriever : SnapshotChunkRetriever) (events : List Event) : SnapshotChunkRetriever :=
  events.foldl (step H) retriever

namespace SnapshotChunkRetriever

variable {H} {retriever : SnapshotChunkRetriever} {response : SnapshotChunkResponse}

theorem eq_of_sliceToHash {slice h : Bytes} (hSlice : sliceToHash slice = some h) : h = slice ∧ slice.length = 32 := by
  rw [sliceToHash] at hSlice
  split_ifs at hSlice with hLength
  exact ⟨(Option.some.inj hSlice).symm, hLength⟩

theorem verified_of_refusal (h : retriever.refusal H response = none) :
    (retriever.chunks response.chunkIndex).isSome ∧ response.chunkHash = hashLeaf H response.chunkBytes ∧
    (siblingHashes response.merkleProof).length = response.merkleProof.length ∧
    verifyMerkleProof H retriever.target.merkleRoot response.chunkHash
      ⟨response.chunkIndex, siblingHashes response.merkleProof⟩ = true := by
  rw [refusal] at h
  split_ifs at h with hUnknown
  have hTracked := Option.isNone_eq_false_iff.mp (Bool.eq_false_of_not_eq_true hUnknown)
  split at h
  · exact absurd h (by simp)
  · split_ifs at h
    split at h
    · exact absurd h (by simp)
    · next claimedHash hClaimed =>
      obtain ⟨rfl, -⟩ := eq_of_sliceToHash hClaimed
      rw [contentRefusal] at h
      split_ifs at h with hHash hLength hProof
      exact ⟨hTracked, (of_decide_eq_true hHash).symm, Decidable.not_not.mp hLength, hProof⟩

theorem siblingHashes_eq {merkleProof : List MerkleProofStep}
    (h : (siblingHashes merkleProof).length = merkleProof.length) :
    (siblingHashes merkleProof).map Prod.snd = merkleProof.map MerkleProofStep.isSiblingRight ∧
      ∀ step ∈ siblingHashes merkleProof, step.1.length = 32 := by
  have hAll := List.filterMap_length_eq_length.mp h
  constructor
  · rw [siblingHashes, List.map_filterMap, ← List.filterMap_eq_map]
    apply List.filterMap_congr
    intro step hStep
    obtain ⟨pair, hPair⟩ := Option.isSome_iff_exists.mp (hAll step hStep)
    rw [Option.map_eq_some_iff] at hPair
    obtain ⟨hash, hHash, rfl⟩ := hPair
    rw [hHash]
    rfl
  · intro pair hPair
    obtain ⟨step, -, hStep⟩ := List.mem_filterMap.mp hPair
    rw [Option.map_eq_some_iff] at hStep
    obtain ⟨hash, hHash, rfl⟩ := hStep
    obtain ⟨rfl, hLength⟩ := eq_of_sliceToHash hHash
    exact hLength

theorem bytesAt_setChunk (i j : UInt32) (state : ChunkRequestState) :
    (retriever.setChunk i state).bytesAt j = if j = i then state.bytes else retriever.bytesAt j := by
  rw [bytesAt, setChunk]
  obtain rfl | hNe := eq_or_ne j i
  · simp
  · rw [if_neg hNe, bytesAt]
    exact congrArg (Option.bind · _) (Function.update_of_ne hNe _ _)

theorem isSome_setChunk {i : UInt32} {state state' : ChunkRequestState} (h : retriever.chunks i = some state)
    (j : UInt32) : ((retriever.setChunk i state').chunks j).isSome = (retriever.chunks j).isSome := by
  rw [setChunk]
  obtain rfl | hNe := eq_or_ne j i
  · rw [h]
    simp
  · exact congrArg Option.isSome (Function.update_of_ne hNe _ _)

theorem setChunk_bytesAt {i : UInt32} {state state' : ChunkRequestState} (h : retriever.chunks i = some state)
    (hBytes : state'.bytes = state.bytes) (j : UInt32) : (retriever.setChunk i state').bytesAt j = retriever.bytesAt j := by
  rw [bytesAt_setChunk, hBytes]
  split_ifs with hEq
  · rw [hEq, bytesAt, h]
    rfl
  · rfl

end SnapshotChunkRetriever

variable {H} {retriever : SnapshotChunkRetriever}

@[simp] theorem target_step (event : Event) : (step H retriever event).target = retriever.target := by
  cases event with
  | response response =>
    rw [step, SnapshotChunkRetriever.admitResponse]
    split
    · rfl
    · split
      · rfl
      · split_ifs <;> rfl
  | requestSent i peerId now =>
    rw [step, SnapshotChunkRetriever.recordRequestSent]
    split <;> rfl
  | retry i =>
    rw [step, SnapshotChunkRetriever.recordRetry]
    split <;> rfl

theorem isSome_step (event : Event) (i : UInt32) :
    ((step H retriever event).chunks i).isSome = (retriever.chunks i).isSome := by
  cases event with
  | response response =>
    rw [step, SnapshotChunkRetriever.admitResponse]
    split
    · rfl
    · split
      · rfl
      · next hState =>
        split_ifs
        · rfl
        · exact SnapshotChunkRetriever.isSome_setChunk hState i
  | requestSent j peerId now =>
    rw [step, SnapshotChunkRetriever.recordRequestSent]
    split
    · rfl
    · next hState => exact SnapshotChunkRetriever.isSome_setChunk hState i
  | retry j =>
    rw [step, SnapshotChunkRetriever.recordRetry]
    split
    · rfl
    · next hState => exact SnapshotChunkRetriever.isSome_setChunk hState i

theorem bytesAt_step {event : Event} {i : UInt32} {bytes : Bytes}
    (h : (step H retriever event).bytesAt i = some bytes) :
    retriever.bytesAt i = some bytes ∨
      ∃ response, event = .response response ∧ retriever.refusal H response = none ∧ response.chunkIndex = i ∧
        response.chunkBytes = bytes := by
  cases event with
  | response response =>
    rw [step, SnapshotChunkRetriever.admitResponse] at h
    split at h
    · exact .inl h
    · next hPassed =>
      split at h
      · exact .inl h
      · split_ifs at h
        · exact .inl h
        · rw [SnapshotChunkRetriever.bytesAt_setChunk] at h
          split_ifs at h with hIndex
          · exact .inr ⟨response, rfl, hPassed, hIndex.symm, Option.some.inj h⟩
          · exact .inl h
  | requestSent j peerId now =>
    rw [step, SnapshotChunkRetriever.recordRequestSent] at h
    split at h
    · exact .inl h
    · next hState =>
      rw [SnapshotChunkRetriever.setChunk_bytesAt hState] at h
      · exact .inl h
      · rfl
  | retry j =>
    rw [step, SnapshotChunkRetriever.recordRetry] at h
    split at h
    · exact .inl h
    · next hState =>
      rw [SnapshotChunkRetriever.setChunk_bytesAt hState] at h
      · exact .inl h
      · rfl

theorem take_chunkBytesAt (bytes : Bytes) (i : Nat) :
    bytes.take (i * chunkSize) ++ chunkBytesAt bytes i = bytes.take ((i + 1) * chunkSize) := by
  have hCut : bytes.take (min (i * chunkSize + chunkSize) bytes.length) = bytes.take ((i + 1) * chunkSize) := by
    rw [Nat.succ_mul, ← List.take_eq_take_min]
  have hTake : bytes.take (i * chunkSize) = (bytes.take ((i + 1) * chunkSize)).take (i * chunkSize) := by
    rw [List.take_take, Nat.min_eq_left (Nat.mul_le_mul_right _ (Nat.le_succ i))]
  rw [chunkBytesAt, hCut, hTake, List.take_append_drop]

theorem take_chunkCountOf (bytes : Bytes) : bytes.take (chunkCountOf bytes * chunkSize) = bytes := by
  apply List.take_of_length_le
  rw [chunkCountOf, chunkSize]
  omega

variable {bytes : Bytes} {chunks : List SnapshotChunk}

theorem chunkSnapshot_eq_some (h : chunkSnapshot H bytes = some chunks) :
    chunks = (List.range (chunkCountOf bytes)).map (chunkAt H bytes) := by
  rw [chunkSnapshot] at h
  split_ifs at h
  exact (Option.some.inj h).symm

theorem length_of_chunkSnapshot (h : chunkSnapshot H bytes = some chunks) : chunks.length = chunkCountOf bytes := by
  rw [chunkSnapshot_eq_some h, List.length_map, List.length_range]

theorem getElem?_of_chunkSnapshot (h : chunkSnapshot H bytes = some chunks) {i : Nat} (hi : i < chunks.length) :
    chunks[i]? = some (chunkAt H bytes i) := by
  rw [length_of_chunkSnapshot h] at hi
  rw [chunkSnapshot_eq_some h, List.getElem?_map, List.getElem?_range hi]
  rfl

def leafInputs (chunks : List SnapshotChunk) : List Bytes := chunks.map fun chunk => leafDomain :: chunk.bytes

theorem hashes_of_chunkSnapshot (h : chunkSnapshot H bytes = some chunks) :
    chunks.map SnapshotChunk.hash = (leafInputs chunks).map H.hash := by
  rw [chunkSnapshot_eq_some h, leafInputs, List.map_map, List.map_map, List.map_map]
  rfl

end F1r3Node.SnapshotSync
