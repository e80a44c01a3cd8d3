import F1r3Node.SnapshotSync.ChunkRetriever

/-! # Which chunks the retriever holds

A response that passes the checks carries the bytes of some chunk of the snapshot, namely of a position whose own
proof has the sides of the response.
-/

namespace F1r3Node.SnapshotSync

open Shared
open Crypto.Merkle

variable (H : Blake2b256)

/-- The target holds the root and the number of the chunks of the snapshot. -/
structure SnapshotTarget.Describes (target : SnapshotTarget) (snapshot : Bytes) (chunks : List SnapshotChunk) :
    Prop where
  chunked : chunkSnapshot H snapshot = some chunks
  root : target.merkleRoot = snapshotMerkleRoot H (chunks.map SnapshotChunk.hash)
  count : target.chunkCount.toNat = chunks.length

def SnapshotChunkResponse.inputs (response : SnapshotChunkResponse) : List Bytes :=
  (leafDomain :: response.chunkBytes) ::
    climbInputs H merkleParams (hashLeaf H response.chunkBytes) (siblingHashes response.merkleProof)

def hashedInputs (chunks : List SnapshotChunk) (events : List Event) : Set Bytes :=
  {x | x ∈ merkleInputs H merkleParams (leafInputs chunks) ∨ ∃ response, .response response ∈ events ∧
    x ∈ response.inputs H}

def bytesOf (chunks : List SnapshotChunk) (i : UInt32) : Option Bytes := chunks[i.toNat]?.map SnapshotChunk.bytes

/-- Wherever a proof with the sides of the response leads, the snapshot has the bytes it has at the index of the
response. -/
def SnapshotChunkResponse.InPlace (response : SnapshotChunkResponse) (chunks : List SnapshotChunk) : Prop :=
  ∀ position proof, buildMerkleProof H (chunks.map SnapshotChunk.hash) position = some proof →
    proof.siblings.map Prod.snd = response.merkleProof.map MerkleProofStep.isSiblingRight →
    bytesOf chunks position = bytesOf chunks response.chunkIndex

def Authentic (chunks : List SnapshotChunk) (retriever : SnapshotChunkRetriever) : Prop :=
  ∀ i bytes, retriever.bytesAt i = some bytes → bytesOf chunks i = some bytes

def Tracked (chunks : List SnapshotChunk) (retriever : SnapshotChunkRetriever) : Prop :=
  ∀ i, (retriever.chunks i).isSome → i.toNat < chunks.length

variable {H} {target : SnapshotTarget} {snapshot : Bytes} {chunks : List SnapshotChunk}

theorem head?_leafInputs {x : Bytes} (hx : x ∈ leafInputs chunks) : x.head? ≠ some merkleParams.interiorDomain := by
  obtain ⟨chunk, -, rfl⟩ := List.mem_map.mp hx
  simp [leafDomain, merkleParams, interiorDomain]

variable {retriever : SnapshotChunkRetriever} {S : Set Bytes}

theorem position_of_refusal {response : SnapshotChunkResponse}
    (hTarget : retriever.target.Describes H snapshot chunks) (hInj : Set.InjOn H.hash S)
    (hIn : ∀ x ∈ merkleInputs H merkleParams (leafInputs chunks), x ∈ S) (hOwn : ∀ x ∈ response.inputs H, x ∈ S)
    (hTracked : Tracked chunks retriever) (hPassed : retriever.refusal H response = none) :
    ∃ position proof, buildMerkleProof H (chunks.map SnapshotChunk.hash) position = some proof ∧
      proof.siblings.map Prod.snd = response.merkleProof.map MerkleProofStep.isSiblingRight ∧
      bytesOf chunks position = some response.chunkBytes := by
  obtain ⟨hAsked, hHash, hLength, hVerify⟩ := SnapshotChunkRetriever.verified_of_refusal hPassed
  obtain ⟨hSides, hWidth⟩ := SnapshotChunkRetriever.siblingHashes_eq hLength
  rw [hTarget.root, hHash, snapshotMerkleRoot, hashes_of_chunkSnapshot hTarget.chunked] at hVerify
  rw [SnapshotChunkResponse.inputs, List.forall_mem_cons] at hOwn
  have hNonempty : chunks ≠ [] := List.ne_nil_of_length_pos (Nat.zero_lt_of_lt (hTracked _ hAsked))
  have hLeaves : leafInputs chunks ≠ [] := fun hNil => hNonempty (List.map_eq_nil_iff.mp hNil)
  obtain ⟨position, hAt, hSame⟩ := position_of_verifyProof ⟨response.chunkIndex, siblingHashes response.merkleProof⟩
    hInj hIn (fun x hx => head?_leafInputs hx) hLeaves hOwn.1 (by simp [leafDomain, merkleParams, interiorDomain])
    hOwn.2 hWidth hVerify
  rw [leafInputs, List.getElem?_map, Option.map_eq_some_iff] at hAt
  obtain ⟨chunk, hChunk, hBytes⟩ := hAt
  have hBound : position < chunks.length := (List.getElem?_eq_some_iff.mp hChunk).1
  have hIndex : (UInt32.ofNat position).toNat = position := by
    rw [UInt32.toNat_ofNat']
    exact Nat.mod_eq_of_lt (hBound.trans_le (hTarget.count.ge.trans (Nat.le_of_lt retriever.target.chunkCount.toNat_lt)))
  have hBuild := buildProof_of_lt H merkleParams (chunks.map SnapshotChunk.hash) (.ofNat position)
    (by rwa [hIndex, List.length_map])
  refine ⟨.ofNat position, _, hBuild, ?_, ?_⟩
  · rw [hIndex, ← hSides, List.length_map, hashes_of_chunkSnapshot hTarget.chunked]
    rw [leafInputs, List.length_map] at hSame
    exact hSame
  · rw [bytesOf, hIndex, hChunk, Option.map_some, (List.cons.inj hBytes).2]

theorem authentic_step {event : Event}
    (hTarget : retriever.target.Describes H snapshot chunks) (hInj : Set.InjOn H.hash S)
    (hIn : ∀ x ∈ merkleInputs H merkleParams (leafInputs chunks), x ∈ S) (hTracked : Tracked chunks retriever)
    (hOwn : ∀ response, event = .response response → (∀ x ∈ response.inputs H, x ∈ S) ∧ response.InPlace H chunks)
    (hHeld : Authentic chunks retriever) : Authentic chunks (step H retriever event) := by
  intro i bytes hBytes
  obtain hBefore | ⟨response, hEvent, hPassed, rfl, rfl⟩ := bytesAt_step hBytes
  · exact hHeld i bytes hBefore
  · obtain ⟨hInputs, hPlace⟩ := hOwn response hEvent
    obtain ⟨position, proof, hProof, hSides, hAt⟩ :=
      position_of_refusal hTarget hInj hIn hInputs hTracked hPassed
    rw [← hPlace position proof hProof hSides, hAt]

theorem target_run (retriever : SnapshotChunkRetriever) (events : List Event) :
    (run H retriever events).target = retriever.target := by
  induction events generalizing retriever with
  | nil => rfl
  | cons event events ih => exact (ih _).trans (target_step event)

theorem authentic_run {events : List Event}
    (hTarget : retriever.target.Describes H snapshot chunks) (hInj : Set.InjOn H.hash S)
    (hIn : ∀ x ∈ merkleInputs H merkleParams (leafInputs chunks), x ∈ S) (hTracked : Tracked chunks retriever)
    (hOwn : ∀ response, .response response ∈ events →
      (∀ x ∈ response.inputs H, x ∈ S) ∧ response.InPlace H chunks)
    (hHeld : Authentic chunks retriever) : Authentic chunks (run H retriever events) := by
  induction events generalizing retriever with
  | nil => exact hHeld
  | cons event events ih =>
    refine ih (by rwa [target_step]) (fun i => by rw [isSome_step]; exact hTracked i)
      (fun response hMem => hOwn response (List.mem_cons_of_mem _ hMem)) ?_
    apply authentic_step hTarget hInj hIn hTracked _ hHeld
    intro response hEvent
    exact hOwn response (hEvent ▸ List.mem_cons_self)

theorem bytesAt_new (target : SnapshotTarget) (i : UInt32) : (SnapshotChunkRetriever.new target).bytesAt i = none := by
  rw [SnapshotChunkRetriever.bytesAt, SnapshotChunkRetriever.new]
  dsimp only
  split_ifs <;> rfl

theorem tracked_new (hTarget : target.Describes H snapshot chunks) : Tracked chunks (.new target) := by
  intro i hSome
  rw [← hTarget.count]
  rw [SnapshotChunkRetriever.new] at hSome
  dsimp only at hSome
  split_ifs at hSome with hLt
  · exact UInt32.lt_iff_toNat_lt.mp hLt
  · cases hSome

theorem foldlM_authentic (hChunked : chunkSnapshot H snapshot = some chunks)
    (hHeld : Authentic chunks retriever) {count : Nat} (hCount : count ≤ chunks.length) (hBound : count ≤ 2 ^ 32)
    {out : Bytes} (hOut : (List.range count).foldlM
      (fun out i => (retriever.bytesAt (.ofNat i)).map fun bytes => out ++ bytes) [] = some out) :
    out = snapshot.take (count * chunkSize) := by
  induction count generalizing out with
  | zero =>
    rw [Nat.zero_mul, List.take_zero]
    exact (Option.some.inj hOut).symm
  | succ count ih =>
    rw [List.range_succ, List.foldlM_append] at hOut
    obtain ⟨before, hBefore, hLast⟩ := Option.bind_eq_some_iff.mp hOut
    have hPrefix := ih (by omega) (by omega) hBefore
    simp only [List.foldlM_cons, List.foldlM_nil, Option.bind_eq_bind, Option.bind_eq_some_iff,
      Option.map_eq_some_iff] at hLast
    obtain ⟨out', ⟨bytes, hBytes, rfl⟩, hEq⟩ := hLast
    obtain rfl := Option.some.inj hEq
    have hAt := hHeld _ bytes hBytes
    have hIndex : (UInt32.ofNat count).toNat = count := by
      rw [UInt32.toNat_ofNat']
      exact Nat.mod_eq_of_lt (by omega)
    rw [bytesOf, hIndex, getElem?_of_chunkSnapshot hChunked (by omega)] at hAt
    rw [hPrefix, ← Option.some.inj hAt]
    exact take_chunkBytesAt snapshot count

theorem assemble_of_authentic
    (hTarget : retriever.target.Describes H snapshot chunks) (hHeld : Authentic chunks retriever) {out : Bytes}
    (hOut : retriever.assemble = some out) : out = snapshot := by
  have hBound := retriever.target.chunkCount.toNat_lt
  have hPrefix := foldlM_authentic hTarget.chunked hHeld hTarget.count.le (Nat.le_of_lt hBound) hOut
  rw [hPrefix, hTarget.count, length_of_chunkSnapshot hTarget.chunked, take_chunkCountOf]

/-- Where no response brings the proof of one chunk under the index of a different one, every index holds its own
chunk in every state of the run, and what is assembled is the snapshot. -/
theorem chunks_authentic (hTarget : target.Describes H snapshot chunks) {events : List Event}
    (hInj : Set.InjOn H.hash (hashedInputs H chunks events))
    (hPlace : ∀ response, .response response ∈ events → response.InPlace H chunks) :
    Authentic chunks (run H (.new target) events) ∧
      ∀ out, (run H (.new target) events).assemble = some out → out = snapshot := by
  have hTarget' : (run H (.new target) events).target.Describes H snapshot chunks := by
    rwa [target_run]
  have hHeld : Authentic chunks (run H (.new target) events) := by
    apply authentic_run hTarget hInj (fun x hx => .inl hx) (tracked_new hTarget)
    · intro response hMem
      exact ⟨fun x hx => .inr ⟨response, hMem, hx⟩, hPlace response hMem⟩
    · intro i bytes hBytes
      rw [bytesAt_new] at hBytes
      cases hBytes
  exact ⟨hHeld, fun out hOut => assemble_of_authentic hTarget' hHeld hOut⟩

def zeroChunk : Bytes := List.replicate chunkSize 0

def zeroHash : Bytes := List.replicate 32 0

def oneHash : Bytes := 0 :: 1 :: List.replicate 30 0

def twoChunks : List SnapshotChunk := [⟨0, zeroChunk, zeroHash⟩, ⟨1, [1], oneHash⟩]

def pairRoot : Bytes := paddingDigest.hash (interiorDomain :: (zeroHash ++ oneHash))

def pairTarget : SnapshotTarget := ⟨[5], pairRoot, 2⟩

def secondChunkAt (index : UInt32) : SnapshotChunkResponse where
  blockHash := [5]
  chunkIndex := index
  chunkCount := 2
  chunkBytes := [1]
  chunkHash := oneHash
  merkleRoot := pairRoot
  merkleProof := [⟨zeroHash, false⟩]

theorem hash_zeroChunk : paddingDigest.hash (leafDomain :: zeroChunk) = zeroHash := by
  rw [zeroHash, zeroChunk, leafDomain, ← List.replicate_succ]
  change (List.replicate (chunkSize + 1) (0 : UInt8) ++ List.replicate 32 0).take 32 = List.replicate 32 0
  rw [List.replicate_append_replicate, List.take_replicate, Nat.min_eq_left (by omega)]

theorem length_zeroChunk : zeroChunk.length = chunkSize := List.length_replicate

theorem chunkSnapshot_twoChunks : chunkSnapshot paddingDigest (zeroChunk ++ [1]) = some twoChunks := by
  have hFirst : chunkBytesAt (zeroChunk ++ [1]) 0 = zeroChunk := by
    have hStop : min (0 * chunkSize + chunkSize) (zeroChunk ++ [1]).length = zeroChunk.length := by
      rw [List.length_append, length_zeroChunk, Nat.zero_mul, Nat.zero_add, Nat.min_eq_left (Nat.le_add_right _ _)]
    rw [chunkBytesAt, hStop, List.take_left, Nat.zero_mul, List.drop_zero]
  have hSecond : chunkBytesAt (zeroChunk ++ [1]) 1 = [1] := by
    have hStop : min (1 * chunkSize + chunkSize) (zeroChunk ++ [1]).length = (zeroChunk ++ [1]).length := by
      rw [List.length_append, length_zeroChunk, List.length_singleton, chunkSize]
      omega
    rw [chunkBytesAt, hStop, List.take_length, Nat.one_mul, ← length_zeroChunk, List.drop_left]
  have hCount : chunkCountOf (zeroChunk ++ [1]) = 2 := by
    rw [chunkCountOf, List.length_append, length_zeroChunk, List.length_singleton, chunkSize]
  rw [chunkSnapshot, hCount, if_pos (by decide)]
  simp only [List.range_succ, List.range_zero, List.nil_append, List.cons_append, List.map_cons, List.map_nil, chunkAt,
    hFirst, hSecond, hashLeaf, hashLeafTagged, hash_zeroChunk]
  rfl

theorem pairTarget_describes : pairTarget.Describes paddingDigest (zeroChunk ++ [1]) twoChunks where
  chunked := chunkSnapshot_twoChunks
  root := by decide
  count := rfl

theorem injOn_pair : Set.InjOn paddingDigest.hash
    {interiorDomain :: (zeroHash ++ oneHash), leafDomain :: zeroChunk, [leafDomain, 1]} := by
  have hRoot : paddingDigest.hash (interiorDomain :: (zeroHash ++ oneHash)) ≠ zeroHash := by decide
  have hRoot' : paddingDigest.hash (interiorDomain :: (zeroHash ++ oneHash)) ≠ paddingDigest.hash [leafDomain, 1] := by
    decide
  have hLeaf : zeroHash ≠ paddingDigest.hash [leafDomain, 1] := by decide
  rintro x (rfl | rfl | rfl) y (rfl | rfl | rfl) hEq
  · rfl
  · exact absurd (hEq.trans hash_zeroChunk) hRoot
  · exact absurd hEq hRoot'
  · exact absurd (hEq.symm.trans hash_zeroChunk) hRoot
  · rfl
  · exact absurd (hash_zeroChunk.symm.trans hEq) hLeaf
  · exact absurd hEq.symm hRoot'
  · exact absurd (hash_zeroChunk.symm.trans hEq.symm) hLeaf
  · rfl

theorem inputs_secondChunkAt (i : UInt32) : (secondChunkAt i).inputs paddingDigest =
    [[leafDomain, 1], interiorDomain :: (zeroHash ++ oneHash)] := rfl

theorem injOn_twoChunks {events : List Event}
    (h : ∀ response, .response response ∈ events → ∃ i, response = secondChunkAt i) :
    Set.InjOn paddingDigest.hash (hashedInputs paddingDigest twoChunks events) := by
  apply injOn_pair.mono
  rintro x (hTree | ⟨response, hMem, hOwn⟩)
  · have hInputs : merkleInputs paddingDigest merkleParams (leafInputs twoChunks) =
        [interiorDomain :: (paddingDigest.hash (leafDomain :: zeroChunk) ++ oneHash), leafDomain :: zeroChunk,
          [leafDomain, 1]] := rfl
    rw [hInputs, hash_zeroChunk] at hTree
    simpa using hTree
  · obtain ⟨i, rfl⟩ := h response hMem
    rw [inputs_secondChunkAt] at hOwn
    obtain rfl | rfl : x = [leafDomain, 1] ∨ x = interiorDomain :: (zeroHash ++ oneHash) := by simpa using hOwn
    · exact .inr (.inr rfl)
    · exact .inl rfl

theorem secondChunk_inPlace : (secondChunkAt 1).InPlace paddingDigest twoChunks := by
  intro position proof hBuild hSides
  have hBound : position.toNat < 2 := by
    by_contra hGe
    rw [buildMerkleProof, buildProof, if_pos (.inr (Nat.not_lt.mp hGe))] at hBuild
    cases hBuild
  obtain rfl | rfl : position = 0 ∨ position = 1 := by
    rw [← UInt32.toNat_inj, ← UInt32.toNat_inj]
    change position.toNat = 0 ∨ position.toNat = 1
    omega
  · obtain rfl := Option.some.inj hBuild
    cases hSides
  · rfl

theorem secondChunk_kept_in_place :
    (run paddingDigest (.new pairTarget) [.response (secondChunkAt 1)]).bytesAt 1 = some [1] ∧
      Authentic twoChunks (run paddingDigest (.new pairTarget) [.response (secondChunkAt 1)]) := by
  refine ⟨by decide, (chunks_authentic pairTarget_describes (injOn_twoChunks ?_) ?_).1⟩
  · intro response hMem
    exact ⟨1, by simpa using hMem⟩
  · intro response hMem
    obtain rfl : response = secondChunkAt 1 := by simpa using hMem
    exact secondChunk_inPlace

/-- The second chunk is accepted under both indices, and the two copies of it are what is assembled. -/
theorem secondChunk_kept_twice :
    pairTarget.Describes paddingDigest (zeroChunk ++ [1]) twoChunks ∧
    Set.InjOn paddingDigest.hash
      (hashedInputs paddingDigest twoChunks [.response (secondChunkAt 0), .response (secondChunkAt 1)]) ∧
    (run paddingDigest (.new pairTarget) [.response (secondChunkAt 0), .response (secondChunkAt 1)]).bytesAt 0 =
      some [1] ∧
    bytesOf twoChunks 0 ≠ some [1] ∧
    (run paddingDigest (.new pairTarget) [.response (secondChunkAt 0), .response (secondChunkAt 1)]).assemble =
      some [1, 1] ∧
    [1, 1] ≠ zeroChunk ++ [1] := by
  refine ⟨pairTarget_describes, injOn_twoChunks ?_, by decide, ?_, by decide, ?_⟩
  · intro response hMem
    obtain h | h : response = secondChunkAt 0 ∨ response = secondChunkAt 1 := by simpa using hMem
    · exact ⟨0, h⟩
    · exact ⟨1, h⟩
  · intro hEq
    have hLength := congrArg List.length (Option.some.inj hEq)
    rw [length_zeroChunk] at hLength
    cases hLength
  · intro hEq
    have hLength := congrArg List.length hEq
    rw [List.length_append, length_zeroChunk] at hLength
    cases hLength

end F1r3Node.SnapshotSync
