import F1r3Node.Crypto.NameFreshness

/-! # What a merge hashes

The source writes the hashes into one block that it keeps from group to group, so that a short group is padded with
what an earlier group left there.
-/

/-!
# The compression of Blake2b

The twelve rounds of the compression on words below `2 ^ 64`. A word of a message that is too short is zero.
-/

namespace F1r3Node.Crypto

open Lib Shared

def wrappingAdd (x y : Nat) : Nat := (x + y) % 2 ^ 64

def rotr64 (x rot : Nat) : Nat := x >>> rot ||| x <<< (64 - rot) % 2 ^ 64

def sigma : List (List Nat) :=
  [[0, 1, 2, 3, 4, 5, 6, 7, 8, 9, 10, 11, 12, 13, 14, 15],
    [14, 10, 4, 8, 9, 15, 13, 6, 1, 12, 0, 2, 11, 7, 5, 3],
    [11, 8, 12, 0, 5, 2, 15, 13, 10, 14, 3, 6, 7, 1, 9, 4],
    [7, 9, 3, 1, 13, 12, 11, 14, 2, 6, 5, 10, 4, 0, 15, 8],
    [9, 0, 5, 7, 2, 4, 10, 15, 14, 1, 11, 12, 6, 8, 3, 13],
    [2, 12, 6, 10, 0, 11, 8, 3, 4, 13, 7, 5, 15, 14, 1, 9],
    [12, 5, 1, 15, 14, 13, 4, 10, 0, 7, 6, 3, 9, 2, 8, 11],
    [13, 11, 7, 14, 12, 1, 3, 9, 5, 0, 15, 4, 8, 6, 2, 10],
    [6, 15, 14, 9, 11, 3, 0, 8, 12, 2, 13, 7, 1, 4, 10, 5],
    [10, 2, 8, 4, 7, 6, 1, 5, 15, 11, 9, 14, 3, 12, 13, 0],
    [0, 1, 2, 3, 4, 5, 6, 7, 8, 9, 10, 11, 12, 13, 14, 15],
    [14, 10, 4, 8, 9, 15, 13, 6, 1, 12, 0, 2, 11, 7, 5, 3]]

def wordAt : List Nat → Nat → Nat
  | [], _ => 0
  | word :: _, 0 => word
  | _ :: words, i + 1 => wordAt words i

/-- The mixing function `g` on the words at four different positions of the internal state. -/
def mix (state : List Nat) (m1 m2 posA posB posC posD : Nat) : List Nat :=
  let a := wrappingAdd (wrappingAdd (wordAt state posA) (wordAt state posB)) m1
  let d := rotr64 (wordAt state posD ^^^ a) 32
  let c := wrappingAdd (wordAt state posC) d
  let b := rotr64 (wordAt state posB ^^^ c) 24
  let a := wrappingAdd (wrappingAdd a b) m2
  let d := rotr64 (d ^^^ a) 16
  let c := wrappingAdd c d
  let b := rotr64 (b ^^^ c) 63
  (((state.set posA a).set posB b).set posC c).set posD d

def compressionRound (m : List Nat) (state order : List Nat) : List Nat :=
  let message i := wordAt m (wordAt order i)
  let state := mix state (message 0) (message 1) 0 4 8 12
  let state := mix state (message 2) (message 3) 1 5 9 13
  let state := mix state (message 4) (message 5) 2 6 10 14
  let state := mix state (message 6) (message 7) 3 7 11 15
  let state := mix state (message 8) (message 9) 0 5 10 15
  let state := mix state (message 10) (message 11) 1 6 11 12
  let state := mix state (message 12) (message 13) 2 7 8 13
  mix state (message 14) (message 15) 3 4 9 14

def messageWord (msg : Bytes) (i : Nat) : Nat :=
  if i * 8 + 8 ≤ msg.length then ofLittleEndian ((msg.drop (i * 8)).take 8) else 0

def finalizationFlag (finalize : Bool) : Nat := if finalize then 2 ^ 64 - 1 else 0

def ivWord (i : Nat) : Nat := wordAt (blake2bIV.map UInt64.toNat) i

/-- The chain value, the first half of the initial vector, and its second half with the counters and the flags. -/
def internalState (input : CompressionInput UInt8) : List Nat :=
  (List.range 8).map (messageWord input.chainValue) ++
    [ivWord 0, ivWord 1, ivWord 2, ivWord 3,
      (input.t0 % 2 ^ 64).toNat ^^^ ivWord 4,
      (input.t1 % 2 ^ 64).toNat ^^^ ivWord 5,
      finalizationFlag input.finalize ^^^ ivWord 6,
      finalizationFlag input.rootFinalize ^^^ ivWord 7]

def compressWords (input : CompressionInput UInt8) : List Nat :=
  let state := sigma.foldl (compressionRound ((List.range 16).map (messageWord input.block))) (internalState input)
  (List.range 8).map fun i => messageWord input.chainValue i ^^^ wordAt state i ^^^ wordAt state (i + 8)

def blake2b : Compression UInt8 where
  ofByte := ⟨id, fun _ _ h => h⟩
  compress input := (compressWords input).flatMap (littleEndian 8)
  length_compress input := by
    simp only [compressWords, List.length_flatMap, length_littleEndian, List.map_map, Function.comp_def,
      List.map_const', List.length_range]
    rfl

/-- The generator of the bytes of "testing" has the chain value that the tests of the source expect. -/
example : (Blake2b512Random.create blake2b [116, 101, 115, 116, 105, 110, 103]).map
    (fun g => (List.range 8).map (messageWord g.digest.chainValue)) =
      some [10085791866188779749, 7767624583803025097, 12850367785202750222, 16258617699951735807,
        14229203112594674564, 6292414413621190116, 1078587327606774112, 3428071545592311926] := by
  decide +kernel

end F1r3Node.Crypto

namespace F1r3Node.Crypto

open Lib

section

variable {β : Type} (c : Compression β)

namespace Blake2b512Random

def childHash (child : Blake2b512Random β) : Option (List β) := child.digest.finalizeInternal c (child.message c)

def paddedBlock (group : List (Blake2b512Random β)) : Option (List β) := do
  let hashes ← group.mapM (childHash c)
  return hashes.flatten ++ List.replicate (128 - 32 * group.length) (c.ofByte 0)

def referenceAbsorb (digest : Blake2b512Block β) : List (List (Blake2b512Random β)) → Option (Blake2b512Block β)
  | [] => some digest
  | group :: groups => do
    let block ← paddedBlock c group
    let digest ← digest.update c block
    referenceAbsorb digest groups

def referenceSquash (slice : List (Blake2b512Random β)) : Option (Blake2b512Random β) := do
  let digest ← referenceAbsorb c (Blake2b512Block.newFromFanout c (UInt8.ofNat slice.length)) (chunks 3 slice)
  return new c digest zeroBlock

def referenceLevels : Nat → List (Blake2b512Random β) → Option (List (Blake2b512Random β))
  | 0, children => some children
  | fuel + 1, children =>
    if 1 < children.length then do
      let squashed ← (chunks 254 children).mapM (referenceSquash c)
      referenceLevels fuel squashed
    else some children

def referenceMerge (children : List (Blake2b512Random β)) : Option (Blake2b512Random β) := do
  guard (2 ≤ children.length)
  let merged ← referenceLevels c children.length children
  merged.head?

end Blake2b512Random

open Blake2b512Random

variable {c}

variable {child : Blake2b512Random β} {value : List β}

theorem length_childHash (h : childHash c child = some value) :
    value.length = 32 :=
  length_finalizeInternal h

variable {group : List (Blake2b512Random β)}

theorem length_hashes {hashes : List (List β)}
    (h : group.mapM (childHash c) = some hashes) : hashes.flatten.length = 32 * group.length := by
  induction mapM_eq_some_iff.mp h with
  | nil => rfl
  | cons hValue hRest ih =>
    rw [List.flatten_cons, List.length_append, length_childHash hValue, ih (mapM_eq_some_iff.mpr hRest),
      List.length_cons]
    omega

variable {quad : List (Blake2b512Random β)} {chainBlock : List β}

theorem fillQuad_eq {i : Nat} (h : (i + quad.length) * 32 ≤ chainBlock.length) :
    fillQuad c chainBlock i quad =
      (quad.mapM (childHash c)).map fun hashes => writeAt (i * 32) hashes.flatten chainBlock := by
  induction quad generalizing i chainBlock with
  | nil => rw [fillQuad, List.mapM_nil, Option.pure_def, Option.map_some, List.flatten_nil, writeAt_nil]
  | cons child quad ih =>
    rw [List.length_cons] at h
    rw [fillQuad, List.mapM_cons]
    change (childHash c child).bind _ = ((childHash c child).bind _).map _
    cases hValue : childHash c child with
    | none => rfl
    | some value =>
      have hLength := length_childHash hValue
      have hWritten : (writeAt (i * 32) value chainBlock).length = chainBlock.length :=
        length_writeAt (by omega)
      rw [Option.bind_some, Option.bind_some, ih (by rw [hWritten]; omega)]
      cases quad.mapM (childHash c) with
      | none => rfl
      | some values =>
        have hOffset : (i + 1) * 32 = i * 32 + value.length := by omega
        change some (writeAt ((i + 1) * 32) values.flatten (writeAt (i * 32) value chainBlock)) = some _
        rw [hOffset, writeAt_append _ _ (by omega)]
        rfl

theorem fillQuad_of_whole (hWhole : quad.length = 4)
    (hLength : chainBlock.length = 128) : fillQuad c chainBlock 0 quad = paddedBlock c quad := by
  rw [fillQuad_eq (by omega), paddedBlock, Nat.zero_mul]
  cases hHashes : quad.mapM (childHash c) with
  | none => rfl
  | some hashes =>
    have hFlat := length_hashes hHashes
    rw [Option.map_some, writeAt, hFlat, hWhole, List.drop_of_length_le (by omega)]
    rfl

theorem fillQuad_of_zero (hShort : quad.length ≤ 4) :
    fillQuad c (zeroBlock.map c.ofByte) 0 quad = paddedBlock c quad := by
  have hZero : zeroBlock.map c.ofByte = List.replicate 128 (c.ofByte 0) := List.map_replicate ..
  rw [hZero, fillQuad_eq (by rw [List.length_replicate]; omega), paddedBlock, Nat.zero_mul]
  cases hHashes : quad.mapM (childHash c) with
  | none => rfl
  | some hashes =>
    have hFlat := length_hashes hHashes
    rw [Option.map_some, writeAt, List.drop_replicate, Nat.zero_add, hFlat]
    rfl

variable {block : List β}

theorem length_paddedBlock (hShort : group.length ≤ 4)
    (h : paddedBlock c group = some block) : block.length = 128 := by
  obtain ⟨hashes, hHashes, hBlock⟩ := Option.bind_eq_some_iff.mp h
  obtain rfl := Option.some.inj hBlock
  rw [List.length_append, List.length_replicate, length_hashes hHashes]
  omega

variable {quads : List (List (Blake2b512Random β))} {d : Blake2b512Block β}

theorem absorbQuads_append {quads' : List (List (Blake2b512Random β))} :
    absorbQuads c d chainBlock (quads ++ quads') =
      (absorbQuads c d chainBlock quads).bind fun out => absorbQuads c out.1 out.2 quads' := by
  induction quads generalizing d chainBlock with
  | nil => rfl
  | cons quad quads ih =>
    rw [List.cons_append, absorbQuads, absorbQuads]
    cases fillQuad c chainBlock 0 quad with
    | none => rfl
    | some filled =>
      change (d.update c filled).bind _ = ((d.update c filled).bind _).bind _
      cases d.update c filled with
      | none => rfl
      | some d => exact ih

variable {groups : List (List (Blake2b512Random β))}

theorem referenceAbsorb_append {groups' : List (List (Blake2b512Random β))} :
    referenceAbsorb c d (groups ++ groups') = (referenceAbsorb c d groups).bind (referenceAbsorb c · groups') := by
  induction groups generalizing d with
  | nil => rfl
  | cons group groups ih =>
    rw [List.cons_append, referenceAbsorb, referenceAbsorb]
    cases paddedBlock c group with
    | none => rfl
    | some block =>
      change (d.update c block).bind _ = ((d.update c block).bind _).bind _
      cases d.update c block with
      | none => rfl
      | some d => exact ih

theorem absorbQuads_of_whole (hWhole : ∀ quad ∈ quads, quad.length = 4) (hLength : chainBlock.length = 128) :
    (absorbQuads c d chainBlock quads).map Prod.fst = referenceAbsorb c d quads := by
  induction quads generalizing d chainBlock with
  | nil => rfl
  | cons quad quads ih =>
    obtain ⟨hFour, hWhole⟩ := List.forall_mem_cons.mp hWhole
    rw [absorbQuads, referenceAbsorb, fillQuad_of_whole hFour hLength]
    cases hBlock : paddedBlock c quad with
    | none => rfl
    | some block =>
      change ((d.update c block).bind _).map _ = (d.update c block).bind _
      cases d.update c block with
      | none => rfl
      | some d => exact ih hWhole (length_paddedBlock hFour.le hBlock)

variable {slice : List (Blake2b512Random β)}

theorem squash_eq_referenceSquash (hne : slice ≠ []) (hPadded : slice.length ≤ 4 ∨ 4 ∣ slice.length) :
    (squash c (zeroBlock.map c.ofByte) slice).map Prod.fst = referenceSquash c slice := by
  have hAbsorb (d : Blake2b512Block β) : (absorbQuads c d (zeroBlock.map c.ofByte) (chunks 3 slice)).map Prod.fst =
      referenceAbsorb c d (chunks 3 slice) := by
    obtain ⟨whole, last, hWhole, hCount, hLast, hChunks⟩ := chunks_eq_append 3 slice
    rcases hPadded with hShort | hFour
    · rw [chunks_of_ne_nil 3 hne, List.take_of_length_le hShort, List.drop_of_length_le hShort]
      change (absorbQuads c d _ [slice]).map Prod.fst = referenceAbsorb c d [slice]
      rw [absorbQuads, referenceAbsorb, fillQuad_of_zero hShort]
      cases paddedBlock c slice with
      | none => rfl
      | some block =>
        change ((d.update c block).bind _).map _ = (d.update c block).bind _
        cases d.update c block with
        | none => rfl
        | some d => rfl
    · rw [Nat.mod_eq_zero_of_dvd hFour, List.length_eq_zero_iff] at hLast
      rw [hChunks, if_pos hLast, List.append_nil]
      exact absorbQuads_of_whole hWhole (by rw [List.length_map]; rfl)
  rw [squash, referenceSquash, ← hAbsorb]
  cases absorbQuads c _ _ (chunks 3 slice) with
  | none => rfl
  | some out => rfl

theorem isSome_compress {finalize rootFinalize : Bool} :
    (d.compress c block finalize rootFinalize).isSome ↔ d.HasRoom := by
  rw [Blake2b512Block.compress]
  split
  · next hRoom => exact iff_of_true rfl hRoom
  · next hRoom => exact iff_of_false Bool.false_ne_true hRoom

variable {fanout : UInt8}

theorem hasRoom_of_digestOf {blocks : List (List β)}
    (h : digestOf c fanout blocks = some d) (hFew : blocks.length ≤ 64) : d.HasRoom := by
  obtain ⟨hT0, hT1⟩ := counters_of_digestOf h
  rw [Blake2b512Block.HasRoom, Blake2b512Block.nextT1, hT0, hT1, blockLengthBytes, i64Max]
  rw [if_neg (by omega)]
  omega

theorem isSome_fillQuad {i : Nat} :
    (fillQuad c chainBlock i quad).isSome ↔ ∀ child ∈ quad, child.digest.HasRoom := by
  induction quad generalizing i chainBlock with
  | nil => exact iff_of_true rfl fun child h => absurd h List.not_mem_nil
  | cons child quad ih =>
    have hHash : (child.digest.finalizeInternal c (child.message c)).isSome ↔ child.digest.HasRoom := by
      rw [Blake2b512Block.finalizeInternal, Option.isSome_map]
      exact isSome_compress
    rw [fillQuad, List.forall_mem_cons, ← hHash]
    cases child.digest.finalizeInternal c (child.message c) with
    | none => exact iff_of_false Bool.false_ne_true fun h => absurd h.1 Bool.false_ne_true
    | some value => exact ih.trans ⟨fun h => ⟨rfl, h⟩, And.right⟩

theorem isSome_absorbQuads {before : List (List β)} (hBefore : digestOf c fanout before = some d)
    (hFew : before.length + quads.length ≤ 64) :
    (absorbQuads c d chainBlock quads).isSome ↔ ∀ quad ∈ quads, ∀ child ∈ quad, child.digest.HasRoom := by
  induction quads generalizing before d chainBlock with
  | nil => exact iff_of_true rfl fun quad h => absurd h List.not_mem_nil
  | cons quad quads ih =>
    rw [List.length_cons] at hFew
    have hQuad := @isSome_fillQuad β c quad chainBlock 0
    rw [absorbQuads, List.forall_mem_cons, ← hQuad]
    cases fillQuad c chainBlock 0 quad with
    | none => exact iff_of_false Bool.false_ne_true fun h => absurd h.1 Bool.false_ne_true
    | some filled =>
      obtain ⟨next, hUpdate⟩ := Option.isSome_iff_exists.mp
        (isSome_compress.mpr (hasRoom_of_digestOf hBefore (by omega)) :
          (d.compress c filled false false).isSome)
      have hNext : digestOf c fanout (filled :: before) = some next :=
        Option.bind_eq_some_iff.mpr ⟨d, hBefore, hUpdate⟩
      change ((d.compress c filled false false).bind _).isSome ↔ _
      rw [hUpdate, Option.bind_some, ih hNext (by rw [List.length_cons]; omega)]
      exact ⟨fun h => ⟨rfl, h⟩, And.right⟩

theorem isSome_squash (hLength : slice.length ≤ 255) :
    (squash c chainBlock slice).isSome ↔ ∀ child ∈ slice, child.digest.HasRoom := by
  have hFew : ([] : List (List β)).length + (chunks 3 slice).length ≤ 64 := by
    rw [length_chunks, List.length_nil]
    omega
  have hFirst : digestOf c (UInt8.ofNat slice.length) [] = some (.newFromFanout c (UInt8.ofNat slice.length)) := rfl
  have hAll : (∀ quad ∈ chunks 3 slice, ∀ child ∈ quad, child.digest.HasRoom) ↔
      ∀ child ∈ slice, child.digest.HasRoom := by
    conv_rhs => rw [← flatten_chunks 3 slice]
    exact List.forall_mem_flatten.symm
  rw [squash, ← hAll, ← isSome_absorbQuads hFirst hFew]
  cases absorbQuads c _ chainBlock (chunks 3 slice) with
  | none => exact Iff.rfl
  | some out => exact Iff.rfl

variable {chainBlock' : List β} {g : Blake2b512Random β}

theorem hasRoom_of_squash (hne : slice ≠ []) (hLength : slice.length ≤ 255)
    (h : squash c chainBlock slice = some (g, chainBlock')) : g.digest.HasRoom := by
  obtain ⟨child, slice, rfl⟩ := List.exists_cons_of_ne_nil hne
  obtain ⟨-, origin, first, hAt, hBlocks, -⟩ := at_squash h
  rw [List.length_cons] at hLength
  have hDigest : digestOf c (UInt8.ofNat (slice.length + 1)) (origin ++ [first]) = some g.digest := hAt.digest
  exact hasRoom_of_digestOf hDigest (by omega)

variable {slices : List (List (Blake2b512Random β))}

theorem isSome_squashAll (hSlices : ∀ slice ∈ slices, slice ≠ [] ∧ slice.length ≤ 255) :
    (squashAll c chainBlock slices).isSome ↔ ∀ slice ∈ slices, ∀ child ∈ slice, child.digest.HasRoom := by
  induction slices generalizing chainBlock with
  | nil => exact iff_of_true rfl fun slice h => absurd h List.not_mem_nil
  | cons slice slices ih =>
    obtain ⟨hSlice, hSlices⟩ := List.forall_mem_cons.mp hSlices
    have hFirst := @isSome_squash β c chainBlock slice hSlice.2
    rw [squashAll, List.forall_mem_cons, ← hFirst]
    cases squash c chainBlock slice with
    | none => exact iff_of_false Bool.false_ne_true fun h => absurd h.1 Bool.false_ne_true
    | some out =>
      have hRest := @ih out.2 hSlices
      change ((squashAll c out.2 slices).bind _).isSome ↔ _
      rw [← hRest]
      cases squashAll c out.2 slices with
      | none => exact iff_of_false Bool.false_ne_true fun h => absurd h.2 Bool.false_ne_true
      | some rest => exact iff_of_true rfl ⟨rfl, rfl⟩

variable {squashed : List (Blake2b512Random β)}

theorem hasRoom_of_squashAll (hSlices : ∀ slice ∈ slices, slice ≠ [] ∧ slice.length ≤ 255)
    (h : squashAll c chainBlock slices = some (squashed, chainBlock')) : ∀ g ∈ squashed, g.digest.HasRoom := by
  induction slices generalizing chainBlock squashed with
  | nil =>
    obtain ⟨rfl, rfl⟩ := Prod.mk.inj (Option.some.inj h)
    exact fun g hg => absurd hg List.not_mem_nil
  | cons slice slices ih =>
    obtain ⟨hSlice, hSlices⟩ := List.forall_mem_cons.mp hSlices
    obtain ⟨⟨merged, chainBlock₁⟩, hFirst, hRest⟩ := Option.bind_eq_some_iff.mp h
    obtain ⟨⟨others, chainBlock₂⟩, hOthers, hRest⟩ := Option.bind_eq_some_iff.mp hRest
    obtain ⟨rfl, rfl⟩ := Prod.mk.inj (Option.some.inj hRest)
    exact List.forall_mem_cons.mpr ⟨hasRoom_of_squash hSlice.1 hSlice.2 hFirst, ih hSlices hOthers⟩

variable {children : List (Blake2b512Random β)}

theorem isSome_mergeRounds_of_hasRoom {fuel : Nat}
    (hRoom : ∀ child ∈ children, child.digest.HasRoom) : (mergeRounds c fuel chainBlock children).isSome := by
  induction fuel generalizing children chainBlock with
  | zero => rfl
  | succ fuel ih =>
    rw [mergeRounds]
    split
    · have hSlices := fun slice (hSlice : slice ∈ chunks 254 children) => of_mem_chunks hSlice
      have hAll : ∀ slice ∈ chunks 254 children, ∀ child ∈ slice, child.digest.HasRoom := by
        rw [← List.forall_mem_flatten, flatten_chunks]
        exact hRoom
      have hSome : (squashAll c chainBlock (chunks 254 children)).isSome := (isSome_squashAll hSlices).mpr hAll
      obtain ⟨⟨squashed, chainBlock'⟩, hSquash⟩ := Option.isSome_iff_exists.mp hSome
      rw [hSquash]
      exact ih (hasRoom_of_squashAll hSlices hSquash)
    · rfl

theorem isSome_merge :
    (merge c children).isSome ↔ 2 ≤ children.length ∧ ∀ child ∈ children, child.digest.HasRoom := by
  rw [merge]
  by_cases hTwo : 2 ≤ children.length
  · rw [guard, if_pos hTwo]
    change ((mergeRounds c children.length (zeroBlock.map c.ofByte) children).bind List.head?).isSome ↔ _
    have hSlices := fun slice (hSlice : slice ∈ chunks 254 children) => of_mem_chunks hSlice
    constructor
    · intro h
      refine ⟨hTwo, ?_⟩
      obtain ⟨g, hg⟩ := Option.isSome_iff_exists.mp h
      obtain ⟨merged, hRounds, -⟩ := Option.bind_eq_some_iff.mp hg
      obtain ⟨fuel, hFuel⟩ : ∃ fuel, children.length = fuel + 1 := ⟨children.length - 1, by omega⟩
      rw [hFuel, mergeRounds, if_pos (by omega)] at hRounds
      obtain ⟨out, hSquash, -⟩ := Option.bind_eq_some_iff.mp hRounds
      have hAll := (isSome_squashAll hSlices).mp (Option.isSome_iff_exists.mpr ⟨out, hSquash⟩)
      rwa [← List.forall_mem_flatten, flatten_chunks] at hAll
    · rintro ⟨-, hRoom⟩
      obtain ⟨merged, hRounds⟩ := Option.isSome_iff_exists.mp
        (isSome_mergeRounds_of_hasRoom hRoom : (mergeRounds c children.length (zeroBlock.map c.ofByte) children).isSome)
      have hOne := length_mergeRounds (List.length_pos_iff.mp (by omega)) (Nat.le_succ _) hRounds
      rw [hRounds, Option.bind_some]
      obtain ⟨g, rfl⟩ := List.length_eq_one_iff.mp hOne
      rfl
  · rw [guard, if_neg hTwo]
    exact iff_of_false Bool.false_ne_true fun h => hTwo h.1

/-- The numbers of generators for which no group is padded with stale bytes: one group, or one slice of whole groups. -/
def ZeroPadded (count : Nat) : Prop := count ≤ 4 ∨ count ≤ 255 ∧ 4 ∣ count

instance (count : Nat) : Decidable (ZeroPadded count) := inferInstanceAs (Decidable (_ ∨ _))

theorem merge_eq_referenceMerge (hTwo : 2 ≤ children.length)
    (hPadded : ZeroPadded children.length) : merge c children = referenceMerge c children := by
  have hne : children ≠ [] := List.length_pos_iff.mp (by omega)
  have hSlice : children.length ≤ 255 := by
    rcases hPadded with h | h
    · omega
    · exact h.1
  have hOne : chunks 254 children = [children] := by
    rw [chunks_of_ne_nil 254 hne, List.take_of_length_le hSlice, List.drop_of_length_le hSlice]
    rfl
  have hSquash := squash_eq_referenceSquash (c := c) hne (hPadded.imp_right And.right)
  obtain ⟨fuel, hFuel⟩ : ∃ fuel, children.length = fuel + 2 := ⟨children.length - 2, by omega⟩
  -- The second round finds a single generator.
  have hRounds : mergeRounds c children.length (zeroBlock.map c.ofByte) children =
      referenceLevels c children.length children := by
    rw [hFuel, mergeRounds, referenceLevels, if_pos (by omega), if_pos (by omega), hOne, List.mapM_cons,
      List.mapM_nil, ← hSquash, squashAll]
    cases squash c (zeroBlock.map c.ofByte) children with
    | none => rfl
    | some out => rfl
  rw [merge, referenceMerge, hRounds]

/-- Either half of an output tells the input, and no inner hash is the block of zeros. -/
structure Compression.Ideal (c : Compression β) : Prop where
  halvesInjective : c.HalvesInjective
  half_ne_zero : ∀ input, half false (c.compress input) ≠ List.replicate 32 (c.ofByte 0)

theorem childHash_eq_half (h : childHash c child = some value) :
    value = half false (c.compress ⟨child.digest.chainValue, child.message c, child.digest.t0 + 128,
      child.digest.nextT1, true, false⟩) := by
  obtain ⟨out, hOut, rfl⟩ := Option.map_eq_some_iff.mp h
  obtain ⟨hOut, hT0, hT1⟩ := compress_eq_some hOut
  rw [hOut, hT0, hT1]
  rfl

theorem drop_of_whole (hWhole : quad.length = 4)
    (h : paddedBlock c quad = some block) : ∃ child ∈ quad, childHash c child = some (block.drop 96) := by
  obtain ⟨hashes, hHashes, hBlock⟩ := Option.bind_eq_some_iff.mp h
  obtain rfl := Option.some.inj hBlock
  obtain ⟨quad, child, rfl⟩ : ∃ front last, quad = front ++ [last] :=
    ⟨quad.dropLast, quad.getLast (List.length_pos_iff.mp (by omega)), (List.dropLast_append_getLast _).symm⟩
  rw [List.length_append, List.length_singleton] at hWhole
  rw [List.mapM_append] at hHashes
  obtain ⟨front, hFront, hRest⟩ := Option.bind_eq_some_iff.mp hHashes
  obtain ⟨last, hLast, hRest⟩ := Option.bind_eq_some_iff.mp hRest
  obtain rfl := Option.some.inj hRest
  obtain ⟨value, hValue, rfl⟩ : ∃ value, childHash c child = some value ∧ last = [value] := by
    rw [mapM_eq_some_iff, List.forall₂_cons_left_iff] at hLast
    obtain ⟨value, rest, hValue, hNil, rfl⟩ := hLast
    exact ⟨value, hValue, by rw [List.forall₂_nil_left_iff.mp hNil]⟩
  have hFlat : front.flatten.length = 96 := by
    rw [length_hashes hFront]
    omega
  refine ⟨child, List.mem_append_right _ List.mem_cons_self, ?_⟩
  rw [hValue, List.flatten_append, List.append_assoc, ← hFlat, List.drop_left, List.length_append,
    List.length_singleton, hWhole]
  simp

theorem absorbQuads_stale (hne : quads ≠ []) (hWhole : ∀ quad ∈ quads, quad.length = 4) {d' : Blake2b512Block β}
    (hLength : chainBlock.length = 128) (h : absorbQuads c d chainBlock quads = some (d', chainBlock')) :
    chainBlock'.length = 128 ∧ ∃ child, childHash c child = some (chainBlock'.drop 96) := by
  induction quads generalizing d chainBlock with
  | nil => exact absurd rfl hne
  | cons quad quads ih =>
    obtain ⟨hFour, hWhole⟩ := List.forall_mem_cons.mp hWhole
    obtain ⟨filled, hFill, hRest⟩ := Option.bind_eq_some_iff.mp h
    obtain ⟨d₁, -, hRest⟩ := Option.bind_eq_some_iff.mp hRest
    rw [fillQuad_of_whole hFour hLength] at hFill
    have hFilled := length_paddedBlock hFour.le hFill
    by_cases hLast : quads = []
    · subst hLast
      obtain ⟨rfl, rfl⟩ := Prod.mk.inj (Option.some.inj hRest)
      obtain ⟨child, -, hChild⟩ := drop_of_whole hFour hFill
      exact ⟨hFilled, child, hChild⟩
    · exact ih hLast hWhole hFilled hRest

theorem referenceAbsorb_spec {before : List (List β)}
    {d' : Blake2b512Block β} (hBefore : digestOf c fanout before = some d)
    (h : referenceAbsorb c d groups = some d') : ∃ blocks, digestOf c fanout (blocks ++ before) = some d' := by
  induction groups generalizing before d with
  | nil =>
    obtain rfl := Option.some.inj h
    exact ⟨[], hBefore⟩
  | cons group groups ih =>
    obtain ⟨block, -, hRest⟩ := Option.bind_eq_some_iff.mp h
    obtain ⟨d₁, hUpdate, hRest⟩ := Option.bind_eq_some_iff.mp hRest
    have hNext : digestOf c fanout (block :: before) = some d₁ :=
      Option.bind_eq_some_iff.mpr ⟨d, hBefore, hUpdate⟩
    obtain ⟨blocks, hDigest⟩ := ih hNext hRest
    refine ⟨blocks ++ [block], ?_⟩
    rw [List.append_assoc]
    exact hDigest

theorem drop_of_short (hShort : quad.length ≤ 3)
    (hLength : chainBlock.length = 128) (h : fillQuad c chainBlock 0 quad = some block) :
    block.drop 96 = chainBlock.drop 96 := by
  rw [fillQuad_eq (by omega)] at h
  obtain ⟨hashes, hHashes, rfl⟩ := Option.map_eq_some_iff.mp h
  have hFlat := length_hashes hHashes
  rw [Nat.zero_mul, writeAt, List.take_zero, List.nil_append, Nat.zero_add, List.drop_append,
    List.drop_of_length_le (by omega), List.nil_append, List.drop_drop]
  congr 1
  omega

theorem drop_paddedBlock (hShort : group.length ≤ 3)
    (h : paddedBlock c group = some block) : block.drop 96 = List.replicate 32 (c.ofByte 0) := by
  obtain ⟨hashes, hHashes, hBlock⟩ := Option.bind_eq_some_iff.mp h
  obtain rfl := Option.some.inj hBlock
  have hFlat := length_hashes hHashes
  rw [List.drop_append, List.drop_of_length_le (by omega), List.nil_append, List.drop_replicate]
  congr 1
  omega

variable {last : List (Blake2b512Random β)} {whole : List (List (Blake2b512Random β))}

theorem lastBlock_of_squash
    (hChunks : chunks 3 slice = whole ++ [last]) (h : squash c chainBlock slice = some (g, chainBlock')) :
    ∃ d stale block blocks, absorbQuads c (.newFromFanout c (UInt8.ofNat slice.length)) chainBlock whole =
        some (d, stale) ∧ fillQuad c stale 0 last = some block ∧
      digestOf c (UInt8.ofNat slice.length) (block :: blocks) = some g.digest := by
  obtain ⟨⟨digest, chainBlock₁⟩, hAbsorb, hNew⟩ := Option.bind_eq_some_iff.mp h
  obtain ⟨rfl, rfl⟩ := Prod.mk.inj (Option.some.inj hNew)
  rw [hChunks, absorbQuads_append] at hAbsorb
  obtain ⟨⟨d, stale⟩, hFirst, hRest⟩ := Option.bind_eq_some_iff.mp hAbsorb
  obtain ⟨block, hFill, hRest⟩ := Option.bind_eq_some_iff.mp hRest
  obtain ⟨out, hUpdate, hDone⟩ := Option.bind_eq_some_iff.mp hRest
  obtain ⟨rfl, rfl⟩ := Prod.mk.inj (Option.some.inj hDone)
  have hStart : digestOf c (UInt8.ofNat slice.length) [] = some (.newFromFanout c (UInt8.ofNat slice.length)) := rfl
  obtain ⟨blocks, -, hDigest⟩ := absorbQuads_spec hStart hFirst
  exact ⟨d, stale, block, blocks ++ [], hFirst, hFill, Option.bind_eq_some_iff.mpr ⟨d, hDigest, hUpdate⟩⟩

theorem lastBlock_of_referenceSquash (hChunks : chunks 3 slice = whole ++ [last])
    (h : referenceSquash c slice = some g) : ∃ block blocks, paddedBlock c last = some block ∧
      digestOf c (UInt8.ofNat slice.length) (block :: blocks) = some g.digest := by
  obtain ⟨digest, hAbsorb, hNew⟩ := Option.bind_eq_some_iff.mp h
  obtain rfl := Option.some.inj hNew
  rw [hChunks, referenceAbsorb_append] at hAbsorb
  obtain ⟨d, hFirst, hRest⟩ := Option.bind_eq_some_iff.mp hAbsorb
  obtain ⟨block, hPadded, hRest⟩ := Option.bind_eq_some_iff.mp hRest
  obtain ⟨out, hUpdate, hDone⟩ := Option.bind_eq_some_iff.mp hRest
  obtain rfl := Option.some.inj hDone
  have hStart : digestOf c (UInt8.ofNat slice.length) [] = some (.newFromFanout c (UInt8.ofNat slice.length)) := rfl
  obtain ⟨blocks, hDigest⟩ := referenceAbsorb_spec hStart hFirst
  exact ⟨block, blocks ++ [], hPadded, Option.bind_eq_some_iff.mpr ⟨d, hDigest, hUpdate⟩⟩

variable {g' : Blake2b512Random β}

theorem squash_ne_of_stale (hc : c.Ideal) (hMany : 4 < slice.length)
    (hShort : ¬ 4 ∣ slice.length) (hLength : chainBlock.length = 128)
    (h : squash c chainBlock slice = some (g, chainBlock'))
    (h' : referenceSquash c slice = some g') : g.digest ≠ g'.digest := by
  obtain ⟨whole, last, hWhole, hCount, hLast, hChunks⟩ := chunks_eq_append 3 slice
  have hNotNil : last ≠ [] := List.length_pos_iff.mp (by omega)
  have hWholeNotNil : whole ≠ [] := List.length_pos_iff.mp (by omega)
  rw [if_neg hNotNil] at hChunks
  obtain ⟨d, stale, block, blocks, hFirst, hFill, hDigest⟩ := lastBlock_of_squash hChunks h
  obtain ⟨block', blocks', hPadded, hDigest'⟩ := lastBlock_of_referenceSquash hChunks h'
  obtain ⟨hStaleLength, child, hChild⟩ := absorbQuads_stale hWholeNotNil hWhole hLength hFirst
  intro hSame
  obtain ⟨-, hBlocks⟩ := digestOf_injective hc.halvesInjective hDigest (hSame ▸ hDigest')
  obtain ⟨rfl, -⟩ := List.cons.inj hBlocks
  rw [← drop_of_short (by omega) hStaleLength hFill, drop_paddedBlock (by omega) hPadded] at hChild
  exact hc.half_ne_zero _ (childHash_eq_half hChild).symm

variable (c) in
def Rootless (g : Blake2b512Random β) : Prop :=
  ∃ fanout blocks d, digestOf c fanout blocks = some d ∧ g = new c d zeroBlock

theorem childHash_injective (hc : c.Ideal) (hg : Rootless c g) (hg' : Rootless c g')
    (h : childHash c g = some value) (h' : childHash c g' = some value) : g.digest = g'.digest := by
  obtain ⟨fanout, blocks, d, hDigest, rfl⟩ := hg
  obtain ⟨fanout', blocks', d', hDigest', rfl⟩ := hg'
  have hHalves := (childHash_eq_half h).symm.trans (childHash_eq_half h')
  obtain ⟨hInput, -⟩ := hc.halvesInjective _ _ false false hHalves
  simp only [CompressionInput.mk.injEq] at hInput
  obtain ⟨hChain, -, hT0, -⟩ := hInput
  exact digest_eq_of_chainValue hDigest hDigest' hChain (add_right_cancel hT0)

theorem first_of_referenceSquash (h : referenceSquash c (child :: slice) = some g) : ∃ blocks first,
      digestOf c (UInt8.ofNat (slice.length + 1)) (blocks ++ [first]) = some g.digest ∧
      childHash c child = some (first.take 32) := by
  obtain ⟨digest, hAbsorb, hNew⟩ := Option.bind_eq_some_iff.mp h
  obtain rfl := Option.some.inj hNew
  obtain ⟨block, hPadded, hRest⟩ := Option.bind_eq_some_iff.mp hAbsorb
  obtain ⟨d₁, hUpdate, hRest⟩ := Option.bind_eq_some_iff.mp hRest
  have hStart : digestOf c (UInt8.ofNat (slice.length + 1)) [block] = some d₁ := hUpdate
  obtain ⟨blocks, hDigest⟩ := referenceAbsorb_spec hStart hRest
  refine ⟨blocks, block, hDigest, ?_⟩
  obtain ⟨hashes, hHashes, hBlock⟩ := Option.bind_eq_some_iff.mp hPadded
  obtain rfl := Option.some.inj hBlock
  rw [mapM_eq_some_iff, List.forall₂_cons_left_iff] at hHashes
  obtain ⟨value, values, hValue, -, rfl⟩ := hHashes
  rw [hValue, List.flatten_cons, List.append_assoc, ← length_childHash hValue, List.take_left]

variable {m : Blake2b512Random β}

theorem squash_ne_of_first (hc : c.Ideal) (hg : Rootless c g) (hg' : Rootless c g')
    (hne : g.digest ≠ g'.digest) {slice' : List (Blake2b512Random β)}
    {m' : Blake2b512Random β} (h : squash c chainBlock (g :: slice) = some (m, chainBlock'))
    (h' : referenceSquash c (g' :: slice') = some m') : m.digest ≠ m'.digest := by
  obtain ⟨-, origin, first, hAt, -, hFirst⟩ := at_squash h
  obtain ⟨blocks, first', hDigest', hFirst'⟩ := first_of_referenceSquash h'
  have hDigest : digestOf c (UInt8.ofNat (slice.length + 1)) (origin ++ [first]) = some m.digest := hAt.digest
  intro hSame
  obtain ⟨-, hBlocks⟩ := digestOf_injective hc.halvesInjective hDigest (hSame ▸ hDigest')
  obtain ⟨-, hLast⟩ := List.append_inj' hBlocks rfl
  obtain rfl := (List.cons.inj hLast).1
  exact hne (childHash_injective hc hg hg' hFirst hFirst')

theorem rootless_of_squash
    (h : squash c chainBlock (child :: slice) = some (m, chainBlock')) : Rootless c m := by
  obtain ⟨⟨digest, chainBlock₁⟩, hAbsorb, hNew⟩ := Option.bind_eq_some_iff.mp h
  obtain ⟨rfl, rfl⟩ := Prod.mk.inj (Option.some.inj hNew)
  have hStart : digestOf c (UInt8.ofNat (child :: slice).length) [] = some (.newFromFanout c _) := rfl
  obtain ⟨blocks, -, hDigest⟩ := absorbQuads_spec hStart hAbsorb
  exact ⟨_, _, digest, hDigest, rfl⟩

theorem rootless_of_referenceSquash (h : referenceSquash c slice = some m) : Rootless c m := by
  obtain ⟨digest, hAbsorb, hNew⟩ := Option.bind_eq_some_iff.mp h
  obtain rfl := Option.some.inj hNew
  have hStart : digestOf c (UInt8.ofNat slice.length) [] = some (.newFromFanout c _) := rfl
  obtain ⟨blocks, hDigest⟩ := referenceAbsorb_spec hStart hAbsorb
  exact ⟨_, _, digest, hDigest, rfl⟩

theorem squashAll_cons
    (h : squashAll c chainBlock (slice :: slices) = some (squashed, chainBlock')) :
    ∃ m others chainBlock₁, squash c chainBlock slice = some (m, chainBlock₁) ∧ squashed = m :: others ∧
      others.length = slices.length := by
  obtain ⟨⟨m, chainBlock₁⟩, hFirst, hRest⟩ := Option.bind_eq_some_iff.mp h
  obtain ⟨⟨others, chainBlock₂⟩, hOthers, hRest⟩ := Option.bind_eq_some_iff.mp hRest
  obtain ⟨rfl, rfl⟩ := Prod.mk.inj (Option.some.inj hRest)
  exact ⟨m, others, chainBlock₁, hFirst, rfl, length_squashAll hOthers⟩

theorem mapM_referenceSquash_cons (h : (slice :: slices).mapM (referenceSquash c) = some squashed) :
    ∃ m others, referenceSquash c slice = some m ∧ squashed = m :: others ∧ others.length = slices.length := by
  rw [mapM_eq_some_iff, List.forall₂_cons_left_iff] at h
  obtain ⟨m, others, hFirst, hOthers, rfl⟩ := h
  exact ⟨m, others, hFirst, rfl, hOthers.length_eq.symm⟩

theorem head_levels_ne (hc : c.Ideal) {fuel : Nat} (hg : Rootless c g)
    (hg' : Rootless c g') (hne : g.digest ≠ g'.digest) {children' : List (Blake2b512Random β)}
    (hLength : children.length = children'.length) {merged merged' : List (Blake2b512Random β)}
    (h : mergeRounds c fuel chainBlock (g :: children) = some merged)
    (h' : referenceLevels c fuel (g' :: children') = some merged') : merged.head? ≠ merged'.head? := by
  induction fuel generalizing g g' children children' chainBlock with
  | zero =>
    obtain rfl := Option.some.inj h
    obtain rfl := Option.some.inj h'
    exact fun hHead => hne (congrArg digest (Option.some.inj hHead))
  | succ fuel ih =>
    rw [mergeRounds] at h
    rw [referenceLevels] at h'
    rw [List.length_cons] at h h'
    split at h
    · next hMany =>
      rw [if_pos (by omega)] at h'
      obtain ⟨⟨squashed, chainBlock₁⟩, hSquash, hRest⟩ := Option.bind_eq_some_iff.mp h
      obtain ⟨squashed', hSquash', hRest'⟩ := Option.bind_eq_some_iff.mp h'
      rw [chunks_of_ne_nil 254 (List.cons_ne_nil _ _)] at hSquash hSquash'
      obtain ⟨m, others, chainBlock₂, hFirst, rfl, hOthers⟩ := squashAll_cons hSquash
      obtain ⟨m', others', hFirst', rfl, hOthers'⟩ := mapM_referenceSquash_cons hSquash'
      rw [List.take_succ_cons] at hFirst hFirst'
      refine ih (rootless_of_squash hFirst) (rootless_of_referenceSquash hFirst')
        (squash_ne_of_first hc hg hg' hne hFirst hFirst') ?_ hRest hRest'
      rw [hOthers, hOthers', length_chunks, length_chunks, List.length_drop, List.length_drop, List.length_cons,
        List.length_cons, hLength]
    · next hFew =>
      rw [if_neg (by omega)] at h'
      obtain rfl := Option.some.inj h
      obtain rfl := Option.some.inj h'
      exact fun hHead => hne (congrArg digest (Option.some.inj hHead))

theorem merge_ne_referenceMerge (hc : c.Ideal)
    (hRoom : ∀ child ∈ children, child.digest.HasRoom) (hTwo : 2 ≤ children.length)
    (hPadded : ¬ ZeroPadded children.length) : merge c children ≠ referenceMerge c children := by
  intro hSame
  obtain ⟨g, hg⟩ := Option.isSome_iff_exists.mp (isSome_merge.mpr ⟨hTwo, hRoom⟩ : (merge c children).isSome)
  have hg' := hSame ▸ hg
  rw [merge, guard, if_pos hTwo] at hg
  rw [referenceMerge, guard, if_pos hTwo] at hg'
  change (mergeRounds c children.length (zeroBlock.map c.ofByte) children).bind List.head? = some g at hg
  change (referenceLevels c children.length children).bind List.head? = some g at hg'
  obtain ⟨merged, hRounds, hHead⟩ := Option.bind_eq_some_iff.mp hg
  obtain ⟨merged', hLevels, hHead'⟩ := Option.bind_eq_some_iff.mp hg'
  obtain ⟨fuel, hFuel⟩ : ∃ fuel, children.length = fuel + 1 := ⟨children.length - 1, by omega⟩
  rw [hFuel, mergeRounds, if_pos (by omega)] at hRounds
  rw [hFuel, referenceLevels, if_pos (by omega)] at hLevels
  obtain ⟨⟨squashed, chainBlock⟩, hSquash, hRest⟩ := Option.bind_eq_some_iff.mp hRounds
  obtain ⟨squashed', hSquash', hRest'⟩ := Option.bind_eq_some_iff.mp hLevels
  have hne : children ≠ [] := List.length_pos_iff.mp (by omega)
  rw [chunks_of_ne_nil 254 hne] at hSquash hSquash'
  obtain ⟨m, others, chainBlock₁, hFirst, rfl, hOthers⟩ := squashAll_cons hSquash
  obtain ⟨m', others', hFirst', rfl, hOthers'⟩ := mapM_referenceSquash_cons hSquash'
  have hSlice : (children.take 255).length = min 255 children.length := List.length_take
  have hMany : 4 < (children.take 255).length ∧ ¬ 4 ∣ (children.take 255).length := by
    unfold ZeroPadded at hPadded
    omega
  have hDiffer := squash_ne_of_stale hc hMany.1 hMany.2 (by rw [List.length_map]; rfl) hFirst hFirst'
  have hRootless : Rootless c m := by
    obtain ⟨child, slice, hSlice⟩ := List.exists_cons_of_ne_nil (List.length_pos_iff.mp (Nat.zero_lt_of_lt hMany.1))
    rw [hSlice] at hFirst
    exact rootless_of_squash hFirst
  exact head_levels_ne hc hRootless (rootless_of_referenceSquash hFirst') hDiffer (hOthers.trans hOthers'.symm) hRest
    hRest' (hHead.trans hHead'.symm)

/-- With at most four generators, or with whole groups in one slice, a merge is the reference construction; with any
other number it is not, if the compression has no collisions and gives no zeros and no counter overflows. -/
theorem merge_eq_referenceMerge_iff (c : Compression β) {children : List (Blake2b512Random β)}
    (hTwo : 2 ≤ children.length) :
    (ZeroPadded children.length → merge c children = referenceMerge c children) ∧
      (c.Ideal → (∀ child ∈ children, child.digest.HasRoom) →
        (merge c children = referenceMerge c children ↔ ZeroPadded children.length)) := by
  refine ⟨merge_eq_referenceMerge hTwo, fun hc hRoom => ⟨fun hSame => ?_, merge_eq_referenceMerge hTwo⟩⟩
  by_contra hPadded
  exact merge_ne_referenceMerge hc hRoom hTwo hPadded hSame

end

open Blake2b512Random

theorem ideal_symbolicCompression : symbolicCompression.Ideal where
  halvesInjective := halvesInjective_symbolicCompression
  half_ne_zero input hZero := by
    have hHeads := congrArg List.head? hZero
    rw [head_half_symbolicCompression] at hHeads
    cases hHeads

def emptyBlake2b : Blake2b512Random UInt8 := .new blake2b (.newFromFanout blake2b 0) zeroBlock

theorem merge_eq_referenceMerge_iff_two_and_five :
    merge blake2b [emptyBlake2b, emptyBlake2b] = referenceMerge blake2b [emptyBlake2b, emptyBlake2b] ∧
    merge symbolicCompression (List.replicate 5 emptyGenerator) ≠
      referenceMerge symbolicCompression (List.replicate 5 emptyGenerator) := by
  refine ⟨(merge_eq_referenceMerge_iff blake2b (by decide)).1 (by decide), ?_⟩
  have hRoom : ∀ child ∈ List.replicate 5 emptyGenerator, child.digest.HasRoom := by
    intro child hChild
    obtain rfl := List.eq_of_mem_replicate hChild
    decide
  have hFive := (merge_eq_referenceMerge_iff symbolicCompression (by decide :
    2 ≤ (List.replicate 5 emptyGenerator).length)).2 ideal_symbolicCompression hRoom
  rw [Ne, hFive]
  decide

/-- Five splits of one generator: the block of the fifth ends with the hashes of the second, third and fourth. -/
theorem not_merge_eq_referenceMerge : ¬ ∀ children : List (Blake2b512Random UInt8), 2 ≤ children.length →
    merge blake2b children = referenceMerge blake2b children := by
  intro hClaim
  have hFive : ∃ children : List (Blake2b512Random UInt8), 2 ≤ children.length ∧
      (merge blake2b children).map (fun g => g.digest.chainValue) ≠
        (referenceMerge blake2b children).map fun g => g.digest.chainValue :=
    ⟨([1, 2, 3, 4, 5] : List UInt8).filterMap (emptyBlake2b.splitByte blake2b), by decide +kernel⟩
  obtain ⟨children, hTwo, hne⟩ := hFive
  exact hne (congrArg _ (hClaim children hTwo))

end F1r3Node.Crypto
