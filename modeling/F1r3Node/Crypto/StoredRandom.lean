import F1r3Node.Crypto.GeneratorMerge

/-! # Generators with all their fields

The counter of a generator stands twice, as words and in the block. A split that finds the path full empties only the
block, so the two agree as long as only paths of undrawn generators wrap.
-/

namespace F1r3Node.Crypto

open Lib Shared

deriving instance DecidableEq for Blake2b512Block

structure StoredRandom where
  digest : Blake2b512Block UInt8
  lastBlock : Bytes
  pathView : Bytes
  countView : List Nat
  hashArray : Bytes
  position : Int
  pathPosition : Nat
  deriving DecidableEq

def ofSignedLittleEndian (bytes : Bytes) : Int :=
  let unsigned : Int := ofLittleEndian bytes
  if unsigned < 2 ^ 63 then unsigned else unsigned - 2 ^ 64

def signedLittleEndian (n : Int) : Bytes := littleEndian 8 (n % 2 ^ 64).toNat

namespace StoredRandom

/-- A merge reads the digest and the last block of a child, and of its counter the last two words. -/
def random (g : StoredRandom) : Blake2b512Random UInt8 where
  digest := g.digest
  lastBlock := g.lastBlock
  countLow := g.countView.getD 14 0
  countHigh := g.countView.getD 15 0
  hashArray := g.hashArray
  position := g.position.toNat
  pathPosition := g.pathPosition

/-- `Blake2b512Random::new`. -/
def new (digest : Blake2b512Block UInt8) (lastBlock : Bytes) : StoredRandom where
  digest := digest
  lastBlock := lastBlock
  pathView := List.replicate 112 0
  countView := (List.range (lastBlock.length / 8)).map fun i => ofLittleEndian ((lastBlock.drop (i * 8)).take 8)
  hashArray := List.replicate 64 0
  position := 0
  pathPosition := 0

def ofNothing : StoredRandom := new (.newFromFanout blake2b 0) Blake2b512Random.zeroBlock

def toBytes (g : StoredRandom) : Bytes :=
  g.digest.chainValue ++ signedLittleEndian g.digest.t0 ++ signedLittleEndian g.digest.t1 ++
    littleEndian 4 g.lastBlock.length ++ g.lastBlock ++
    littleEndian 4 g.pathView.length ++ g.pathView ++
    littleEndian 4 g.countView.length ++ g.countView.flatMap (littleEndian 8) ++
    g.hashArray ++ signedLittleEndian g.position ++ littleEndian 4 g.pathPosition

def takeBytes (count : Nat) : StateT Bytes Option Bytes := fun bytes =>
  if count ≤ bytes.length then some (bytes.take count, bytes.drop count) else none

def readLength : StateT Bytes Option Nat := do return ofLittleEndian (← takeBytes 4)

def read : StateT Bytes Option StoredRandom := do
  let digest ← takeBytes 80
  let lastBlock ← takeBytes (← readLength)
  let pathView ← takeBytes (← readLength)
  let countViewLen ← readLength
  let countView ← takeBytes (countViewLen * 8)
  let hashArray ← takeBytes 64
  let position ← takeBytes 8
  let pathPosition ← readLength
  return {
    digest := ⟨digest.take 64, ofSignedLittleEndian ((digest.drop 64).take 8), ofSignedLittleEndian (digest.drop 72)⟩
    lastBlock := lastBlock
    pathView := pathView
    countView := (List.range countViewLen).map fun i => ofLittleEndian ((countView.drop (i * 8)).take 8)
    hashArray := hashArray
    position := ofSignedLittleEndian position
    pathPosition := pathPosition }

/-- Bytes that end too early are read as the generator of nothing; bytes after the last field are not looked at. -/
def fromBytes (bytes : Bytes) : StoredRandom := ((read.run bytes).map Prod.fst).getD ofNothing

/-- `Blake2b512Random::merge` on stored generators. -/
def merge (children : List StoredRandom) : Option StoredRandom :=
  (Blake2b512Random.merge blake2b (children.map random)).map fun g => new g.digest g.lastBlock

def withRandom (g : StoredRandom) (r : Blake2b512Random UInt8) : StoredRandom :=
  { g with
    digest := r.digest
    lastBlock := r.lastBlock
    countView := (g.countView.set 14 r.countLow).set 15 r.countHigh
    hashArray := r.hashArray
    position := r.position
    pathPosition := r.pathPosition }

def create (init : Bytes) : Option StoredRandom :=
  (Blake2b512Random.create blake2b init).map fun r => new r.digest r.lastBlock

def addByte (g : StoredRandom) (index : UInt8) : Option StoredRandom :=
  (g.random.addByte blake2b index).map fun r =>
    { g.withRandom r with pathView := g.pathView.set (if g.pathPosition = 112 then 0 else g.pathPosition) index }

def copy (g : StoredRandom) : StoredRandom := { new g.digest g.lastBlock with pathPosition := g.pathPosition }

def splitByte (g : StoredRandom) (index : UInt8) : Option StoredRandom := g.copy.addByte index

def splitShort (g : StoredRandom) (index : Int16) : Option StoredRandom := do
  let split ← g.copy.addByte index.toUInt16.toUInt8
  split.addByte (index.toUInt16 >>> 8).toUInt8

def next (g : StoredRandom) : Option (Bytes × StoredRandom) :=
  (g.random.next blake2b).map fun (name, r) => (name, g.withRandom r)

def countLow (g : StoredRandom) : Nat := g.countView.getD 14 0

def countHigh (g : StoredRandom) : Nat := g.countView.getD 15 0

def Mirrors (g : StoredRandom) : Prop := g.lastBlock.drop 112 = littleEndian 8 g.countLow ++ littleEndian 8 g.countHigh

def KeepsCount (g : StoredRandom) (bytes : Nat) : Prop :=
  112 < g.pathPosition + bytes → g.countLow = 0 ∧ g.countHigh = 0

inductive Reached (allowed : StoredRandom → Nat → Prop) : StoredRandom → Prop where
  | create {init : Bytes} {g : StoredRandom} (h : create init = some g) : Reached allowed g
  | next {g g' : StoredRandom} {name : Bytes} (hg : Reached allowed g) (h : g.next = some (name, g')) : Reached allowed g'
  | splitByte {g g' : StoredRandom} {index : UInt8} (hg : Reached allowed g) (hAllowed : allowed g 1)
    (h : g.splitByte index = some g') : Reached allowed g'
  | splitShort {g g' : StoredRandom} {index : Int16} (hg : Reached allowed g) (hAllowed : allowed g 2)
    (h : g.splitShort index = some g') : Reached allowed g'
  | merge {children : List StoredRandom} {g : StoredRandom} (hChildren : ∀ child ∈ children, Reached allowed child)
    (h : merge children = some g) : Reached allowed g
  | reload {g : StoredRandom} (hg : Reached allowed g) : Reached allowed (fromBytes g.toBytes)

/-- What every operation keeps, whatever becomes of the counter. -/
structure Sound (g : StoredRandom) : Prop where
  position_at : ∃ p, At blake2b g.random p
  length_pathView : g.pathView.length = 112
  length_countView : g.countView.length = 16
  words : ∀ word ∈ g.countView, word < 2 ^ 64
  length_hashArray : g.hashArray.length = 64
  position : g.position = 0 ∨ g.position = 32

theorem Sound.length_lastBlock {g : StoredRandom} (h : g.Sound) : g.lastBlock.length = 128 := by
  obtain ⟨p, hAt⟩ := h.position_at
  rw [show g.lastBlock = p.lastBlock from hAt.lastBlock, p.length_lastBlock]

theorem random_withRandom {g : StoredRandom} (h : g.Sound) (r : Blake2b512Random UInt8) : (g.withRandom r).random = r := by
  have hLength := h.length_countView
  simp [withRandom, random, hLength]

theorem Sound.withRandom {g : StoredRandom} (h : g.Sound) {r : Blake2b512Random UInt8} {p : Position UInt8}
    (hAt : At blake2b r p) (hHash : r.hashArray.length = 64) (hPosition : r.position = 0 ∨ r.position = 32) :
    (g.withRandom r).Sound where
  position_at := ⟨p, by rwa [random_withRandom h]⟩
  length_pathView := h.length_pathView
  length_countView := by simp [StoredRandom.withRandom, h.length_countView]
  words word hWord := by
    rcases List.mem_or_eq_of_mem_set hWord with hWord | rfl
    · rcases List.mem_or_eq_of_mem_set hWord with hWord | rfl
      · exact h.words word hWord
      · exact hAt.countLow
    · exact hAt.countHigh
  length_hashArray := hHash
  position := hPosition.imp (congrArg Nat.cast) (congrArg Nat.cast)

theorem ofLittleEndian_lt (bytes : Bytes) : ofLittleEndian bytes < 256 ^ bytes.length := by
  induction bytes with
  | nil => exact Nat.one_pos
  | cons byte bytes ih =>
    have hByte := byte.toNat_lt
    rw [ofLittleEndian, List.length_cons, Nat.pow_succ]
    omega

section

variable {digest : Blake2b512Block UInt8} {lastBlock : Bytes} {n : Nat} {p : Position UInt8}
  (hAt : At blake2b { Blake2b512Random.new blake2b digest lastBlock with pathPosition := n } p)

include hAt

theorem random_new : ({ new digest lastBlock with pathPosition := n } : StoredRandom).random =
    { Blake2b512Random.new blake2b digest lastBlock with pathPosition := n } := by
  have hLength : lastBlock.length = 128 := by rw [show lastBlock = p.lastBlock from hAt.lastBlock, p.length_lastBlock]
  simp [new, random, Blake2b512Random.new, hLength, blake2b]

theorem sound_new : ({ new digest lastBlock with pathPosition := n } : StoredRandom).Sound where
  position_at := ⟨p, by rwa [random_new hAt]⟩
  length_pathView := List.length_replicate
  length_countView := by
    have hLength : lastBlock.length = 128 := by rw [show lastBlock = p.lastBlock from hAt.lastBlock, p.length_lastBlock]
    simp [new, hLength]
  words word hWord := by
    obtain ⟨i, -, rfl⟩ := List.mem_map.mp hWord
    exact (ofLittleEndian_lt _).trans_le (Nat.pow_le_pow_right (by decide) (List.length_take_le 8 _))
  length_hashArray := List.length_replicate
  position := .inl rfl

theorem mirrors_new : ({ new digest lastBlock with pathPosition := n } : StoredRandom).Mirrors := by
  have hBlock : lastBlock = p.lastBlock := hAt.lastBlock
  have hLow : StoredRandom.countLow { new digest lastBlock with pathPosition := n } = p.low :=
    (congrArg Blake2b512Random.countLow (random_new hAt)).trans (by
      rw [← p.low_of_lastBlock, ← hBlock]
      rfl)
  have hHigh : StoredRandom.countHigh { new digest lastBlock with pathPosition := n } = p.high :=
    (congrArg Blake2b512Random.countHigh (random_new hAt)).trans (by
      rw [← p.high_of_lastBlock, ← hBlock]
      rfl)
  rw [Mirrors, hLow, hHigh, ← p.drop_lastBlock, ← hBlock]
  rfl

end

section

variable {g g' : StoredRandom} (h : g.Sound) {index : UInt8}

include h

theorem copy_spec : g.copy.Sound ∧ g.copy.Mirrors := by
  obtain ⟨p, hAt⟩ := h.position_at
  exact ⟨sound_new hAt.copy, mirrors_new hAt.copy⟩

theorem count_copy (hMirrors : g.Mirrors) : g.copy.countLow = g.countLow ∧ g.copy.countHigh = g.countHigh := by
  obtain ⟨p, hAt⟩ := h.position_at
  obtain ⟨hLow, hHigh⟩ := List.append_inj ((copy_spec h).2.symm.trans hMirrors) (by simp)
  obtain ⟨q, hCopy⟩ := (copy_spec h).1.position_at
  have hInj : ∀ {m n : Nat}, m < 2 ^ 64 → n < 2 ^ 64 → littleEndian 8 m = littleEndian 8 n → m = n := by
    intro m n hm hn hEq
    rw [← @ofLittleEndian_littleEndian m 8 hm, hEq, ofLittleEndian_littleEndian hn]
  exact ⟨hInj hCopy.countLow hAt.countLow hLow, hInj hCopy.countHigh hAt.countHigh hHigh⟩

theorem addByte_spec (hAdd : g.addByte index = some g') :
    g'.Sound ∧ g'.countLow = g.countLow ∧ g'.countHigh = g.countHigh ∧
      (g.pathPosition = 112 ∧ g'.pathPosition = 1 ∧ g'.lastBlock.drop 112 = List.replicate 16 0 ∨
        g.pathPosition < 112 ∧ g'.pathPosition = g.pathPosition + 1 ∧ g'.lastBlock.drop 112 = g.lastBlock.drop 112 ∧
          g'.digest = g.digest) := by
  obtain ⟨p, hAt⟩ := h.position_at
  obtain ⟨r, hRandom, rfl⟩ := Option.map_eq_some_iff.mp hAdd
  obtain ⟨hPosition, q, hAt', -⟩ := hAt.addByte hRandom
  have hSame := random_withRandom h r
  have hSound : (g.withRandom r).Sound → Sound { g.withRandom r with
      pathView := g.pathView.set (if g.pathPosition = 112 then 0 else g.pathPosition) index } := fun hSound =>
    ⟨hSound.position_at, by rw [List.length_set]; exact h.length_pathView, hSound.length_countView, hSound.words,
      hSound.length_hashArray, hSound.position⟩
  have hPos : r.position = 0 ∨ r.position = 32 := by
    rw [hPosition]
    rcases h.position with hZero | hHalf
    · exact .inl (congrArg Int.toNat hZero)
    · exact .inr (congrArg Int.toNat hHalf)
  obtain ⟨hLess, rfl⟩ | ⟨hWhole, digest, -, rfl⟩ := hAt.addByte_cases hRandom
  · refine ⟨hSound (h.withRandom hAt' h.length_hashArray hPos), congrArg Blake2b512Random.countLow hSame,
      congrArg Blake2b512Random.countHigh hSame, .inr ⟨hLess, rfl, ?_, rfl⟩⟩
    exact List.drop_set_of_lt hLess
  · refine ⟨hSound (h.withRandom hAt' h.length_hashArray hPos), congrArg Blake2b512Random.countLow hSame,
      congrArg Blake2b512Random.countHigh hSame, .inl ⟨hWhole, rfl, ?_⟩⟩
    change ((List.replicate g.lastBlock.length 0).set 0 index).drop 112 = _
    rw [h.length_lastBlock]
    rfl

theorem mirrors_addByte (hMirrors : g.Mirrors) (hKeeps : g.KeepsCount 1) (hAdd : g.addByte index = some g') :
    g'.Mirrors := by
  obtain ⟨-, hLow, hHigh, ⟨hWhole, -, hDrop⟩ | ⟨-, -, hDrop, -⟩⟩ := addByte_spec h hAdd
  · obtain ⟨hZero, hZero'⟩ := hKeeps (by omega)
    rw [Mirrors, hDrop, hLow, hHigh, hZero, hZero', littleEndian_zero]
    rfl
  · rw [Mirrors, hDrop, hLow, hHigh]
    exact hMirrors

theorem splitByte_spec (hSplit : g.splitByte index = some g') :
    g'.Sound ∧ (g.Mirrors → g.KeepsCount 1 → g'.Mirrors) := by
  obtain ⟨hSound, hMirrors⟩ := copy_spec h
  refine ⟨(addByte_spec hSound hSplit).1, fun hOwn hKeeps => mirrors_addByte hSound hMirrors ?_ hSplit⟩
  obtain ⟨hLow, hHigh⟩ := count_copy h hOwn
  rwa [KeepsCount, hLow, hHigh]

theorem splitShort_spec {index : Int16} (hSplit : g.splitShort index = some g') :
    g'.Sound ∧ (g.Mirrors → g.KeepsCount 2 → g'.Mirrors) := by
  obtain ⟨split, hFirst, hSecond⟩ := Option.bind_eq_some_iff.mp hSplit
  obtain ⟨hSound, hMirrors⟩ := copy_spec h
  obtain ⟨hSplitSound, hLow', hHigh', hCases⟩ := addByte_spec hSound hFirst
  refine ⟨(addByte_spec hSplitSound hSecond).1, fun hOwn hKeeps => ?_⟩
  obtain ⟨hLow, hHigh⟩ := count_copy h hOwn
  have hPath : g.copy.pathPosition = g.pathPosition := rfl
  have hKeepsFirst : g.copy.KeepsCount 1 := by
    rw [KeepsCount, hLow, hHigh]
    exact fun hWraps => hKeeps (by omega)
  refine mirrors_addByte hSplitSound (mirrors_addByte hSound hMirrors hKeepsFirst hFirst) (fun hWraps => ?_) hSecond
  rw [hLow', hHigh', hLow, hHigh]
  exact hKeeps (by omega)

theorem next_spec {name : Bytes} (hNext : g.next = some (name, g')) : g'.Sound ∧ (g.Mirrors → g'.Mirrors) := by
  obtain ⟨p, hAt⟩ := h.position_at
  obtain ⟨⟨_, r⟩, hRandom, hEq⟩ := Option.map_eq_some_iff.mp hNext
  obtain ⟨rfl, rfl⟩ := Prod.mk.inj hEq
  have hSame := random_withRandom h r
  rw [Blake2b512Random.next] at hRandom
  split_ifs at hRandom with hStart
  · obtain ⟨r', hHash, hRest⟩ := Option.bind_eq_some_iff.mp hRandom
    obtain ⟨rfl, rfl⟩ := Prod.mk.inj (Option.some.inj hRest)
    obtain ⟨-, -, q, hAt', -⟩ := hAt.hash hHash
    obtain ⟨hashArray, hRoot, hRest⟩ := Option.bind_eq_some_iff.mp hHash
    obtain ⟨⟨low, high⟩, -, hRest⟩ := Option.bind_eq_some_iff.mp hRest
    obtain ⟨d, hOut, rfl⟩ := Option.map_eq_some_iff.mp hRoot
    obtain rfl := Option.some.inj hRest
    have hLength : d.chainValue.length = 64 := by rw [(compress_eq_some hOut).1, blake2b.length_compress]
    refine ⟨h.withRandom ⟨hAt'.digest, hAt'.lastBlock, hAt'.pathPosition, hAt'.countLow, hAt'.countHigh, hAt'.count⟩
      hLength (.inr rfl), fun _ => ?_⟩
    have hLow := congrArg Blake2b512Random.countLow hSame
    have hHigh := congrArg Blake2b512Random.countHigh hSame
    change (g.lastBlock.take 112 ++ littleEndian 8 low ++ littleEndian 8 high).drop 112 =
      littleEndian 8 (random _).countLow ++ littleEndian 8 (random _).countHigh
    rw [hLow, hHigh, List.append_assoc, List.drop_left' (by rw [List.length_take, h.length_lastBlock]; rfl)]
  · obtain ⟨rfl, rfl⟩ := Prod.mk.inj (Option.some.inj hRandom)
    refine ⟨h.withRandom ⟨hAt.digest, hAt.lastBlock, hAt.pathPosition, hAt.countLow, hAt.countHigh, hAt.count⟩
      h.length_hashArray (.inl rfl), fun hMirrors => ?_⟩
    change g.lastBlock.drop 112 = littleEndian 8 (random _).countLow ++ littleEndian 8 (random _).countHigh
    rw [hSame]
    exact hMirrors

end

theorem at_new_of_fresh {r : Blake2b512Random UInt8} {fanout : UInt8} {origin : List Bytes}
    (hAt : At blake2b r (.fresh fanout origin)) :
    At blake2b { Blake2b512Random.new blake2b r.digest r.lastBlock with pathPosition := 0 } (.fresh fanout origin) := by
  rw [hAt.lastBlock.trans ((Position.fresh fanout origin).lastBlock_of_count_zero rfl rfl)]
  exact at_new hAt.digest

theorem create_spec {init : Bytes} {g : StoredRandom} (h : create init = some g) : g.Sound ∧ g.Mirrors := by
  obtain ⟨r, hCreate, rfl⟩ := Option.map_eq_some_iff.mp h
  obtain ⟨-, origin, hAt⟩ := at_create hCreate
  exact ⟨sound_new (at_new_of_fresh hAt), mirrors_new (at_new_of_fresh hAt)⟩

def IsFresh (r : Blake2b512Random UInt8) : Prop := ∃ fanout origin, At blake2b r (.fresh fanout origin)

theorem isFresh_of_squashAll {slices : List (List (Blake2b512Random UInt8))} {chainBlock chainBlock' : Bytes}
    {squashed : List (Blake2b512Random UInt8)} (hSlices : ∀ slice ∈ slices, slice ≠ [])
    (h : Blake2b512Random.squashAll blake2b chainBlock slices = some (squashed, chainBlock')) :
    ∀ r ∈ squashed, IsFresh r := by
  induction slices generalizing chainBlock chainBlock' squashed with
  | nil =>
    obtain ⟨rfl, -⟩ := Prod.mk.inj (Option.some.inj h)
    exact fun r hr => absurd hr List.not_mem_nil
  | cons slice slices ih =>
    obtain ⟨⟨first, chainBlock₁⟩, hFirst, hRest⟩ := Option.bind_eq_some_iff.mp h
    obtain ⟨⟨rest, chainBlock₂⟩, hOthers, hRest⟩ := Option.bind_eq_some_iff.mp hRest
    obtain ⟨rfl, -⟩ := Prod.mk.inj (Option.some.inj hRest)
    obtain ⟨hSlice, hOthersNe⟩ := List.forall_mem_cons.mp hSlices
    obtain ⟨child, slice, rfl⟩ := List.exists_cons_of_ne_nil hSlice
    obtain ⟨-, origin, block, hAt, -⟩ := at_squash hFirst
    exact List.forall_mem_cons.mpr ⟨⟨_, _, hAt⟩, ih hOthersNe hOthers⟩

theorem isFresh_of_mergeRounds {fuel : Nat} {chainBlock : Bytes} {children merged : List (Blake2b512Random UInt8)}
    (hChildren : 1 < children.length ∧ fuel ≠ 0 ∨ ∀ r ∈ children, IsFresh r)
    (h : Blake2b512Random.mergeRounds blake2b fuel chainBlock children = some merged) : ∀ r ∈ merged, IsFresh r := by
  induction fuel generalizing chainBlock children with
  | zero =>
    obtain rfl := Option.some.inj h
    exact hChildren.resolve_left fun hNo => hNo.2 rfl
  | succ fuel ih =>
    rw [Blake2b512Random.mergeRounds] at h
    split_ifs at h with hMany
    · obtain ⟨⟨squashed, chainBlock'⟩, hSquash, hRest⟩ := Option.bind_eq_some_iff.mp h
      exact ih (.inr (isFresh_of_squashAll (fun slice hSlice => (of_mem_chunks hSlice).1) hSquash)) hRest
    · obtain rfl := Option.some.inj h
      exact hChildren.resolve_left fun hNo => hMany hNo.1

theorem merge_spec {children : List StoredRandom} {g : StoredRandom} (h : merge children = some g) :
    g.Sound ∧ g.Mirrors := by
  obtain ⟨r, hMerge, rfl⟩ := Option.map_eq_some_iff.mp h
  obtain ⟨_, hTwo, hMerge⟩ := Option.bind_eq_some_iff.mp hMerge
  obtain ⟨merged, hRounds, hHead⟩ := Option.bind_eq_some_iff.mp hMerge
  have hLength : 2 ≤ (children.map random).length := by
    by_contra hLess
    rw [guard, if_neg hLess] at hTwo
    cases hTwo
  obtain ⟨fanout, origin, hAt⟩ := isFresh_of_mergeRounds (.inl ⟨hLength, by omega⟩) hRounds r (List.mem_of_mem_head? hHead)
  exact ⟨sound_new (at_new_of_fresh hAt), mirrors_new (at_new_of_fresh hAt)⟩

theorem run_takeBytes {count : Nat} {taken : Bytes} (rest : Bytes) (h : taken.length = count) :
    (takeBytes count).run (taken ++ rest) = some (taken, rest) := by
  change (if count ≤ (taken ++ rest).length then _ else _) = _
  rw [if_pos (by rw [List.length_append]; omega), List.take_left' h, List.drop_left' h]

theorem run_readLength {n : Nat} (rest : Bytes) (h : n < 2 ^ 32) :
    readLength.run (littleEndian 4 n ++ rest) = some (n, rest) := by
  rw [readLength, StateT.run_bind, run_takeBytes rest (length_littleEndian 4 n)]
  change some (ofLittleEndian (littleEndian 4 n), rest) = _
  rw [@ofLittleEndian_littleEndian n 4 h]

theorem ofSignedLittleEndian_signed {n : Int} (hLow : 0 ≤ n) (hHigh : n < 2 ^ 63) :
    ofSignedLittleEndian (signedLittleEndian n) = n := by
  have hWord : (n % 2 ^ 64).toNat < 2 ^ 64 := by omega
  have hValue : (ofLittleEndian (signedLittleEndian n) : Int) = n := by
    rw [signedLittleEndian, @ofLittleEndian_littleEndian _ 8 hWord]
    omega
  unfold ofSignedLittleEndian
  simp only [hValue, if_pos hHigh]

theorem words_flatMap (words : List Nat) (h : ∀ word ∈ words, word < 2 ^ 64) :
    ((List.range words.length).map fun i => ofLittleEndian (((words.flatMap (littleEndian 8)).drop (i * 8)).take 8)) =
      words := by
  induction words with
  | nil => rfl
  | cons word words ih =>
    obtain ⟨hWord, hWords⟩ := List.forall_mem_cons.mp h
    rw [List.length_cons, List.range_succ_eq_map, List.map_cons, List.map_map, List.flatMap_cons, Nat.zero_mul,
      List.drop_zero, List.take_left' (length_littleEndian 8 word), @ofLittleEndian_littleEndian word 8 hWord]
    refine congrArg (word :: ·) ((List.map_congr_left fun i _ => ?_).trans (ih hWords))
    rw [Function.comp_apply, Nat.succ_mul, Nat.add_comm, ← List.drop_drop, List.drop_left' (length_littleEndian 8 word)]

theorem digest_range {g : StoredRandom} (h : g.Sound) : g.digest.chainValue.length = 64 ∧ 0 ≤ g.digest.t0 ∧
    g.digest.t0 < 2 ^ 63 ∧ g.digest.t1 = 0 := by
  obtain ⟨p, hAt⟩ := h.position_at
  obtain ⟨hT0, hT1⟩ := counters_of_digestOf hAt.digest
  have hDigest : digestOf blake2b p.fanout (p.blocks blake2b) = some g.digest := hAt.digest
  cases hBlocks : p.blocks blake2b with
  | nil =>
    rw [hBlocks] at hDigest
    rw [← Option.some.inj hDigest]
    refine ⟨?_, Int.le_refl 0, (by decide : (0 : Int) < 2 ^ 63), rfl⟩
    simp [Blake2b512Block.newFromFanout, firstChainValue, blake2bIV]
  | cons block blocks =>
    rw [hBlocks] at hDigest
    obtain ⟨d, -, hUpdate⟩ := Option.bind_eq_some_iff.mp hDigest
    obtain ⟨hChain, hNewT0, -⟩ := compress_eq_some hUpdate
    have hRoom : d.HasRoom := isSome_compress.mp (Option.isSome_of_eq_some hUpdate)
    have hLimit := hRoom.1
    rw [i64Max, blockLengthBytes] at hLimit
    refine ⟨by rw [hChain, blake2b.length_compress], ?_, ?_, hT1⟩
    · change 0 ≤ g.random.digest.t0
      omega
    · omega

theorem fromBytes_toBytes {g : StoredRandom} (h : g.Sound) : fromBytes g.toBytes = g := by
  obtain ⟨hChain, hT0, hT0', hT1⟩ := digest_range h
  obtain ⟨p, hAt⟩ := h.position_at
  have hPath : g.pathPosition < 2 ^ 32 := by
    have hLength := p.length_path
    have hPosition : g.pathPosition = p.path.length := hAt.pathPosition
    omega
  have hPosition : 0 ≤ g.position ∧ g.position < 2 ^ 63 := by
    rcases h.position with hZero | hHalf
    · omega
    · omega
  have hDigest : (g.digest.chainValue ++ signedLittleEndian g.digest.t0 ++ signedLittleEndian g.digest.t1).length = 80 := by
    simp [signedLittleEndian, hChain]
  have hSigned : ∀ n, (signedLittleEndian n).length = 8 := fun _ => length_littleEndian 8 _
  have hFirst := @List.take_left' _ _ (signedLittleEndian g.digest.t0 ++ signedLittleEndian g.digest.t1) _ hChain
  have hMiddle := @List.drop_left' _ _ (signedLittleEndian g.digest.t0 ++ signedLittleEndian g.digest.t1) _ hChain
  have hLastWord : (g.digest.chainValue ++ signedLittleEndian g.digest.t0 ++ signedLittleEndian g.digest.t1).drop 72 =
      signedLittleEndian g.digest.t1 := List.drop_left' (by rw [List.length_append, hChain, hSigned])
  have hLast : g.lastBlock.length < 2 ^ 32 := by rw [h.length_lastBlock]; decide
  have hView : g.pathView.length < 2 ^ 32 := by rw [h.length_pathView]; decide
  have hCount : g.countView.length < 2 ^ 32 := by rw [h.length_countView]; decide
  have hCounts : (g.countView.flatMap (littleEndian 8)).length = g.countView.length * 8 := by
    simp
  have hBytes : g.toBytes = (g.digest.chainValue ++ signedLittleEndian g.digest.t0 ++ signedLittleEndian g.digest.t1) ++
      (littleEndian 4 g.lastBlock.length ++ (g.lastBlock ++ (littleEndian 4 g.pathView.length ++ (g.pathView ++
        (littleEndian 4 g.countView.length ++ (g.countView.flatMap (littleEndian 8) ++ (g.hashArray ++
          (signedLittleEndian g.position ++ (littleEndian 4 g.pathPosition ++ []))))))))) := by
    simp [toBytes]
  have hRead : read.run g.toBytes = some (g, []) := by
    rw [hBytes]
    simp only [read, StateT.run_bind, run_takeBytes _ hDigest, run_takeBytes _ hCounts, Option.bind_eq_bind, Option.bind_some,
      run_readLength _ hLast, run_readLength _ hView, run_readLength _ hCount, run_readLength _ hPath,
      run_takeBytes _ h.length_hashArray, run_takeBytes _ (hSigned _), run_takeBytes _ rfl, hLastWord]
    rw [List.append_assoc]
    rw [hFirst, hMiddle, List.take_left' (hSigned _), words_flatMap _ h.words, ofSignedLittleEndian_signed hT0 hT0',
      ofSignedLittleEndian_signed hT1.ge (by omega), ofSignedLittleEndian_signed hPosition.1 hPosition.2]
    rfl
  rw [fromBytes, hRead]
  rfl

theorem Reached.mono {allowed allowed' : StoredRandom → Nat → Prop} (hMono : ∀ g n, allowed g n → allowed' g n)
    {g : StoredRandom} (h : Reached allowed g) : Reached allowed' g := by
  induction h with
  | create h => exact .create h
  | next _ h ih => exact .next ih h
  | splitByte _ hAllowed h ih => exact .splitByte ih (hMono _ _ hAllowed) h
  | splitShort _ hAllowed h ih => exact .splitShort ih (hMono _ _ hAllowed) h
  | merge _ h ih => exact .merge ih h
  | reload _ ih => exact .reload ih

theorem Reached.sound {allowed : StoredRandom → Nat → Prop} {g : StoredRandom} (h : Reached allowed g) : g.Sound := by
  induction h with
  | create h => exact (create_spec h).1
  | next _ h ih => exact (next_spec ih h).1
  | splitByte _ _ h ih => exact (splitByte_spec ih h).1
  | splitShort _ _ h ih => exact (splitShort_spec ih h).1
  | merge _ h => exact (merge_spec h).1
  | reload _ ih => rwa [fromBytes_toBytes ih]

theorem Reached.mirrors {g : StoredRandom} (h : Reached KeepsCount g) : g.Mirrors := by
  induction h with
  | create h => exact (create_spec h).2
  | next hg h ih => exact (next_spec hg.sound h).2 ih
  | splitByte hg hKeeps h ih => exact (splitByte_spec hg.sound h).2 ih hKeeps
  | splitShort hg hKeeps h ih => exact (splitShort_spec hg.sound h).2 ih hKeeps
  | merge _ h => exact (merge_spec h).2
  | reload hg ih => rwa [fromBytes_toBytes hg.sound]

theorem exists_addByte {g : StoredRandom} (h : g.Sound) (index : UInt8) (hRoom : g.digest.HasRoom) :
    ∃ g', g.addByte index = some g' := by
  obtain ⟨p, hAt⟩ := h.position_at
  obtain ⟨r, hAdd⟩ : ∃ r, g.random.addByte blake2b index = some r := by
    rw [Blake2b512Random.addByte]
    by_cases hWhole : g.random.pathPosition = 112
    · obtain ⟨d, hUpdate⟩ : ∃ d, g.random.digest.compress blake2b (g.random.message blake2b) false false = some d :=
        Option.isSome_iff_exists.mp (isSome_compress.mpr hRoom)
      rw [if_pos hWhole, Blake2b512Block.update, hUpdate]
      exact ⟨_, rfl⟩
    · have hLess : g.random.pathPosition < 112 := by
        have hPath := p.length_path
        have hPosition := hAt.pathPosition
        omega
      rw [if_neg hWhole]
      exact ⟨_, if_pos hLess⟩
  exact ⟨_, Option.map_eq_some_iff.mpr ⟨r, hAdd, rfl⟩⟩

theorem exists_next {g : StoredRandom} (h : g.Sound) (hPosition : g.position = 0) (hCount : g.countLow = 0)
    (hRoom : g.digest.HasRoom) : ∃ name g', g.next = some (name, g') ∧ g'.pathPosition = g.pathPosition ∧
      g'.countLow = 1 ∧ g'.digest = g.digest := by
  obtain ⟨d, hPeek⟩ : ∃ d, g.random.digest.compress blake2b (g.random.message blake2b) true true = some d :=
    Option.isSome_iff_exists.mp (isSome_compress.mpr hRoom)
  have hNextCount : Blake2b512Random.nextCount g.random.countLow g.random.countHigh = some (1, g.random.countHigh) := by
    rw [show g.random.countLow = 0 from hCount]
    exact if_neg (by decide)
  have hStart : g.random.position = 0 := congrArg Int.toNat hPosition
  obtain ⟨name, r, hNext, hPath, hLow, hDigest⟩ : ∃ name r, g.random.next blake2b = some (name, r) ∧
      r.pathPosition = g.pathPosition ∧ r.countLow = 1 ∧ r.digest = g.digest := by
    unfold Blake2b512Random.next Blake2b512Random.hash Blake2b512Block.peekFinalRoot
    rw [if_pos hStart, hPeek, hNextCount]
    exact ⟨_, _, rfl, rfl, rfl, rfl⟩
  refine ⟨name, g.withRandom r, Option.map_eq_some_iff.mpr ⟨_, hNext, rfl⟩, hPath, ?_, hDigest⟩
  exact (congrArg Blake2b512Random.countLow (random_withRandom h r)).trans hLow

theorem exists_drawn (n : Nat) (hn : n ≤ 112) :
    ∃ g, Reached KeepsCount g ∧ g.pathPosition = n ∧ g.countLow = 1 ∧ g.digest.HasRoom := by
  induction n with
  | zero =>
    have hCreate : create [] = some ofNothing := rfl
    obtain ⟨hSound, -⟩ := create_spec hCreate
    have hCount : ofNothing.countLow = 0 := by
      simp [countLow, ofNothing, new, Blake2b512Random.zeroBlock, ofLittleEndian]
    obtain ⟨name, g, hNext, hPath, hLow, hDigest⟩ := exists_next hSound rfl hCount (by decide)
    exact ⟨g, .next (.create hCreate) hNext, hPath, hLow, hDigest ▸ by decide⟩
  | succ n ih =>
    obtain ⟨g, hReached, hPath, hCount, hRoom⟩ := ih (by omega)
    obtain ⟨hSound, -⟩ := copy_spec hReached.sound
    obtain ⟨g', hAdd⟩ := exists_addByte hSound 0 hRoom
    obtain ⟨-, hLow, -, ⟨hWhole, -⟩ | ⟨-, hPath', -, hDigest⟩⟩ := addByte_spec hSound hAdd
    · exact absurd (hPath.symm.trans hWhole) (by omega)
    · refine ⟨g', .splitByte hReached (fun hWraps => absurd hWraps (by omega)) hAdd, ?_, ?_, hDigest ▸ hRoom⟩
      · exact hPath'.trans (congrArg (· + 1) hPath)
      · rw [hLow, (count_copy hReached.sound hReached.mirrors).1, hCount]

end StoredRandom

end F1r3Node.Crypto
