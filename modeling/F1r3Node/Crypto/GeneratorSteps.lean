import F1r3Node.Crypto.GeneratorPositions

/-!
# Draws, splits and merges along positions

Each operation of a generator, on the position it leaves and the one it reaches.
-/

namespace F1r3Node.Crypto

open Lib Shared

section

variable {β : Type} {c : Compression β}

namespace Position

variable (p : Position β)

theorem length_padded : (p.path ++ List.replicate (112 - p.path.length) 0).length = 112 := by
  have hPath := p.length_path
  rw [List.length_append, List.length_replicate]
  omega

theorem length_lastBlock : p.lastBlock.length = 128 := by
  rw [lastBlock, List.length_append, p.length_padded, List.length_append, length_littleEndian, length_littleEndian]

theorem take_lastBlock : p.lastBlock.take 112 = p.path ++ List.replicate (112 - p.path.length) 0 :=
  List.take_left' p.length_padded

theorem drop_lastBlock : p.lastBlock.drop 112 = littleEndian 8 p.low ++ littleEndian 8 p.high :=
  List.drop_left' p.length_padded

theorem low_of_lastBlock : ofLittleEndian ((p.lastBlock.drop 112).take 8) = p.low := by
  rw [drop_lastBlock, List.take_left' (length_littleEndian 8 p.low), ofLittleEndian_littleEndian p.low_lt]

theorem high_of_lastBlock : ofLittleEndian ((p.lastBlock.drop 120).take 8) = p.high := by
  have hDrop : p.lastBlock.drop 120 = littleEndian 8 p.high := by
    rw [show 120 = 112 + 8 from rfl, ← List.drop_drop, drop_lastBlock, List.drop_left' (length_littleEndian 8 p.low)]
  rw [hDrop, List.take_of_length_le (length_littleEndian 8 p.high).le, ofLittleEndian_littleEndian p.high_lt]

theorem lastBlock_of_count_zero (hLow : p.low = 0) (hHigh : p.high = 0) :
    p.lastBlock = p.path ++ List.replicate (128 - p.path.length) 0 := by
  have hPath := p.length_path
  rw [lastBlock, hLow, hHigh, littleEndian_zero, ← List.replicate_add, List.append_assoc, ← List.replicate_add]
  congr 2
  omega

def fresh (fanout : UInt8) (origin : List (List β)) : Position β where
  fanout := fanout
  origin := origin
  wraps := []
  path := []
  low := 0
  high := 0
  length_path := Nat.zero_le _
  length_wraps := fun _ h => absurd h List.not_mem_nil
  low_lt := by decide
  high_lt := by decide

end Position

variable {fanout : UInt8}

theorem at_new {origin : List (List β)} {digest : Blake2b512Block β} (h : digestOf c fanout origin = some digest) :
    At c (.new c digest Blake2b512Random.zeroBlock) (.fresh fanout origin) where
  digest := h
  lastBlock := ((Position.fresh fanout origin).lastBlock_of_count_zero rfl rfl).symm
  pathPosition := rfl
  countLow := (by decide : ofLittleEndian ((Blake2b512Random.zeroBlock.drop 112).take 8) < 2 ^ 64)
  countHigh := (by decide : ofLittleEndian ((Blake2b512Random.zeroBlock.drop 120).take 8) < 2 ^ 64)
  count := Nat.zero_le _

section steps

variable {g g' : Blake2b512Random β} {p : Position β} (h : At c g p)

include h

theorem At.copy : At c (g.copy c) p where
  digest := h.digest
  lastBlock := h.lastBlock
  pathPosition := h.pathPosition
  countLow := by
    change ofLittleEndian ((g.lastBlock.drop 112).take 8) < 2 ^ 64
    rw [h.lastBlock, p.low_of_lastBlock]
    exact p.low_lt
  countHigh := by
    change ofLittleEndian ((g.lastBlock.drop 120).take 8) < 2 ^ 64
    rw [h.lastBlock, p.high_of_lastBlock]
    exact p.high_lt
  count := by
    change p.count ≤ ofLittleEndian ((g.lastBlock.drop 112).take 8) +
      2 ^ 64 * ofLittleEndian ((g.lastBlock.drop 120).take 8)
    rw [h.lastBlock, p.low_of_lastBlock, p.high_of_lastBlock, Position.count]

theorem At.addByte_of_lt (hLess : p.path.length < 112) (b : UInt8) :
    ∃ q, At c { g with lastBlock := g.lastBlock.set g.pathPosition b, pathPosition := g.pathPosition + 1 } q ∧
      Extends p q ∧ q.bytes = p.bytes ++ [b] := by
  have hPad : List.replicate (112 - p.path.length) (0 : UInt8) =
      0 :: List.replicate (112 - (p.path ++ [b]).length) 0 := by
    rw [List.length_append, List.length_singleton, ← List.replicate_succ]
    congr 1
    omega
  refine ⟨{ p with
    path := p.path ++ [b]
    length_path := by rw [List.length_append, List.length_singleton]; omega }, ?_, ?_, ?_⟩
  · refine ⟨h.digest, ?_, ?_, h.countLow, h.countHigh, h.count⟩
    · change g.lastBlock.set g.pathPosition b = _
      rw [h.lastBlock, h.pathPosition, Position.lastBlock, Position.lastBlock, hPad]
      simp only [List.append_assoc, List.cons_append, List.set_append_right _ _ (Nat.le_refl _), Nat.sub_self,
        List.set_cons_zero, List.nil_append]
    · change g.pathPosition + 1 = (p.path ++ [b]).length
      rw [h.pathPosition, List.length_append, List.length_singleton]
  · exact ⟨rfl, rfl, ⟨[b], (List.append_assoc ..).symm⟩, .inr ⟨rfl, Nat.le_refl _⟩⟩
  · exact (List.append_assoc ..).symm

theorem At.addByte_of_whole (hWhole : p.path.length = 112) {digest : Blake2b512Block β}
    (hUpdate : g.digest.update c (g.message c) = some digest) (b : UInt8) :
    ∃ q, At c { g with digest := digest, lastBlock := (List.replicate g.lastBlock.length 0).set 0 b, pathPosition := 1 } q ∧
      Extends p q ∧ q.bytes = p.bytes ++ [b] := by
  have hBytes : (p.lastBlock :: p.wraps).reverse.flatMap (·.take 112) ++ [b] = p.bytes ++ [b] := by
    rw [List.reverse_cons, List.flatMap_append, List.flatMap_singleton, p.take_lastBlock, hWhole, Nat.sub_self,
      List.replicate_zero, List.append_nil]
    rfl
  refine ⟨{
    fanout := p.fanout
    origin := p.origin
    wraps := p.lastBlock :: p.wraps
    path := [b]
    low := 0
    high := 0
    length_path := Nat.succ_le_succ (Nat.zero_le 111)
    length_wraps := List.forall_mem_cons.mpr ⟨p.length_lastBlock, p.length_wraps⟩
    low_lt := by decide
    high_lt := by decide }, ?_, ?_, hBytes⟩
  · refine ⟨?_, ?_, rfl, h.countLow, h.countHigh, Nat.zero_le _⟩
    · change (digestOf c p.fanout (p.blocks c)).bind (·.update c (p.lastBlock.map c.ofByte)) = some digest
      rw [h.digest, ← h.lastBlock]
      exact hUpdate
    · rw [Position.lastBlock_of_count_zero _ rfl rfl]
      change (List.replicate g.lastBlock.length 0).set 0 b = b :: List.replicate 127 0
      rw [h.lastBlock, p.length_lastBlock, List.replicate_succ, List.set_cons_zero]
  · exact ⟨rfl, rfl, ⟨[b], hBytes⟩, .inl (Nat.lt_succ_self _)⟩

variable {b : UInt8}

theorem At.addByte_cases (hAdd : g.addByte c b = some g') :
    (g.pathPosition < 112 ∧
      g' = { g with lastBlock := g.lastBlock.set g.pathPosition b, pathPosition := g.pathPosition + 1 }) ∨
    (g.pathPosition = 112 ∧ ∃ digest, g.digest.update c (g.message c) = some digest ∧
      g' = { g with
        digest := digest
        lastBlock := (List.replicate g.lastBlock.length 0).set 0 b
        pathPosition := 1 }) := by
  have hPath := p.length_path
  rw [Blake2b512Random.addByte] at hAdd
  by_cases hWhole : g.pathPosition = 112
  · rw [if_pos hWhole] at hAdd
    obtain ⟨digest, hUpdate, hRest⟩ := Option.bind_eq_some_iff.mp hAdd
    exact .inr ⟨hWhole, digest, hUpdate, (Option.some.inj hRest).symm⟩
  · have hLess : g.pathPosition < 112 := by
      have hPosition := h.pathPosition
      omega
    rw [if_neg hWhole] at hAdd
    change (if g.pathPosition < 112 then some _ else _) = some g' at hAdd
    rw [if_pos hLess] at hAdd
    exact .inl ⟨hLess, (Option.some.inj hAdd).symm⟩

theorem At.addByte (hAdd : g.addByte c b = some g') :
    g'.position = g.position ∧ ∃ q, At c g' q ∧ Extends p q ∧ q.bytes = p.bytes ++ [b] := by
  obtain ⟨hLess, rfl⟩ | ⟨hWhole, digest, hUpdate, rfl⟩ := h.addByte_cases hAdd
  · exact ⟨rfl, h.addByte_of_lt (h.pathPosition ▸ hLess) b⟩
  · exact ⟨rfl, h.addByte_of_whole (h.pathPosition ▸ hWhole) hUpdate b⟩

theorem At.splitByte (hSplit : g.splitByte c b = some g') :
    g'.position = 0 ∧ ∃ q, At c g' q ∧ Extends p q ∧ q.bytes = p.bytes ++ [b] :=
  h.copy.addByte hSplit

theorem At.splitShort {index : Int16} (hSplit : g.splitShort c index = some g') :
    g'.position = 0 ∧ ∃ q, At c g' q ∧ Extends p q ∧
      q.bytes = p.bytes ++ [index.toUInt16.toUInt8, (index.toUInt16 >>> 8).toUInt8] := by
  obtain ⟨split, hFirst, hSecond⟩ := Option.bind_eq_some_iff.mp hSplit
  obtain ⟨hPosition, q, hAt, hExtends, hBytes⟩ := h.copy.addByte hFirst
  obtain ⟨hPosition', q', hAt', hExtends', hBytes'⟩ := hAt.addByte hSecond
  refine ⟨hPosition'.trans hPosition, q', hAt', hExtends.trans hExtends', ?_⟩
  rw [hBytes', hBytes, List.append_assoc]
  rfl

omit h in
theorem nextCount_spec {low high low' high' : Nat} (hLow : low < 2 ^ 64) (hHigh : high < 2 ^ 64)
    (hNext : Blake2b512Random.nextCount low high = some (low', high')) :
    low' < 2 ^ 64 ∧ high' < 2 ^ 64 ∧ low' + 2 ^ 64 * high' = low + 2 ^ 64 * high + 1 := by
  rw [Blake2b512Random.nextCount, u64Max] at hNext
  split at hNext
  · split at hNext
    · cases hNext
    · obtain ⟨rfl, rfl⟩ := Prod.mk.inj (Option.some.inj hNext)
      omega
  · obtain ⟨rfl, rfl⟩ := Prod.mk.inj (Option.some.inj hNext)
    omega

theorem At.yields {d : Blake2b512Block β} {root : Bool} (hOut : g.digest.compress c (g.message c) true root = some d)
    (which : Bool) : Yields c root p which (half which d.chainValue) := by
  obtain ⟨hChain, hT0, hT1⟩ := compress_eq_some hOut
  obtain ⟨hCount, hNoCarry⟩ := counters_of_digestOf h.digest
  rw [hNoCarry, if_neg (by omega)] at hT1
  refine ⟨g.digest, h.digest, ?_⟩
  rw [hChain, hT0, hT1, Blake2b512Random.message, h.lastBlock]

theorem At.finalizeInternal {value : List β} (hValue : g.digest.finalizeInternal c (g.message c) = some value) :
    Yields c false p false value := by
  obtain ⟨d, hOut, rfl⟩ := Option.map_eq_some_iff.mp hValue
  exact h.yields hOut false

theorem At.hash (hHash : g.hash c = some g') :
    g'.position = g.position ∧ (∀ which, Yields c true p which (half which g'.hashArray)) ∧
      ∃ q, At c g' q ∧ Extends p q ∧ Behind p q ∧ q.place = p.place := by
  obtain ⟨hashArray, hRoot, hRest⟩ := Option.bind_eq_some_iff.mp hHash
  obtain ⟨⟨low, high⟩, hNext, hRest⟩ := Option.bind_eq_some_iff.mp hRest
  obtain ⟨d, hOut, rfl⟩ := Option.map_eq_some_iff.mp hRoot
  obtain rfl := Option.some.inj hRest
  obtain ⟨hLow, hHigh, hSum⟩ := nextCount_spec h.countLow h.countHigh hNext
  have hMore : p.count < low + 2 ^ 64 * high := by
    have hCount := h.count
    omega
  refine ⟨rfl, h.yields hOut, { p with low := low, high := high, low_lt := hLow, high_lt := hHigh }, ?_, ?_, ?_, rfl⟩
  · refine ⟨h.digest, ?_, h.pathPosition, hLow, hHigh, Nat.le_refl _⟩
    change g.lastBlock.take 112 ++ littleEndian 8 low ++ littleEndian 8 high = _
    rw [h.lastBlock, p.take_lastBlock, List.append_assoc]
    rfl
  · exact ⟨rfl, rfl, ⟨[], (List.append_nil _).symm⟩, .inr ⟨rfl, hMore.le⟩⟩
  · exact .inr ⟨rfl, hMore⟩

end steps

variable {d : Blake2b512Block β}

theorem digestOf_foldlM {blocks : List Bytes} {before : List (List β)} {d' : Blake2b512Block β}
    (hBefore : digestOf c fanout before = some d)
    (hFold : blocks.foldlM (fun d block => d.update c (block.map c.ofByte)) d = some d') :
    ∃ after, digestOf c fanout after = some d' := by
  induction blocks generalizing before d with
  | nil =>
    obtain rfl := Option.some.inj hFold
    exact ⟨before, hBefore⟩
  | cons block blocks ih =>
    obtain ⟨d₁, hUpdate, hRest⟩ := Option.bind_eq_some_iff.mp hFold
    have hNext : digestOf c fanout (block.map c.ofByte :: before) = some d₁ :=
      Option.bind_eq_some_iff.mpr ⟨d, hBefore, hUpdate⟩
    exact ih hNext hRest

theorem at_create {init : Bytes} {g : Blake2b512Random β} (h : Blake2b512Random.create c init = some g) :
    g.position = 0 ∧ ∃ origin, At c g (.fresh 0 origin) := by
  obtain ⟨digest, hFold, hNew⟩ := Option.bind_eq_some_iff.mp h
  obtain rfl := Option.some.inj hNew
  have hFirst : digestOf c 0 [] = some (Blake2b512Block.newFromFanout c 0) := rfl
  obtain ⟨origin, hOrigin⟩ := digestOf_foldlM hFirst hFold
  exact ⟨rfl, origin, at_new hOrigin⟩

theorem length_finalizeInternal {block value : List β}
    (h : d.finalizeInternal c block = some value) : value.length = 32 := by
  obtain ⟨out, hOut, rfl⟩ := Option.map_eq_some_iff.mp h
  rw [(compress_eq_some hOut).1, List.length_take, c.length_compress]
  rfl

variable {chainBlock : List β}

variable {quad : List (Blake2b512Random β)}

theorem take_fillQuad {i : Nat} {filled : List β} (hi : 1 ≤ i)
    (hLength : 32 ≤ chainBlock.length) (h : Blake2b512Random.fillQuad c chainBlock i quad = some filled) :
    filled.take 32 = chainBlock.take 32 := by
  induction quad generalizing i chainBlock with
  | nil =>
    obtain rfl := Option.some.inj h
    rfl
  | cons child quad ih =>
    obtain ⟨value, -, hRest⟩ := Option.bind_eq_some_iff.mp h
    have hTake : (writeAt (i * 32) value chainBlock).take 32 = chainBlock.take 32 :=
      take_writeAt value (by omega) hLength
    rw [ih (by omega) (le_length_of_take_eq hTake hLength) hRest, hTake]

theorem fillQuad_cons {child : Blake2b512Random β} {filled : List β}
    (h : Blake2b512Random.fillQuad c chainBlock 0 (child :: quad) = some filled) :
    child.digest.finalizeInternal c (child.message c) = some (filled.take 32) := by
  obtain ⟨value, hValue, hRest⟩ := Option.bind_eq_some_iff.mp h
  have hLength := length_finalizeInternal hValue
  have hFirst : (writeAt (0 * 32) value chainBlock).take 32 = value := by
    rw [Nat.zero_mul, ← hLength, take_writeAt_zero]
  have hTake : (writeAt (0 * 32) value chainBlock).take 32 = value.take 32 := by
    rw [hFirst, List.take_of_length_le hLength.le]
  have hEnough : 32 ≤ (writeAt (0 * 32) value chainBlock).length := le_length_of_take_eq hTake hLength.ge
  rw [take_fillQuad (Nat.le_refl 1) hEnough hRest, hFirst, hValue]

theorem absorbQuads_spec {quads : List (List (Blake2b512Random β))} {before : List (List β)}
    {d' : Blake2b512Block β} {chainBlock' : List β} (hBefore : digestOf c fanout before = some d)
    (h : Blake2b512Random.absorbQuads c d chainBlock quads = some (d', chainBlock')) :
    ∃ blocks : List (List β), blocks.length = quads.length ∧ digestOf c fanout (blocks ++ before) = some d' := by
  induction quads generalizing before d chainBlock with
  | nil =>
    obtain ⟨rfl, rfl⟩ := Prod.mk.inj (Option.some.inj h)
    exact ⟨[], rfl, hBefore⟩
  | cons quad quads ih =>
    obtain ⟨filled, -, hRest⟩ := Option.bind_eq_some_iff.mp h
    obtain ⟨d₁, hUpdate, hRest⟩ := Option.bind_eq_some_iff.mp hRest
    have hNext : digestOf c fanout (filled :: before) = some d₁ :=
      Option.bind_eq_some_iff.mpr ⟨d, hBefore, hUpdate⟩
    obtain ⟨blocks, hLength, hDigest⟩ := ih hNext hRest
    refine ⟨blocks ++ [filled], ?_, ?_⟩
    · rw [List.length_append, hLength, List.length_singleton, List.length_cons]
    · rw [List.append_assoc]
      exact hDigest

theorem at_squash {child g : Blake2b512Random β} {slice : List (Blake2b512Random β)} {chainBlock' : List β}
    (h : Blake2b512Random.squash c chainBlock (child :: slice) = some (g, chainBlock')) :
    g.position = 0 ∧ ∃ (origin : List (List β)) (first : List β),
      At c g (.fresh (UInt8.ofNat (slice.length + 1)) (origin ++ [first])) ∧
      (origin ++ [first]).length = (slice.length + 4) / 4 ∧
      child.digest.finalizeInternal c (child.message c) = some (first.take 32) := by
  obtain ⟨⟨digest, chainBlock₁⟩, hAbsorb, hNew⟩ := Option.bind_eq_some_iff.mp h
  obtain ⟨rfl, rfl⟩ := Prod.mk.inj (Option.some.inj hNew)
  have hCount := length_chunks 3 (child :: slice)
  obtain ⟨filled, hFill, hRest⟩ := Option.bind_eq_some_iff.mp hAbsorb
  obtain ⟨d₁, hUpdate, hRest⟩ := Option.bind_eq_some_iff.mp hRest
  have hFirst : digestOf c (UInt8.ofNat (slice.length + 1)) [filled] = some d₁ := hUpdate
  obtain ⟨blocks, hLength, hDigest⟩ := absorbQuads_spec hFirst hRest
  refine ⟨rfl, blocks, filled, at_new hDigest, ?_, fillQuad_cons hFill⟩
  rw [List.length_append, hLength, List.length_singleton]
  exact hCount

end

end F1r3Node.Crypto
