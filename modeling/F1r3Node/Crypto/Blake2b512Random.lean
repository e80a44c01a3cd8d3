import F1r3Node.Lib.Sequences
import F1r3Node.Shared.Bytes

/-! # The splittable and mergeable generator of names

The compression is a parameter and may work on more symbols than the 256 bytes, so that it can be injective. An
arithmetic overflow is a panic and gives `none`.
-/

namespace F1r3Node.Crypto

open Lib Shared

structure CompressionInput (β : Type) where
  chainValue : List β
  block : List β
  t0 : Int
  t1 : Int
  finalize : Bool
  rootFinalize : Bool

/-- The compression, with its eight output words written as 64 symbols, low byte first. -/
structure Compression (β : Type) where
  ofByte : UInt8 ↪ β
  compress : CompressionInput β → List β
  length_compress : ∀ input, (compress input).length = 64

structure Blake2b512Block (β : Type) where
  chainValue : List β
  t0 : Int
  t1 : Int

def blake2bIV : List UInt64 :=
  [0x6A09E667F3BCC908, 0xBB67AE8584CAA73B, 0x3C6EF372FE94F82B, 0xA54FF53A5F1D36F1,
    0x510E527FADE682D1, 0x9B05688C2B3E6C1F, 0x1F83D9ABFB41BD6B, 0x5BE0CD19137E2179]

def paramValue0 : UInt64 := 0xFF000040

def paramValue2 : UInt64 := 0x2000

def blockLengthBytes : Int := 128

def i64Max : Int := 2 ^ 63 - 1

def u64Max : Nat := 2 ^ 64 - 1

def firstChainValue (fanout : UInt8) : List UInt64 :=
  (blake2bIV.modify 0 (· ^^^ (paramValue0 ||| fanout.toUInt64 <<< 16))).modify 2 (· ^^^ paramValue2)

section

variable {β : Type} (c : Compression β)

namespace Blake2b512Block

def newFromFanout (fanout : UInt8) : Blake2b512Block β :=
  ⟨((firstChainValue fanout).flatMap fun word => littleEndian 8 word.toNat).map c.ofByte, 0, 0⟩

def nextT1 (d : Blake2b512Block β) : Int := if d.t0 + blockLengthBytes = 0 then d.t1 + 1 else d.t1

def HasRoom (d : Blake2b512Block β) : Prop := d.t0 + blockLengthBytes ≤ i64Max ∧ d.nextT1 ≤ i64Max

instance (d : Blake2b512Block β) : Decidable d.HasRoom := inferInstanceAs (Decidable (_ ∧ _))

def compress (d : Blake2b512Block β) (block : List β) (finalize rootFinalize : Bool) : Option (Blake2b512Block β) :=
  let newT0 := d.t0 + blockLengthBytes
  if d.HasRoom then
    some ⟨c.compress ⟨d.chainValue, block, newT0, d.nextT1, finalize, rootFinalize⟩, newT0, d.nextT1⟩
  else none

def update (d : Blake2b512Block β) (block : List β) : Option (Blake2b512Block β) := d.compress c block false false

def peekFinalRoot (d : Blake2b512Block β) (block : List β) : Option (List β) :=
  (d.compress c block true true).map chainValue

def finalizeInternal (d : Blake2b512Block β) (block : List β) : Option (List β) :=
  (d.compress c block true false).map fun out => out.chainValue.take 32

end Blake2b512Block

/-- `countLow` and `countHigh` are the words 14 and 15 of `count_view`, the only ones that are read. -/
structure Blake2b512Random (β : Type) where
  digest : Blake2b512Block β
  lastBlock : Bytes
  countLow : Nat
  countHigh : Nat
  hashArray : List β
  position : Nat
  pathPosition : Nat

namespace Blake2b512Random

def new (digest : Blake2b512Block β) (lastBlock : Bytes) : Blake2b512Random β where
  digest := digest
  lastBlock := lastBlock
  countLow := ofLittleEndian ((lastBlock.drop 112).take 8)
  countHigh := ofLittleEndian ((lastBlock.drop 120).take 8)
  hashArray := List.replicate 64 (c.ofByte 0)
  position := 0
  pathPosition := 0

def zeroBlock : Bytes := List.replicate 128 0

def initBlocks (init : Bytes) : List Bytes :=
  let whole := init.length / 128
  let remainder := init.drop (128 * whole)
  (List.range whole).map (fun i => (init.drop (128 * i)).take 128) ++
    if remainder = [] then [] else [remainder ++ List.replicate (128 - remainder.length) 0]

def create (init : Bytes) : Option (Blake2b512Random β) := do
  let digest ← (initBlocks init).foldlM (fun d block => d.update c (block.map c.ofByte))
    (Blake2b512Block.newFromFanout c 0)
  return new c digest zeroBlock

variable (g : Blake2b512Random β)

def message : List β := g.lastBlock.map c.ofByte

/-- A whole path goes into the digest; `count_view` is not read again after the block is emptied. -/
def addByte (index : UInt8) : Option (Blake2b512Random β) := do
  let g ← if g.pathPosition = 112 then do
      let digest ← g.digest.update c (g.message c)
      pure { g with digest := digest, lastBlock := List.replicate g.lastBlock.length 0, pathPosition := 0 }
    else pure g
  if g.pathPosition < 112 then
    return { g with lastBlock := g.lastBlock.set g.pathPosition index, pathPosition := g.pathPosition + 1 }
  else
    return { g with lastBlock := (g.lastBlock.drop 1).take 111 ++ [index] ++ g.lastBlock.drop 112 }

def copy : Blake2b512Random β := { new c g.digest g.lastBlock with pathPosition := g.pathPosition }

def splitByte (index : UInt8) : Option (Blake2b512Random β) := (g.copy c).addByte c index

def splitShort (index : Int16) : Option (Blake2b512Random β) := do
  let packed := index.toUInt16
  let split ← (g.copy c).addByte c packed.toUInt8
  split.addByte c (packed >>> 8).toUInt8

def nextCount (low high : Nat) : Option (Nat × Nat) :=
  if low = u64Max then if high = u64Max then none else some (0, high + 1) else some (low + 1, high)

def hash : Option (Blake2b512Random β) := do
  let hashArray ← g.digest.peekFinalRoot c (g.message c)
  let (low, high) ← nextCount g.countLow g.countHigh
  return { g with
    hashArray := hashArray
    countLow := low
    countHigh := high
    lastBlock := g.lastBlock.take 112 ++ littleEndian 8 low ++ littleEndian 8 high }

def next : Option (List β × Blake2b512Random β) :=
  if g.position = 0 then do
    let g ← g.hash c
    return (g.hashArray.take 32, { g with position := 32 })
  else return (g.hashArray.drop 32, { g with position := 0 })

/-- The children of a quad are finalised into the chain block; what a shorter quad does not write stays from before. -/
def fillQuad (chainBlock : List β) : Nat → List (Blake2b512Random β) → Option (List β)
  | _, [] => some chainBlock
  | i, child :: quad => do
    let value ← child.digest.finalizeInternal c (child.message c)
    fillQuad (writeAt (i * 32) value chainBlock) (i + 1) quad

def absorbQuads (digest : Blake2b512Block β) (chainBlock : List β) :
    List (List (Blake2b512Random β)) → Option (Blake2b512Block β × List β)
  | [] => some (digest, chainBlock)
  | quad :: quads => do
    let chainBlock ← fillQuad c chainBlock 0 quad
    let digest ← digest.update c chainBlock
    absorbQuads digest chainBlock quads

def squash (chainBlock : List β) (slice : List (Blake2b512Random β)) : Option (Blake2b512Random β × List β) := do
  let (digest, chainBlock) ← absorbQuads c (Blake2b512Block.newFromFanout c (UInt8.ofNat slice.length)) chainBlock
    (chunks 3 slice)
  return (new c digest zeroBlock, chainBlock)

def squashAll (chainBlock : List β) :
    List (List (Blake2b512Random β)) → Option (List (Blake2b512Random β) × List β)
  | [] => some ([], chainBlock)
  | slice :: slices => do
    let (squashed, chainBlock) ← squash c chainBlock slice
    let (rest, chainBlock) ← squashAll chainBlock slices
    return (squashed :: rest, chainBlock)

/-- The rounds of `merge`, on a fuel of one round per child. -/
def mergeRounds : Nat → List β → List (Blake2b512Random β) → Option (List (Blake2b512Random β))
  | 0, _, children => some children
  | fuel + 1, chainBlock, children =>
    if 1 < children.length then do
      let (squashed, chainBlock) ← squashAll c chainBlock (chunks 254 children)
      mergeRounds fuel chainBlock squashed
    else some children

def merge (children : List (Blake2b512Random β)) : Option (Blake2b512Random β) := do
  guard (2 ≤ children.length)
  let merged ← mergeRounds c children.length (zeroBlock.map c.ofByte) children
  merged.head?

end Blake2b512Random

end

end F1r3Node.Crypto
