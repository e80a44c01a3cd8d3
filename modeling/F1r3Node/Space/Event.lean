import F1r3Node.Shared.Bytes
import Mathlib.Data.Finmap
import Mathlib.Data.Prod.Lex

/-! # Events of the tuple space

A produce is identified by its hash alone, a consume by all of its fields, and a COMM by its consume, the hashes of
its produces, its peeks and its counters.
-/

namespace F1r3Node.Space

open Shared

instance instLinearOrderUInt8 : LinearOrder UInt8 where
  le_refl := UInt8.le_refl
  le_trans := fun _ _ _ => UInt8.le_trans
  le_antisymm := fun _ _ => UInt8.le_antisymm
  le_total := UInt8.le_total
  lt_iff_le_not_ge := fun a b => by
    simp only [UInt8.le_iff_toNat_le, UInt8.lt_iff_toNat_lt]
    omega
  toDecidableLE := inferInstance

/-- What the space is given: the digest, the encoding of the four types and the matcher. -/
structure SpaceEnv (C P A K : Type*) where
  blake : Blake2b256
  encodeChannel : C → Bytes
  encodePattern : P → Bytes
  encodeDatum : A → Bytes
  encodeContinuation : K → Bytes
  get : P → A → Option A
  checkCommit : K → List A → Bool

structure Produce where
  channelHash : Bytes
  hash : Bytes
  persistent : Bool
  isDeterministic : Bool
  outputValue : List Bytes
  failed : Bool
  deriving DecidableEq

structure Consume where
  channelHashes : List Bytes
  hash : Bytes
  persistent : Bool
  deriving DecidableEq

abbrev Counters := Finmap fun _ : Bytes => Int

structure COMM where
  consume : Consume
  produces : List Produce
  peeks : Finset Int
  timesRepeated : Counters
  deriving DecidableEq

inductive IOEvent where
  | produce (p : Produce)
  | consume (c : Consume)
  deriving DecidableEq

inductive Event where
  | comm (c : COMM)
  | ioEvent (e : IOEvent)
  deriving DecidableEq

abbrev Log := List Event

/-- What `PartialEq` compares of a COMM. -/
def COMM.identity (c : COMM) : Consume × List Bytes × Finset Int × Counters :=
  (c.consume, c.produces.map Produce.hash, c.peeks, c.timesRepeated)

/-- What `PartialEq` compares of an IO event. -/
def IOEvent.identity : IOEvent → Bytes ⊕ Consume
  | .produce p => .inl p.hash
  | .consume c => .inr c

instance : BEq COMM := ⟨fun a b => decide (a.identity = b.identity)⟩

instance : BEq IOEvent := ⟨fun a b => decide (a.identity = b.identity)⟩

@[simp] theorem COMM.beq_iff (a b : COMM) : (a == b) = true ↔ a.identity = b.identity :=
  decide_eq_true_iff

@[simp] theorem IOEvent.beq_iff (a b : IOEvent) : (a == b) = true ↔ a.identity = b.identity :=
  decide_eq_true_iff

instance : EquivBEq COMM where
  rfl := by simp
  symm := by
    simp only [COMM.beq_iff]
    exact Eq.symm
  trans := by
    simp only [COMM.beq_iff]
    exact Eq.trans

instance : EquivBEq IOEvent where
  rfl := by simp
  symm := by
    simp only [IOEvent.beq_iff]
    exact Eq.symm
  trans := by
    simp only [IOEvent.beq_iff]
    exact Eq.trans

/-- The `bincode` image of a vector of byte vectors: lengths as eight little-endian bytes. -/
def serializeVec (items : List Bytes) : Bytes :=
  toLeBytes 8 items.length ++ items.flatMap fun item => toLeBytes 8 item.length ++ item

def serializeBool (b : Bool) : Bytes := [if b then 1 else 0]

section

variable {C P A K : Type*} (env : SpaceEnv C P A K)

def SpaceEnv.hash (channel : C) : Bytes := env.blake.hash (env.encodeChannel channel)

def SpaceEnv.hashVec (channels : List C) : List Bytes :=
  (channels.map env.hash).insertionSort (· ≤ ·)

def SpaceEnv.hashFromHashes (hashes : List Bytes) : Bytes :=
  env.blake.hash (hashes.insertionSort (· ≤ ·)).flatten

def SpaceEnv.hashFromVec (channels : List C) : Bytes :=
  env.hashFromHashes (env.hashVec channels)

def SpaceEnv.hashConsume (encodedChannels : List Bytes) (patterns : List P) (continuation : K)
    (persist : Bool) : Bytes :=
  env.blake.hash (serializeVec (encodedChannels ++
    (patterns.map env.encodePattern).insertionSort (· ≤ ·) ++
    [env.encodeContinuation continuation, serializeBool persist]))

def SpaceEnv.hashProduce (encodedChannel : Bytes) (datum : A) (persist : Bool) : Bytes :=
  env.blake.hash (serializeVec [encodedChannel, env.encodeDatum datum, serializeBool persist])

def Produce.create (channel : C) (datum : A) (persistent : Bool) : Produce where
  channelHash := env.hash channel
  hash := env.hashProduce (env.hash channel) datum persistent
  persistent := persistent
  isDeterministic := true
  outputValue := []
  failed := false

def Consume.create (channels : List C) (patterns : List P) (continuation : K) (persistent : Bool) :
    Consume where
  channelHashes := env.hashVec channels
  hash := env.hashConsume (env.hashVec channels) patterns continuation persistent
  persistent := persistent

end

def Produce.sortKey (p : Produce) : Bytes ×ₗ Bytes ×ₗ Bool :=
  toLex (p.channelHash, toLex (p.hash, p.persistent))

def sortProduces (produces : List Produce) : List Produce :=
  produces.insertionSort fun p q => p.sortKey ≤ q.sortKey

/-- `produce_counters`: a produce the counter has not seen counts zero. -/
def produceCounters (counter : Bytes → Int) (produces : List Produce) : Counters :=
  produces.foldl (fun counters p => counters.insert p.hash (counter p.hash)) ∅

/-- `COMM::new` on the sources of the candidates. -/
def COMM.new (sources : List Produce) (consumeRef : Consume) (peeks : Finset Int)
    (counter : Bytes → Int) : COMM where
  consume := consumeRef
  produces := sortProduces sources
  peeks := peeks
  timesRepeated := produceCounters counter (sortProduces sources)

theorem perm_sortProduces (produces : List Produce) : (sortProduces produces).Perm produces :=
  List.perm_insertionSort _ _

@[simp] theorem mem_sortProduces {p : Produce} {produces : List Produce} :
    p ∈ sortProduces produces ↔ p ∈ produces :=
  (perm_sortProduces produces).mem_iff

private theorem lookup_foldl_counters (counter : Bytes → Int) (produces : List Produce) (h : Bytes)
    (counters : Counters) :
    (produces.foldl (fun counters p => counters.insert p.hash (counter p.hash)) counters).lookup h =
      if h ∈ produces.map Produce.hash then some (counter h) else counters.lookup h := by
  induction produces generalizing counters with
  | nil => simp
  | cons p produces ih =>
    rw [List.foldl_cons, ih]
    by_cases hTail : h ∈ produces.map Produce.hash
    · simp [hTail]
    · by_cases hHead : h = p.hash
      · subst hHead
        simp [hTail]
      · simp [hTail, hHead]

@[simp] theorem lookup_produceCounters (counter : Bytes → Int) (produces : List Produce) (h : Bytes) :
    (produceCounters counter produces).lookup h =
      if h ∈ produces.map Produce.hash then some (counter h) else none := by
  rw [produceCounters, lookup_foldl_counters, Finmap.lookup_empty]

end F1r3Node.Space
