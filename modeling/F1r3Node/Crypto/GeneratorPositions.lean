import F1r3Node.Crypto.Blake2b512Random

/-! # Where a generator stands

A digest is known by its fanout and the blocks it has absorbed.
-/

namespace F1r3Node.Crypto

open Lib Shared

section

variable {β : Type}

def half : Bool → List β → List β
  | false, out => out.take 32
  | true, out => out.drop 32

def Compression.HalvesInjective (c : Compression β) : Prop :=
  ∀ i j h h', half h (c.compress i) = half h' (c.compress j) → i = j ∧ h = h'

variable (c : Compression β)

theorem third_byte_of_firstChainValue (fanout : UInt8) :
    ((firstChainValue fanout).flatMap fun word => littleEndian 8 word.toNat)[2]? = some (0xBC ^^^ fanout) := by
  have hAll : ∀ n : Fin 256,
      ((firstChainValue (UInt8.ofNat n)).flatMap fun word => littleEndian 8 word.toNat)[2]? =
        some (0xBC ^^^ UInt8.ofNat n) := by
    decide +kernel
  have hOne := hAll ⟨fanout.toNat, fanout.toNat_lt⟩
  rwa [UInt8.ofNat_toNat] at hOne

theorem newFromFanout_injective : Function.Injective (Blake2b512Block.newFromFanout c) := by
  intro fanout fanout' h
  have hBytes := List.map_injective_iff.mpr c.ofByte.injective (congrArg Blake2b512Block.chainValue h)
  have hThird := congrArg (·[2]?) hBytes
  simp only [third_byte_of_firstChainValue, Option.some.injEq] at hThird
  have hBack := congrArg (0xBC ^^^ ·) hThird
  simpa only [← UInt8.xor_assoc, UInt8.xor_self, UInt8.zero_xor] using hBack

variable {c}

theorem compress_eq_some {d out : Blake2b512Block β} {block : List β} {finalize rootFinalize : Bool}
    (h : d.compress c block finalize rootFinalize = some out) :
    out = ⟨c.compress ⟨d.chainValue, block, out.t0, out.t1, finalize, rootFinalize⟩, out.t0, out.t1⟩ ∧
      out.t0 = d.t0 + 128 ∧ out.t1 = if d.t0 + 128 = 0 then d.t1 + 1 else d.t1 := by
  rw [Blake2b512Block.compress] at h
  split at h
  · obtain rfl := Option.some.inj h
    exact ⟨rfl, rfl, rfl⟩
  · cases h

variable (c)

def digestOf (fanout : UInt8) : List (List β) → Option (Blake2b512Block β)
  | [] => some (.newFromFanout c fanout)
  | block :: blocks => (digestOf fanout blocks).bind (·.update c block)

variable {c}

theorem counters_of_digestOf {fanout : UInt8} {blocks : List (List β)} {d : Blake2b512Block β}
    (h : digestOf c fanout blocks = some d) : d.t0 = 128 * blocks.length ∧ d.t1 = 0 := by
  induction blocks generalizing d with
  | nil =>
    obtain rfl := Option.some.inj h
    exact ⟨rfl, rfl⟩
  | cons block blocks ih =>
    obtain ⟨d', hRest, hUpdate⟩ := Option.bind_eq_some_iff.mp h
    obtain ⟨hT0, hT1⟩ := ih hRest
    obtain ⟨-, hNewT0, hNewT1⟩ := compress_eq_some hUpdate
    rw [hT0, hT1, if_neg (by omega)] at hNewT1
    rw [hT0] at hNewT0
    refine ⟨?_, hNewT1⟩
    rw [hNewT0, List.length_cons]
    omega

theorem digest_eq_of_chainValue {fanout fanout' : UInt8} {blocks blocks' : List (List β)} {d d' : Blake2b512Block β}
    (h : digestOf c fanout blocks = some d) (h' : digestOf c fanout' blocks' = some d')
    (hChain : d.chainValue = d'.chainValue) (hT0 : d.t0 = d'.t0) : d = d' := by
  have hT1 : d.t1 = d'.t1 := (counters_of_digestOf h).2.trans (counters_of_digestOf h').2.symm
  cases d
  cases d'
  exact Blake2b512Block.mk.injEq .. ▸ ⟨hChain, hT0, hT1⟩

theorem digestOf_injective (hc : c.HalvesInjective) {fanout fanout' : UInt8} {blocks blocks' : List (List β)}
    {d : Blake2b512Block β} (h : digestOf c fanout blocks = some d) (h' : digestOf c fanout' blocks' = some d) :
    fanout = fanout' ∧ blocks = blocks' := by
  have hLength : blocks.length = blocks'.length := by
    have hT0 := (counters_of_digestOf h).1
    have hT0' := (counters_of_digestOf h').1
    omega
  induction blocks generalizing blocks' d with
  | nil =>
    obtain rfl := List.length_eq_zero_iff.mp hLength.symm
    exact ⟨newFromFanout_injective c (Option.some.inj (h.trans h'.symm)), rfl⟩
  | cons block blocks ih =>
    obtain - | ⟨block', blocks'⟩ := blocks'
    · cases hLength
    obtain ⟨d₁, hRest, hUpdate⟩ := Option.bind_eq_some_iff.mp h
    obtain ⟨d₂, hRest', hUpdate'⟩ := Option.bind_eq_some_iff.mp h'
    obtain ⟨hOut, hT0, -⟩ := compress_eq_some hUpdate
    obtain ⟨hOut', hT0', -⟩ := compress_eq_some hUpdate'
    have hSame := congrArg Blake2b512Block.chainValue (hOut.symm.trans hOut')
    obtain ⟨hInput, -⟩ := hc _ _ false false (congrArg (half false) hSame)
    simp only [CompressionInput.mk.injEq] at hInput
    obtain ⟨hChain, rfl, -⟩ := hInput
    have hDigests : d₁ = d₂ := digest_eq_of_chainValue hRest hRest' hChain (by omega)
    obtain ⟨hFanout, hBlocks⟩ := ih hRest (hDigests ▸ hRest') (Nat.succ.inj hLength)
    exact ⟨hFanout, congrArg _ hBlocks⟩

/-- The blocks a generator was made from (the last one first), the whole paths absorbed since (the last one first),
the bytes of the last block, and its two counter words. -/
structure Position (β : Type) where
  fanout : UInt8
  origin : List (List β)
  wraps : List Bytes
  path : Bytes
  low : Nat
  high : Nat
  length_path : path.length ≤ 112
  length_wraps : ∀ block ∈ wraps, block.length = 128
  low_lt : low < 2 ^ 64
  high_lt : high < 2 ^ 64

structure Place (β : Type) where
  fanout : UInt8
  origin : List (List β)
  bytes : Bytes

namespace Position

variable (c) in
def blocks (p : Position β) : List (List β) := p.wraps.map (·.map c.ofByte) ++ p.origin

def lastBlock (p : Position β) : Bytes :=
  p.path ++ List.replicate (112 - p.path.length) 0 ++ (littleEndian 8 p.low ++ littleEndian 8 p.high)

def count (p : Position β) : Nat := p.low + 2 ^ 64 * p.high

def bytes (p : Position β) : Bytes := p.wraps.reverse.flatMap (·.take 112) ++ p.path

def place (p : Position β) : Place β := ⟨p.fanout, p.origin, p.bytes⟩

end Position

def Apart (a b : Place β) : Prop := ¬ (a.fanout = b.fanout ∧ a.origin = b.origin) ∨ Parted a.bytes b.bytes

theorem Apart.symm {a b : Place β} (h : Apart a b) : Apart b a := by
  rcases h with h | h
  · exact .inl fun hSame => h ⟨hSame.1.symm, hSame.2.symm⟩
  · exact .inr h.symm

def Behind (p q : Position β) : Prop :=
  p.wraps.length < q.wraps.length ∨ p.wraps.length = q.wraps.length ∧ p.count < q.count

variable (c) in
structure SameAddress (p q : Position β) : Prop where
  fanout : p.fanout = q.fanout
  blocks : p.blocks c = q.blocks c
  lastBlock : p.lastBlock = q.lastBlock

theorem SameAddress.symm {p q : Position β} (h : SameAddress c p q) : SameAddress c q p :=
  ⟨h.fanout.symm, h.blocks.symm, h.lastBlock.symm⟩

section address

variable {p q : Position β} (h : SameAddress c p q) (hOrigin : p.origin.length = q.origin.length)

include h hOrigin

theorem SameAddress.wraps_and_origin : p.wraps = q.wraps ∧ p.origin = q.origin := by
  have hLength := congrArg List.length h.blocks
  simp only [Position.blocks, List.length_append, List.length_map] at hLength
  obtain ⟨hWraps, hSame⟩ := List.append_inj h.blocks (by simp only [List.length_map]; omega)
  exact ⟨List.map_injective_iff.mpr (List.map_injective_iff.mpr c.ofByte.injective) hWraps, hSame⟩

omit hOrigin in
theorem SameAddress.path_and_count : (p.path <+: q.path ∨ q.path <+: p.path) ∧ p.count = q.count := by
  obtain ⟨hPath, hCount⟩ := List.append_inj' h.lastBlock (by simp only [List.length_append, length_littleEndian])
  obtain ⟨hLow, hHigh⟩ := List.append_inj hCount (by simp only [length_littleEndian])
  have hLow := congrArg ofLittleEndian hLow
  have hHigh := congrArg ofLittleEndian hHigh
  rw [ofLittleEndian_littleEndian p.low_lt, ofLittleEndian_littleEndian q.low_lt] at hLow
  rw [ofLittleEndian_littleEndian p.high_lt, ofLittleEndian_littleEndian q.high_lt] at hHigh
  refine ⟨?_, by rw [Position.count, hLow, hHigh, Position.count]⟩
  -- both paths start the same 112 bytes
  exact List.prefix_or_prefix_of_prefix (List.prefix_append p.path _) (hPath ▸ List.prefix_append q.path _)

theorem SameAddress.not_apart : ¬ Apart p.place q.place := by
  obtain ⟨hWraps, hSame⟩ := h.wraps_and_origin hOrigin
  rintro (hOther | hParted)
  · exact hOther ⟨h.fanout, hSame⟩
  · simp only [Position.place, Position.bytes, hWraps, Parted, List.prefix_append_right_inj] at hParted
    exact h.path_and_count.1.elim hParted.1 hParted.2

theorem SameAddress.not_behind : ¬ Behind p q := by
  obtain ⟨hWraps, -⟩ := h.wraps_and_origin hOrigin
  have hCount := h.path_and_count.2
  rintro (hFewer | ⟨-, hLess⟩)
  · rw [hWraps] at hFewer
    exact lt_irrefl _ hFewer
  · omega

end address

/-- The second position is reached from the first by draws and splits. -/
structure Extends (p q : Position β) : Prop where
  fanout : q.fanout = p.fanout
  origin : q.origin = p.origin
  bytes : ∃ s, q.bytes = p.bytes ++ s
  order : p.wraps.length < q.wraps.length ∨ p.wraps.length = q.wraps.length ∧ p.count ≤ q.count

theorem Extends.refl (p : Position β) : Extends p p :=
  ⟨rfl, rfl, ⟨[], (List.append_nil _).symm⟩, .inr ⟨rfl, Nat.le_refl _⟩⟩

theorem Extends.trans {p q r : Position β} (h : Extends p q) (h' : Extends q r) : Extends p r := by
  obtain ⟨s, hs⟩ := h.bytes
  obtain ⟨t, ht⟩ := h'.bytes
  refine ⟨h'.fanout.trans h.fanout, h'.origin.trans h.origin, ⟨s ++ t, ?_⟩, ?_⟩
  · rw [ht, hs, List.append_assoc]
  · have hOrder := h.order
    have hOrder' := h'.order
    omega

theorem Apart.extend {a : Place β} {p q : Position β} (h : Apart a p.place) (hExtends : Extends p q) :
    Apart a q.place := by
  obtain ⟨s, hs⟩ := hExtends.bytes
  rcases h with h | h
  · refine .inl fun hSame => h ?_
    exact ⟨hSame.1.trans hExtends.fanout, hSame.2.trans hExtends.origin⟩
  · refine .inr ?_
    change Parted a.bytes q.bytes
    rw [hs]
    exact h.append_right s

theorem Behind.extend {e p q : Position β} (h : Behind e p) (hExtends : Extends p q) : Behind e q := by
  have hOrder := hExtends.order
  unfold Behind at h ⊢
  omega

variable (c) in
/-- The generator stands at the position; `count_view` may be ahead of the last block. -/
structure At (g : Blake2b512Random β) (p : Position β) : Prop where
  digest : digestOf c p.fanout (p.blocks c) = some g.digest
  lastBlock : g.lastBlock = p.lastBlock
  pathPosition : g.pathPosition = p.path.length
  countLow : g.countLow < 2 ^ 64
  countHigh : g.countHigh < 2 ^ 64
  count : p.count ≤ g.countLow + 2 ^ 64 * g.countHigh

variable (c) in
def Yields (root : Bool) (p : Position β) (which : Bool) (symbols : List β) : Prop :=
  ∃ d, digestOf c p.fanout (p.blocks c) = some d ∧
    symbols = half which (c.compress ⟨d.chainValue, p.lastBlock.map c.ofByte, d.t0 + 128, 0, true, root⟩)

theorem yields_injective (hc : c.HalvesInjective) {root : Bool} {p q : Position β} {which which' : Bool}
    {symbols : List β} (h : Yields c root p which symbols) (h' : Yields c root q which' symbols) :
    SameAddress c p q ∧ which = which' := by
  obtain ⟨d, hDigest, hSymbols⟩ := h
  obtain ⟨d', hDigest', hSymbols'⟩ := h'
  obtain ⟨hInput, hWhich⟩ := hc _ _ _ _ (hSymbols.symm.trans hSymbols')
  simp only [CompressionInput.mk.injEq] at hInput
  obtain ⟨hChain, hBlock, hT0, -⟩ := hInput
  have hSame : d = d' := digest_eq_of_chainValue hDigest hDigest' hChain (by omega)
  obtain ⟨hFanout, hBlocks⟩ := digestOf_injective hc hDigest (hSame ▸ hDigest')
  exact ⟨⟨hFanout, hBlocks, List.map_injective_iff.mpr c.ofByte.injective hBlock⟩, hWhich⟩

end

end F1r3Node.Crypto
