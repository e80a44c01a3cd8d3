import F1r3Node.Casper.BlockMessage

/-! # What a signed block commits its sender to

The justifications are not part of the hash preimage, so whoever relays an accepted block can replace them.
-/

namespace F1r3Node.Casper

open Shared

/-- `Secp256k1::verify` on data, signature and public key. -/
abbrev Verifier := Bytes → Bytes → Bytes → Bool

inductive InvalidBlock where
  | invalidBlockHash
  deriving DecidableEq

inductive ValidBlock where
  | valid
  deriving DecidableEq

namespace Validate

def signatureAlgorithmSupported (algorithm : String) : Bool := algorithm == "secp256k1"

def verifySignature (verify : Verifier) (algorithm : String) (data signature pubKey : Bytes) : Bool :=
  if algorithm = "secp256k1" then verify data signature pubKey else false

variable {D S : Type*}

def blockSignature (verify : Verifier) (b : BlockMessage D S) : Bool :=
  if !signatureAlgorithmSupported b.sigAlgorithm then false
  else verifySignature verify b.sigAlgorithm b.blockHash b.sig b.sender

def blockHash (E : BlockCodec D S) (b : BlockMessage D S) : Except InvalidBlock ValidBlock :=
  if b.blockHash = hashBlock E b then .ok .valid else .error .invalidBlockHash

end Validate

/-- The key pair of a validator; the private key enters only through what it signs. -/
structure ValidatorIdentity where
  publicKey : Bytes
  sign : Bytes → Bytes
  signatureAlgorithm : String := "secp256k1"

section

variable {D S : Type*} (E : BlockCodec D S) (verify : Verifier)

def ValidatorIdentity.signBlock (v : ValidatorIdentity) (block : BlockMessage D S) : BlockMessage D S :=
  let newBlock := { block with sigAlgorithm := v.signatureAlgorithm, sender := v.publicKey }
  let blockHash := hashBlock E newBlock
  { newBlock with sig := v.sign blockHash, blockHash := blockHash }

def Accepted (b : BlockMessage D S) : Prop :=
  Validate.blockSignature verify b = true ∧ Validate.blockHash E b = .ok .valid

def SameIdentity (b b' : BlockMessage D S) : Prop :=
  b.blockHash = b'.blockHash ∧ b.sig = b'.sig ∧ b.sender = b'.sender

/-- No other accepted message under the identity of `b` carries other votes. -/
def VotesBound (b : BlockMessage D S) : Prop :=
  ∀ b', SameIdentity b b' → Accepted E verify b' → b.justifications.Perm b'.justifications

def BlockMessage.withJustifications (b : BlockMessage D S) (js : List Justification) : BlockMessage D S :=
  { b with justifications := js }

variable {E verify}

@[simp] theorem hashBlock_withJustifications (b : BlockMessage D S) (js : List Justification) :
    hashBlock E (b.withJustifications js) = hashBlock E b := rfl

theorem accepted_iff (b : BlockMessage D S) :
    Accepted E verify b ↔ b.sigAlgorithm = "secp256k1" ∧ verify b.blockHash b.sig b.sender = true ∧
      b.blockHash = hashBlock E b := by
  unfold Accepted Validate.blockSignature Validate.blockHash Validate.verifySignature
    Validate.signatureAlgorithmSupported
  by_cases hAlg : b.sigAlgorithm = "secp256k1" <;>
    by_cases hHash : b.blockHash = hashBlock E b <;> simp [hAlg, hHash]

theorem accepted_withJustifications_iff (b : BlockMessage D S) (js : List Justification) :
    Accepted E verify (b.withJustifications js) ↔ Accepted E verify b := by
  rw [accepted_iff, accepted_iff, hashBlock_withJustifications]
  rfl

theorem sameIdentity_withJustifications (b : BlockMessage D S) (js : List Justification) :
    SameIdentity b (b.withJustifications js) :=
  ⟨rfl, rfl, rfl⟩

theorem accepted_signBlock (v : ValidatorIdentity) (block : BlockMessage D S)
    (hAlg : v.signatureAlgorithm = "secp256k1")
    (hSign : ∀ data, verify data (v.sign data) v.publicKey = true) :
    Accepted E verify (v.signBlock E block) :=
  (accepted_iff _).mpr ⟨hAlg, hSign _, rfl⟩

/-- Every accepted block can be relayed, under its own hash, signature and sender,
with any justifications whatsoever; no accepted block binds its votes. -/
theorem accepted_block_never_binds_votes (b : BlockMessage D S) (hAccepted : Accepted E verify b) :
    (∀ js, SameIdentity b (b.withJustifications js) ∧ Accepted E verify (b.withJustifications js)) ∧
      ¬ VotesBound E verify b := by
  have hAny : ∀ js, Accepted E verify (b.withJustifications js) := fun js =>
    (accepted_withJustifications_iff b js).mpr hAccepted
  refine ⟨fun js => ⟨sameIdentity_withJustifications b js, hAny js⟩, ?_⟩
  intro hBound
  have hPerm := hBound (b.withJustifications (⟨[], []⟩ :: b.justifications))
    (sameIdentity_withJustifications b _) (hAny _)
  have hLength : b.justifications.length = b.justifications.length + 1 := hPerm.length_eq
  omega

end

def appendVerifier : Verifier := fun data signature pubKey => signature == pubKey ++ data

def exampleCodec : BlockCodec Unit Unit where
  blake := paddingDigest
  headerProto h := h.parentsHashList.flatten
  rejectedDeployProto r := r.sig
  processedDeployProto _ := []
  processedSystemDeployProto _ := []

def exampleIdentity : ValidatorIdentity where
  publicKey := [7]
  sign data := [7] ++ data

def exampleBlock : BlockMessage Unit Unit :=
  exampleIdentity.signBlock exampleCodec
    { blockHash := [], header := ⟨[[1]], 0, 1, []⟩
      body := ⟨⟨[2], [3], [⟨[7], 1⟩], 1⟩, [()], [], [], [], [], []⟩
      justifications := [⟨[8], [9]⟩]
      sender := [], seqNum := 1, sig := [], sigAlgorithm := "", shardId := "root", extraBytes := [] }

theorem accepted_exampleBlock : Accepted exampleCodec appendVerifier exampleBlock :=
  accepted_signBlock exampleIdentity _ rfl (by intro data; simp [appendVerifier, exampleIdentity])

theorem accepted_exampleBlock_never_binds_votes :
    Accepted exampleCodec appendVerifier exampleBlock ∧
      ¬ VotesBound exampleCodec appendVerifier exampleBlock :=
  ⟨accepted_exampleBlock, (accepted_block_never_binds_votes exampleBlock accepted_exampleBlock).2⟩

/-- The example block and its copy without the vote pass both checks under one
hash, signature and sender, and disagree on the justifications. -/
theorem exampleBlock_votes_replaced :
    SameIdentity exampleBlock (exampleBlock.withJustifications []) ∧
      Accepted exampleCodec appendVerifier exampleBlock ∧
      Accepted exampleCodec appendVerifier (exampleBlock.withJustifications []) ∧
      ¬ exampleBlock.justifications.Perm (exampleBlock.withJustifications []).justifications := by
  refine ⟨sameIdentity_withJustifications _ _, accepted_exampleBlock,
    (accepted_withJustifications_iff _ _).mpr accepted_exampleBlock, ?_⟩
  intro hPerm
  exact absurd hPerm.length_eq (by decide)

end F1r3Node.Casper
