import F1r3Node.Casper.BlockMessage
import F1r3Node.Merging.MergedState

/-! # Chains of deploys

The logs and changes of a chain are immutable and shared, so a chain is told by its deploys and its block, and its
contents are looked up by them.
-/

namespace F1r3Node.Merging

open Shared

namespace EventLogIndex

def empty : EventLogIndex where
  producesLinear := .empty _
  producesPersistent := .empty _
  producesConsumed := .empty _
  producesPeeked := .empty _
  producesCopiedByPeek := .empty _
  producesTouchingBaseJoins := .empty _
  consumesLinearAndPeeks := .empty _
  consumesPersistent := .empty _
  consumesProduced := .empty _
  producesMergeable := .empty _
  consumesMergeable := .empty _
  numberChannelsData := ∅

def producesCreated (e : EventLogIndex) : ProduceSet :=
  (e.producesLinear.union e.producesPersistent).diff e.producesCopiedByPeek

end EventLogIndex

structure EventLogIndexFold where
  index : EventLogIndex
  created : ProduceSet

namespace EventLogIndexFold

def default : EventLogIndexFold := ⟨.empty, .empty _⟩

def foldNumberChannels (numberChannelsData other : NumberChannelsDiff) : Except HistoryError NumberChannelsDiff :=
  other.entries.foldlM (foldNumberChannel mergeTypeMismatch fun channel existing incoming =>
    .mergeError ("IntegerAdd overflow combining mergeable channel " ++ displayHash channel ++ " (" ++
      toString existing ++ " + " ++ toString incoming ++ ")")) numberChannelsData

def add (self : EventLogIndexFold) (other : EventLogIndex) : Except HistoryError EventLogIndexFold := do
  let index := self.index
  let numberChannelsData ← foldNumberChannels index.numberChannelsData other.numberChannelsData
  return {
    index := {
      producesLinear := index.producesLinear.append other.producesLinear
      producesPersistent := index.producesPersistent.append other.producesPersistent
      producesConsumed := index.producesConsumed.append other.producesConsumed
      producesPeeked := index.producesPeeked.append other.producesPeeked
      producesCopiedByPeek := index.producesCopiedByPeek.append other.producesCopiedByPeek
      producesTouchingBaseJoins := index.producesTouchingBaseJoins.append other.producesTouchingBaseJoins
      consumesLinearAndPeeks := index.consumesLinearAndPeeks.append other.consumesLinearAndPeeks
      consumesPersistent := index.consumesPersistent.append other.consumesPersistent
      consumesProduced := index.consumesProduced.append other.consumesProduced
      producesMergeable := index.producesMergeable.append other.producesMergeable
      consumesMergeable := index.consumesMergeable.append other.consumesMergeable
      numberChannelsData }
    created := self.created.append other.producesCreated }

def finish (self : EventLogIndexFold) : EventLogIndex :=
  { self.index with producesCopiedByPeek := self.index.producesCopiedByPeek.diff self.created }

end EventLogIndexFold

def EventLogIndex.combineAll (indices : List EventLogIndex) : Except HistoryError EventLogIndex :=
  (indices.foldlM EventLogIndexFold.add .default).map EventLogIndexFold.finish

def slashMarker : UInt8 := 0x01

def closeBlockMarker : UInt8 := 0x02

def heartbeatMarker : UInt8 := 0x03

def systemDeployIdLen : Nat := 33

def isSystemDeployId (id : Bytes) : Bool :=
  id.length = systemDeployIdLen ∧
    (id[32]? = some slashMarker ∨ id[32]? = some closeBlockMarker ∨ id[32]? = some heartbeatMarker)

def isSlashDeployId (id : Bytes) : Bool := id.length = systemDeployIdLen ∧ id[32]? = some slashMarker

structure DeployIdWithCost where
  deployId : Bytes
  cost : Nat
  deriving DecidableEq

def DeployIdWithCost.key (deploy : DeployIdWithCost) : Bytes ×ₗ Nat := toLex (deploy.deployId, deploy.cost)

theorem DeployIdWithCost.key_injective : Function.Injective DeployIdWithCost.key := by
  rintro ⟨id, cost⟩ ⟨id', cost'⟩ h
  obtain ⟨rfl, rfl⟩ := Prod.mk.inj (toLex_inj.mp h)
  rfl

instance : LinearOrder DeployIdWithCost where
  le a b := a.key ≤ b.key
  lt a b := a.key < b.key
  le_refl a := le_refl a.key
  le_trans a b c := @le_trans _ _ a.key b.key c.key
  lt_iff_le_not_ge a b := @lt_iff_le_not_ge _ _ a.key b.key
  le_antisymm _ _ hab hba := DeployIdWithCost.key_injective (le_antisymm hab hba)
  le_total a b := le_total a.key b.key
  toDecidableLE a b := inferInstanceAs (Decidable (a.key ≤ b.key))
  toDecidableEq := inferInstance

structure DeployChainIndex where
  deploysWithCost : Finset DeployIdWithCost
  postStateHash : Bytes
  sourceBlockHash : Bytes
  sourceBlockNumber : Int
  /-- Rejections on record for the deploys of the chain. -/
  priorRejections : Nat
  deriving DecidableEq

structure ChainContents where
  eventLogIndex : EventLogIndex
  userEventLogIndex : EventLogIndex
  systemEventLogIndex : EventLogIndex
  stateChanges : StateChange
  /-- The first block a user deploy is valid after. -/
  deployWindows : AList fun _ : Bytes => Int

namespace DeployChainIndex

def totalCost (chain : DeployChainIndex) : Nat := chain.deploysWithCost.fold wrappingAdd 0 DeployIdWithCost.cost

def maxCost (chain : DeployChainIndex) : Nat := chain.deploysWithCost.sup DeployIdWithCost.cost

def minDeployId (chain : DeployChainIndex) : WithBot Bytes :=
  ((chain.deploysWithCost.image DeployIdWithCost.deployId).sort (· ≤ ·)).head?

/-- Costs descending, then the least id, the state and the deploys by length and members. What follows
separates chains that share all of these. -/
def key (chain : DeployChainIndex) :
    Natᵒᵈ ×ₗ Natᵒᵈ ×ₗ WithBot Bytes ×ₗ Bytes ×ₗ Nat ×ₗ List DeployIdWithCost ×ₗ Bytes ×ₗ Int ×ₗ Nat :=
  toLex (.toDual chain.totalCost, toLex (.toDual chain.maxCost, toLex (chain.minDeployId, toLex (chain.postStateHash,
    toLex (chain.deploysWithCost.card, toLex (chain.deploysWithCost.sort (· ≤ ·), toLex (chain.sourceBlockHash,
      toLex (chain.sourceBlockNumber, chain.priorRejections))))))))

theorem key_injective : Function.Injective key := by
  rintro ⟨deploys, post, source, number, prior⟩ ⟨deploys', post', source', number', prior'⟩ h
  simp only [key, toLex_inj, Prod.mk.injEq] at h
  obtain ⟨-, -, -, rfl, -, hDeploys, rfl, rfl, rfl⟩ := h
  rw [← Finset.sort_toFinset deploys (· ≤ ·), hDeploys, Finset.sort_toFinset]

instance : LinearOrder DeployChainIndex where
  le a b := a.key ≤ b.key
  lt a b := a.key < b.key
  le_refl a := le_refl a.key
  le_trans a b c := @le_trans _ _ a.key b.key c.key
  lt_iff_le_not_ge a b := @lt_iff_le_not_ge _ _ a.key b.key
  le_antisymm _ _ hab hba := key_injective (le_antisymm hab hba)
  le_total a b := le_total a.key b.key
  toDecidableLE a b := inferInstanceAs (Decidable (a.key ≤ b.key))
  toDecidableEq := inferInstance

def userDeploys (chain : DeployChainIndex) : Finset Bytes :=
  (chain.deploysWithCost.image DeployIdWithCost.deployId).filter fun id => ¬ isSystemDeployId id

theorem mem_userDeploys {chain : DeployChainIndex} {sig : Bytes} : sig ∈ chain.userDeploys ↔
    (∃ deploy ∈ chain.deploysWithCost, deploy.deployId = sig) ∧ isSystemDeployId sig = false := by
  rw [userDeploys, Finset.mem_filter, Finset.mem_image, Bool.not_eq_true]

end DeployChainIndex

/-- The chains of a block. The deploys of a block have distinct signatures and every one is in a
single chain. -/
structure BlockIndex (blockHash : Bytes) where
  deployChains : List DeployChainIndex
  source_eq : ∀ chain ∈ deployChains, chain.sourceBlockHash = blockHash
  user_unique : ∀ chain ∈ deployChains, ∀ other ∈ deployChains, ∀ sig ∈ chain.userDeploys,
    sig ∈ other.userDeploys → chain = other

end F1r3Node.Merging
