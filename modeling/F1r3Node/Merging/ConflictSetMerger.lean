import F1r3Node.Lib.UnionFind
import F1r3Node.Merging.NumberChannels
import F1r3Node.Merging.RejectionOptions
import Mathlib.Data.Int.Bitwise

/-! # Selecting what a merge rejects

Conflicting branches are rejected by the option that loses least, and branches whose number channels leave their range
on top of it. The order of a hash set is a parameter.
-/

namespace F1r3Node.Merging

open Shared Space Lib

structure HashOrder (α : Type) where
  iter : Finset α → List α
  iter_val : ∀ s, (iter s : Multiset α) = s.val

theorem HashOrder.mem_iter {α : Type} (order : HashOrder α) {s : Finset α} {a : α} : a ∈ order.iter s ↔ a ∈ s := by
  rw [← Multiset.mem_coe, order.iter_val, Finset.mem_val]

theorem HashOrder.nodup_iter {α : Type} (order : HashOrder α) (s : Finset α) : (order.iter s).Nodup := by
  rw [← Multiset.coe_nodup, order.iter_val]
  exact s.nodup

section sorting

variable {α : Type} [LinearOrder α]

instance instIsTransLe : IsTrans α (· ≤ ·) := inferInstance

instance instAntisymmLe : Std.Antisymm (α := α) (· ≤ ·) := inferInstance

instance instIsTransBytes : IsTrans Bytes (· ≤ ·) := inferInstance

instance instAntisymmBytes : Std.Antisymm (α := Bytes) (· ≤ ·) := inferInstance

instance instTotalBytes : Std.Total (α := Bytes) (· ≤ ·) := inferInstance

end sorting

def HashOrder.ascending (α : Type) [LinearOrder α] : HashOrder α :=
  ⟨fun s => s.sort (· ≤ ·), fun s => s.sort_eq _⟩

structure Branch (R : Type) where
  items : Finset R
  deriving DecidableEq

section compareBranches

variable {R : Type} [LinearOrder R]

def Branch.key (b : Branch R) : Nat ×ₗ List R := toLex (b.items.card, b.items.sort (· ≤ ·))

theorem Branch.key_injective : Function.Injective (Branch.key (R := R)) := by
  rintro ⟨s⟩ ⟨t⟩ h
  have hSort : s.sort (· ≤ ·) = t.sort (· ≤ ·) := congrArg (fun k => (ofLex k).2) h
  rw [← Finset.sort_toFinset s (· ≤ ·), hSort, Finset.sort_toFinset]

/-- `compare_branches`. -/
instance : LinearOrder (Branch R) where
  le a b := a.key ≤ b.key
  lt a b := a.key < b.key
  le_refl _ := le_refl (Branch.key _)
  le_trans _ _ _ := le_trans (α := Nat ×ₗ List R)
  lt_iff_le_not_ge _ _ := lt_iff_le_not_ge (α := Nat ×ₗ List R)
  le_antisymm _ _ hab hba := Branch.key_injective (le_antisymm hab hba)
  le_total _ _ := le_total (Branch.key _) (Branch.key _)
  toDecidableLE a b := inferInstanceAs (Decidable (a.key ≤ b.key))
  toDecidableEq := inferInstance

instance instIsTransBranch : IsTrans (Branch R) (· ≤ ·) := inferInstance

instance instAntisymmBranch : Std.Antisymm (α := Branch R) (· ≤ ·) := inferInstance

instance instTotalBranch : Std.Total (α := Branch R) (· ≤ ·) := inferInstance

end compareBranches

/-- The iteration orders of sets of items and of sets of branches. -/
structure HashOrders (R : Type) where
  items : HashOrder R
  branches : HashOrder (Branch R)

def integerAddBits : Nat := 256

def withinIntegerAddBound (v : Int) : Bool := v.natAbs < 2 ^ integerAddBits

def combineMergeableValue (a b : Int) : MergeType → Option Int
  | .integerAdd => some (a + b) |>.filter withinIntegerAddBound
  | .bitmaskOr => some (a.lor b)

def applyMergeableValue (base diff : Int) : MergeType → Option Int
  | .integerAdd => some (base + diff) |>.filter fun v => 0 ≤ v && withinIntegerAddBound v
  | .bitmaskOr => some (base.lor diff)

/-- The values of the number channels; a channel without an entry holds the default. -/
abbrev Balances := Bytes → Int

/-- The merge type of the first diff stays, the value is combined by the type of the new one. -/
def combineInto (diff : NumberChannelsDiff) (entry : Sigma fun _ : Bytes => Int × MergeType) :
    Option NumberChannelsDiff :=
  match diff.lookup entry.1 with
  | some existing => (combineMergeableValue existing.1 entry.2.1 entry.2.2).map fun combined =>
      diff.insert entry.1 (combined, existing.2)
  | none => some (diff.insert entry.1 entry.2)

def applyEntry (balances : Balances) (entry : Sigma fun _ : Bytes => Int × MergeType) : Option Balances :=
  (applyMergeableValue (balances entry.1) entry.2.1 entry.2.2).map (Function.update balances entry.1)

section selection

variable {R : Type} [LinearOrder R] (orders : HashOrders R) (mergeableChannels : R → NumberChannelsDiff)

def branchDiff (branch : Branch R) : Option NumberChannelsDiff :=
  ((orders.items.iter branch.items).flatMap fun r => (mergeableChannels r).entries).foldlM combineInto ∅

def calMergedResult (branch : Branch R) (originResult : Balances) : Option Balances :=
  (branchDiff orders mergeableChannels branch).bind fun diff => diff.entries.foldlM applyEntry originResult

def foldRejectionStep (st : Balances × Finset (Branch R)) (branch : Branch R) : Balances × Finset (Branch R) :=
  match calMergedResult orders mergeableChannels branch st.1 with
  | some newBalances => (newBalances, st.2)
  | none => (st.1, insert branch st.2)

def foldRejection (baseBalance : Balances) (branches : Finset (Branch R)) : Finset (Branch R) :=
  ((branches.sort (· ≤ ·)).foldl (foldRejectionStep orders mergeableChannels) (baseBalance, ∅)).2

def getMergedResultRejection (branches : Finset (Branch R)) (rejectOptions : Finset (Finset (Branch R)))
    (base : Balances) : Finset (Finset (Branch R)) :=
  if rejectOptions = ∅ then {foldRejection orders mergeableChannels base branches}
  else rejectOptions.image fun normalRejectOptions =>
    normalRejectOptions ∪ foldRejection orders mergeableChannels base (branches \ normalRejectOptions)

def rejectionCandidates (branches : Finset (Branch R)) (conflictMap : RelationMap (Branch R)) (base : Balances) :
    Finset (Finset (Branch R)) :=
  getMergedResultRejection orders mergeableChannels branches (computeRejectionOptions conflictMap) base

end selection

/-- Addition of `u64` values as `sum` does it. -/
def wrappingAdd (a b : Nat) : Nat := (a + b) % 2 ^ 64

def saturatingAdd (a b : Nat) : Nat := min (a + b) (2 ^ 64 - 1)

instance : Std.Commutative wrappingAdd := ⟨fun a b => by rw [wrappingAdd, Nat.add_comm, wrappingAdd]⟩

instance : Std.Associative wrappingAdd := ⟨fun a b c => by simp [wrappingAdd, Nat.add_assoc]⟩

/-- Prior losses of a set of rejected items: the highest and the total. -/
structure LossProfile where
  max : Nat
  sum : Nat
  deriving DecidableEq

def LossProfile.fold (a b : LossProfile) : LossProfile := ⟨Max.max a.max b.max, saturatingAdd a.sum b.sum⟩

instance : Std.Commutative LossProfile.fold := ⟨fun a b => by
  rw [LossProfile.fold, LossProfile.fold, Nat.max_comm, saturatingAdd, saturatingAdd, Nat.add_comm]⟩

instance : Std.Associative LossProfile.fold := ⟨fun a b c => by
  simp only [LossProfile.fold, LossProfile.mk.injEq, saturatingAdd]
  omega⟩

section objective

variable {R : Type} [LinearOrder R]

def branchLosses (priorLosses : R → Nat) (branch : Branch R) : LossProfile :=
  branch.items.fold LossProfile.fold ⟨0, 0⟩ fun item => ⟨priorLosses item, priorLosses item⟩

def branchCost (cost : R → Nat) (branch : Branch R) : Nat := branch.items.fold wrappingAdd 0 cost

def rejectionKey (targetF : Branch R → Nat) (lossesF : Branch R → LossProfile) (option : Finset (Branch R)) :
    Nat ×ₗ Nat ×ₗ Nat ×ₗ Nat ×ₗ List (Branch R) :=
  let losses := option.fold LossProfile.fold ⟨0, 0⟩ lossesF
  toLex (losses.max, toLex (losses.sum, toLex (option.fold wrappingAdd 0 targetF,
    toLex (∑ branch ∈ option, branch.items.card, option.sort (· ≤ ·)))))

def rejectionLE (targetF : Branch R → Nat) (lossesF : Branch R → LossProfile) (a b : Finset (Branch R)) : Prop :=
  rejectionKey targetF lossesF a ≤ rejectionKey targetF lossesF b

variable {targetF : Branch R → Nat} {lossesF : Branch R → LossProfile}

instance : DecidableRel (rejectionLE targetF lossesF) := fun a b =>
  inferInstanceAs (Decidable (rejectionKey targetF lossesF a ≤ rejectionKey targetF lossesF b))

instance : IsTrans (Finset (Branch R)) (rejectionLE targetF lossesF) := ⟨fun _ _ _ => le_trans⟩

instance : Std.Total (rejectionLE targetF lossesF) := ⟨fun _ _ => le_total _ _⟩

theorem rejectionKey_injective : Function.Injective (rejectionKey targetF lossesF) := by
  intro s t h
  have hSort : s.sort (· ≤ ·) = t.sort (· ≤ ·) :=
    congrArg (fun k => (ofLex (ofLex (ofLex (ofLex k).2).2).2).2) h
  rw [← Finset.sort_toFinset s (· ≤ ·), hSort, Finset.sort_toFinset]

instance : Std.Antisymm (rejectionLE targetF lossesF) :=
  ⟨fun _ _ hab hba => rejectionKey_injective (le_antisymm hab hba)⟩

def getOptimalRejection (options : Finset (Finset (Branch R))) (targetF : Branch R → Nat)
    (lossesF : Branch R → LossProfile) : Finset (Branch R) :=
  (options.sort (rejectionLE targetF lossesF)).head?.getD ∅

def preferPinnedDisjoint (rejectionOptions : Finset (Finset (Branch R))) (pinned : Finset R) :
    Finset (Finset (Branch R)) :=
  if pinned = ∅ then rejectionOptions
  else
    let admissible := rejectionOptions.filter fun option => ¬ ∃ branch ∈ option, ∃ item ∈ branch.items, item ∈ pinned
    if admissible = ∅ ∧ rejectionOptions ≠ ∅ then rejectionOptions else admissible

end objective

section select

variable {R : Type} [LinearOrder R] (orders : HashOrders R) (branches : Finset (Branch R))
  (conflictMap : RelationMap (Branch R)) (base : Balances) (mergeableChannels : R → NumberChannelsDiff)
  (cost priorLosses : R → Nat)

def selectRejectionExhaustive (pinned : Finset R) : Finset (Branch R) :=
  getOptimalRejection
    (preferPinnedDisjoint (rejectionCandidates orders mergeableChannels branches conflictMap base) pinned)
    (branchCost cost) (branchLosses priorLosses)

def joinPair (nodes : List (Branch R)) (parent : List Nat) (pair : Branch R × Branch R) : List Nat :=
  match nodes.idxOf? pair.1, nodes.idxOf? pair.2 with
  | some a, some b => UnionFind.unionRoots parent a b
  | _, _ => parent

def joinConflicts (nodes : List (Branch R)) (parent : List Nat) : List Nat :=
  (conflictMap.entries.flatMap fun entry => (orders.branches.iter entry.2).map (entry.1, ·)).foldl
    (joinPair nodes) parent

def joinChannel (st : List Nat × AList fun _ : Bytes => Nat) (touch : Nat × Bytes) :
    List Nat × AList fun _ : Bytes => Nat :=
  match st.2.lookup touch.2 with
  | some j => (UnionFind.unionRoots st.1 touch.1 j, st.2)
  | none => (st.1, st.2.insert touch.2 touch.1)

def channelTouches (nodes : List (Branch R)) : List (Nat × Bytes) :=
  nodes.zipIdx.flatMap fun node => (orders.items.iter node.1.items).flatMap fun item =>
    (mergeableChannels item).keys.map (node.2, ·)

def joinChannels (nodes : List (Branch R)) (parent : List Nat) : List Nat :=
  ((channelTouches orders mergeableChannels nodes).foldl joinChannel (parent, ∅)).1

def rejectionGroups (nodes : List (Branch R)) : List (List Nat) :=
  (UnionFind.groups (joinChannels orders mergeableChannels nodes
    (joinConflicts orders conflictMap nodes (List.range nodes.length)))).entries.map Sigma.snd

def addConflicts (m : RelationMap (Branch R)) (branch : Branch R) : RelationMap (Branch R) :=
  match conflictMap.lookup branch with
  | some conflicts => m.insert branch conflicts
  | none => m

def groupMap (members : List (Branch R)) : RelationMap (Branch R) := members.foldl (addConflicts conflictMap) ∅

def groupOptions : List (Finset (Finset (Branch R))) :=
  let nodes := orders.branches.iter branches
  (rejectionGroups orders conflictMap mergeableChannels nodes).map fun members =>
    let group := members.filterMap (nodes[·]?)
    rejectionCandidates orders mergeableChannels group.toFinset (groupMap conflictMap group) base

def optionMaxLosses (option : Finset (Branch R)) : Nat := option.sup fun branch => (branchLosses priorLosses branch).max

def leastMaxLosses (options : Finset (Finset (Branch R))) : Nat :=
  (options.image (optionMaxLosses priorLosses)).min.untopD 0

/-- With nothing pinned each group is decided on its own, under the highest maximum of losses that
some group cannot avoid. -/
def selectRejection (pinned : Finset R) : Finset (Branch R) :=
  if pinned ≠ ∅ then
    selectRejectionExhaustive orders branches conflictMap base mergeableChannels cost priorLosses pinned
  else
    let options := groupOptions orders branches conflictMap base mergeableChannels
    let maxLosses := (options.map (leastMaxLosses priorLosses)).foldl max 0
    options.foldl (fun optimal options =>
      optimal ∪ getOptimalRejection (options.filter fun option => optionMaxLosses priorLosses option ≤ maxLosses)
        (branchCost cost) fun branch => ⟨0, (branchLosses priorLosses branch).sum⟩) ∅

end select

structure ResolvedConflicts (R : Type) where
  toMerge : List (Branch R)
  rejected : Finset R

section resolve

variable {R : Type} [LinearOrder R] (orders : HashOrders R) (actualSeq lateSeq : List R) (depends : R → R → Bool)
  (cost priorLosses : R → Nat) (mergeableChannels : R → NumberChannelsDiff)
  (getData : Bytes → Except HistoryError (List (Datum ListParWithRandom)))
  (computeBranches : Finset R → Finset (Branch R))
  (computeConflictMap : Finset (Branch R) → Except HistoryError (RelationMap (Branch R))) (pinned : Finset R)

def rejectedAsDependents : Finset R :=
  actualSeq.toFinset.filter fun item => ∃ lateItem ∈ lateSeq.toFinset, depends item lateItem

def mergeSet : Finset R :=
  actualSeq.toFinset.filter fun item => ¬ ∃ lateItem ∈ lateSeq.toFinset, depends item lateItem

def allChannelKeys (branches : Finset (Branch R)) : List Bytes :=
  (branches.biUnion fun branch => branch.items.biUnion fun item => (mergeableChannels item).keys.toFinset).sort (· ≤ ·)

def readBase (balances : Balances) (channel : Bytes) : Except HistoryError Balances :=
  (convertToReadNumber getData channel).map fun value => Function.update balances channel (value.getD 0)

def baseMergeableChRes (branches : Finset (Branch R)) : Except HistoryError Balances :=
  (allChannelKeys mergeableChannels branches).foldlM (readBase getData) fun _ => 0

def resolveConflicts : Except HistoryError (ResolvedConflicts R) := do
  let branches := computeBranches (mergeSet actualSeq lateSeq depends)
  let conflictMap ← computeConflictMap branches
  let base ← baseMergeableChRes mergeableChannels getData branches
  let optimalRejection := selectRejection orders branches conflictMap base mergeableChannels cost priorLosses pinned
  return {
    toMerge := (orders.branches.iter branches).filter (· ∉ optimalRejection)
    rejected := lateSeq.toFinset ∪ rejectedAsDependents actualSeq lateSeq depends ∪
      optimalRejection.biUnion Branch.items }

end resolve

end F1r3Node.Merging
