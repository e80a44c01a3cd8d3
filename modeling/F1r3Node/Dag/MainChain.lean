import F1r3Node.Dag.Spine
import F1r3Node.Lib.Lineage
import Mathlib.Data.List.Chain

/-! # Walks along main parents and self-justifications

The index answers whether a block is on another's main chain by following main parents down to the block's height. In
a fully held DAG the answer is exact.
-/

namespace F1r3Node.Dag

open Shared Lib

namespace KeyValueDagRepresentation

variable (dag : KeyValueDagRepresentation)

def blockNumberUnsafe (hash : Bytes) : Except KvStoreError Int :=
  match dag.lookup hash with
  | some metadata => .ok metadata.blockNumber
  | none => .error (.missingBlock hash "block_number_unsafe")

def followMainParents (ancestor : Bytes) (stopHeight : Int) : Nat → Bytes → Except KvStoreError Bool
  | 0, _ => .error (.invalidArgument "out of fuel")
  | fuel + 1, current => do
    let currentHeight ← dag.blockNumberUnsafe current
    if currentHeight ≤ stopHeight then .ok (current = ancestor)
    else
      match dag.mainParent current with
      | none => .ok false
      | some parent => followMainParents ancestor stopHeight fuel parent

def isInMainChain (ancestor descendant : Bytes) : Except KvStoreError Bool :=
  if ancestor = descendant then .ok true
  else do
    let stopHeight ← dag.blockNumberUnsafe ancestor
    dag.followMainParents ancestor stopHeight (dag.records.length + 1) descendant

def chainLoop (stopAtHeight : Int) : Nat → Bytes → Except KvStoreError (List Bytes)
  | 0, _ => .error (.invalidArgument "out of fuel")
  | fuel + 1, current => do
    let currentBlockNumber ← dag.blockNumberUnsafe current
    if currentBlockNumber ≤ stopAtHeight then .ok []
    else
      match dag.mainParent current with
      | none => .ok []
      | some parent => do
        let rest ← chainLoop stopAtHeight fuel parent
        .ok (parent :: rest)

def mainParentChain (blockHash : Bytes) (stopAtHeight : Int) : Except KvStoreError (List Bytes) :=
  dag.chainLoop stopAtHeight (dag.records.length + 1) blockHash

def selfJustification (blockHash : Bytes) : Except KvStoreError (Option Bytes) :=
  match dag.lookup blockHash with
  | none => .error (.missingBlock blockHash "self_justification")
  | some metadata =>
    .ok ((metadata.justifications.find? (·.validator = metadata.sender)).map (·.latestBlockHash))

variable {dag}

variable {hash : Bytes} {m : BlockMetadata}

theorem blockNumberUnsafe_eq (h : dag.lookup hash = some m) :
    dag.blockNumberUnsafe hash = .ok m.blockNumber := by
  rw [blockNumberUnsafe, h]

theorem mainParent_eq (h : dag.lookup hash = some m) :
    dag.mainParent hash = m.parents.head? := by
  rw [mainParent, h]
  rfl

variable {a d : Bytes}

theorem FullyHeld.lookup_of_onSpine (hHeld : dag.FullyHeld) (h : dag.OnSpine a d) {md : BlockMetadata}
    (hd : dag.lookup d = some md) : ∃ ma, dag.lookup a = some ma := by
  induction h with
  | refl => exact ⟨md, hd⟩
  | @tail x y _ hStep ih =>
    obtain ⟨m, hm, hHead⟩ := mainParent_eq_some.mp hStep
    exact hHeld x m hm y (List.mem_of_head? hHead)

variable {ma : BlockMetadata}

theorem OnSpine.lookup (h : dag.OnSpine a d) (ha : dag.lookup a = some ma) :
    ∃ md, dag.lookup d = some md := by
  obtain hEq | ⟨next, hStep, -⟩ := Relation.ReflTransGen.cases_head h
  · exact ⟨ma, hEq ▸ ha⟩
  · obtain ⟨m, hm, -⟩ := mainParent_eq_some.mp hStep
    exact ⟨m, hm⟩

theorem OnSpine.antisymm {b : Bytes} (hab : dag.OnSpine a b) (hba : dag.OnSpine b a)
    (ha : dag.lookup a = some m) : a = b := by
  by_contra hNe
  obtain ⟨m', hb⟩ := hab.lookup ha
  have hLt := hab.blockNumber_lt hNe ha hb
  have hLe := hba.blockNumber_le hb ha
  omega

theorem onSpine_iff_of_mainParent {parent : Bytes} (h : dag.mainParent d = some parent) :
    dag.OnSpine a d ↔ a = d ∨ dag.OnSpine a parent :=
  lineage_iff_of_parent h

theorem onSpine_iff_of_root (h : dag.mainParent d = none) : dag.OnSpine a d ↔ a = d :=
  lineage_iff_of_root h

variable {ancestor : Bytes}

theorem FullyHeld.followMainParents_returns (hHeld : dag.FullyHeld)
    (ha : dag.lookup ancestor = some ma) {fuel : Nat} {current : Bytes}
    (hm : dag.lookup current = some m) (hFuel : dag.countBelow m.blockNumber < fuel) :
    Returns (dag.followMainParents ancestor ma.blockNumber fuel current)
      fun found => found = true ↔ dag.OnSpine ancestor current := by
  induction fuel generalizing current m with
  | zero => omega
  | succ fuel ih =>
    rw [followMainParents, blockNumberUnsafe_eq hm]
    change Returns (if m.blockNumber ≤ ma.blockNumber then _ else _) _
    split
    case isTrue hLow =>
      -- at or below the ancestor's height only the ancestor itself has it on its spine
      refine ⟨_, rfl, decide_eq_true_iff.trans ?_⟩
      constructor
      · rintro rfl
        exact .refl _
      · intro hOn
        by_contra hNe
        have hLt := hOn.blockNumber_lt (Ne.symm hNe) ha hm
        omega
    case isFalse hHigh =>
      have hNe : ancestor ≠ current := by
        rintro rfl
        obtain rfl := Option.some.inj (ha.symm.trans hm)
        exact hHigh (Int.le_refl _)
      cases hParent : dag.mainParent current with
      | none =>
        refine ⟨false, rfl, ?_⟩
        rw [onSpine_iff_of_root hParent]
        exact iff_of_false Bool.false_ne_true hNe
      | some parent =>
        obtain ⟨p, hp, hLt⟩ := hHeld.mainParent hm (mainParent_eq hm ▸ hParent)
        refine (ih hp (Nat.lt_of_lt_of_le (countBelow_lt hp hLt) (Nat.le_of_lt_succ hFuel))).imp fun found hFound => ?_
        rw [hFound, onSpine_iff_of_mainParent hParent]
        exact ⟨.inr, fun h => h.resolve_left hNe⟩

theorem FullyHeld.isInMainChain_returns (hHeld : dag.FullyHeld) {descendant : Bytes} {md : BlockMetadata}
    (ha : dag.lookup ancestor = some ma) (hd : dag.lookup descendant = some md) :
    Returns (dag.isInMainChain ancestor descendant) fun found => found = true ↔ dag.OnSpine ancestor descendant := by
  rw [isInMainChain]
  split
  case isTrue hEq =>
    refine ⟨true, rfl, iff_of_true rfl ?_⟩
    rw [hEq]
    exact .refl _
  case isFalse =>
    rw [blockNumberUnsafe_eq ha]
    exact hHeld.followMainParents_returns ha hd (Nat.lt_succ_of_le (countBelow_le _))

theorem isInMainChain_of_unheld {descendant : Bytes} (ha : dag.lookup ancestor = some ma)
    (hd : dag.lookup descendant = none) :
    dag.isInMainChain ancestor descendant = .error (.missingBlock descendant "block_number_unsafe") := by
  have hNe : ancestor ≠ descendant := by
    rintro rfl
    rw [ha] at hd
    cases hd
  rw [isInMainChain, if_neg hNe, blockNumberUnsafe_eq ha]
  change dag.followMainParents _ _ _ _ = _
  rw [followMainParents, blockNumberUnsafe, hd]
  rfl

theorem FullyHeld.chainLoop_returns (hHeld : dag.FullyHeld) {stop : Int} {fuel : Nat} {current : Bytes}
    (hm : dag.lookup current = some m) (hFuel : dag.countBelow m.blockNumber < fuel) :
    Returns (dag.chainLoop stop fuel current)
      fun chain => (current :: chain).IsChain fun x y => dag.mainParent x = some y := by
  induction fuel generalizing current m with
  | zero => omega
  | succ fuel ih =>
    rw [chainLoop, blockNumberUnsafe_eq hm]
    change Returns (if m.blockNumber ≤ stop then _ else _) _
    split
    · exact ⟨[], rfl, List.isChain_singleton current⟩
    · cases hParent : dag.mainParent current with
      | none => exact ⟨[], rfl, List.isChain_singleton current⟩
      | some parent =>
        obtain ⟨p, hp, hLt⟩ := hHeld.mainParent hm (mainParent_eq hm ▸ hParent)
        have hCount := countBelow_lt hp hLt
        refine (ih hp (by omega)).bind fun chain hChain => ⟨_, rfl, ?_⟩
        exact List.isChain_cons_cons.mpr ⟨hParent, hChain⟩

theorem FullyHeld.mainParentChain_returns (hHeld : dag.FullyHeld) {stop : Int}
    (hm : dag.lookup hash = some m) : Returns (dag.mainParentChain hash stop)
      fun chain => (hash :: chain).IsChain fun x y => dag.mainParent x = some y :=
  hHeld.chainLoop_returns hm (Nat.lt_succ_of_le (countBelow_le _))

theorem onSpine_of_mem_chain {top : Bytes} {chain : List Bytes}
    (hChain : (top :: chain).IsChain fun x y => dag.mainParent x = some y) : ∀ hash ∈ top :: chain,
      dag.OnSpine hash top := by
  induction chain generalizing top with
  | nil =>
    intro hash hMem
    rw [List.mem_singleton.mp hMem]
    exact .refl top
  | cons next chain ih =>
    obtain ⟨hStep, hRest⟩ := List.isChain_cons_cons.mp hChain
    intro hash hMem
    rcases List.mem_cons.mp hMem with rfl | hMem'
    · exact .refl _
    · exact (ih hRest hash hMem').trans (.single hStep)

theorem mem_chain_of_onSpine {top bottom : Bytes} {chain : List Bytes}
    (hBottom : dag.lookup bottom = some m) (hLast : (top :: chain).getLast? = some bottom)
    (hChain : (top :: chain).IsChain fun x y => dag.mainParent x = some y) (hBelow : dag.OnSpine hash top)
    (hAbove : dag.OnSpine bottom hash) : hash ∈ top :: chain := by
  induction chain generalizing top with
  | nil =>
    obtain rfl : top = bottom := Option.some.inj hLast
    rw [hAbove.antisymm hBelow hBottom]
    exact List.mem_cons_self
  | cons next chain ih =>
    obtain ⟨hStep, hRest⟩ := List.isChain_cons_cons.mp hChain
    rw [List.getLast?_cons_cons] at hLast
    rcases (onSpine_iff_of_mainParent hStep).mp hBelow with rfl | hBelow'
    · exact List.mem_cons_self
    · exact List.mem_cons_of_mem top (ih hLast hRest hBelow')

variable (dag) in
def SelfJustifies (hash previous : Bytes) : Prop := dag.selfJustification hash = .ok (some previous)

open Classical in
/-- The number of held blocks that come before a block in the chain of its sender's messages. -/
noncomputable def countBefore (dag : KeyValueDagRepresentation) (hash : Bytes) : Nat :=
  dag.records.countP fun m => Relation.TransGen dag.SelfJustifies hash m.blockHash

theorem countBefore_le (hash : Bytes) : dag.countBefore hash ≤ dag.records.length := List.countP_le_length

theorem countBefore_lt {previous : Bytes} (hAcyclic : ¬ Relation.TransGen dag.SelfJustifies previous previous)
    (h : dag.SelfJustifies hash previous) (hm : dag.lookup previous = some m) :
    dag.countBefore previous < dag.countBefore hash := by
  classical
  have hHash := blockHash_of_lookup hm
  refine countP_lt_countP (fun a _ ha => ?_) (mem_records_of_lookup hm) ?_ ?_
  · exact decide_eq_true (.head h (of_decide_eq_true ha))
  · exact decide_eq_true (hHash ▸ .single h)
  · exact decide_eq_false (hHash ▸ hAcyclic)

theorem mem_justifications_of_selfJustifies {previous : Bytes} (h : dag.SelfJustifies hash previous) :
    ∃ m, dag.lookup hash = some m ∧ ∃ justification ∈ m.justifications, justification.latestBlockHash = previous := by
  rw [SelfJustifies, selfJustification] at h
  cases hm : dag.lookup hash with
  | none =>
    rw [hm] at h
    cases h
  | some m =>
    rw [hm] at h
    obtain ⟨justification, hFind, hEq⟩ := Option.map_eq_some_iff.mp (Except.ok.inj h)
    exact ⟨m, rfl, justification, List.mem_of_find?_eq_some hFind, hEq⟩

end KeyValueDagRepresentation

end F1r3Node.Dag
