import F1r3Node.DagStorage.InsertRun
import F1r3Node.Lib.LevelSearch

/-! # Recording finalized blocks

A call walks the unfinalized ancestors that are held, lets its effect run on them without the lock, and repeats until
the walk finds nothing new; then it marks what the effect was applied to.
-/

namespace F1r3Node.DagStorage

open Shared
open Casper (BlockMessage)
open Lib (LevelSearch.search)

variable {S : Type}

def BlockDagStorage.heldParents (dag : BlockDagStorage) (filter : Bytes → Bool) (hash : Bytes) : List Bytes :=
  ((dag.lookup hash).map (·.parents)).getD [] |>.filter fun parent => filter parent && (dag.lookup parent).isSome

def heldAncestors (dag : BlockDagStorage) (hash : Bytes) (filter : Bytes → Bool) : Except StoreError (Finset Bytes) :=
  match dag.lookup hash with
  | none => .error (.keyNotFound "lookup_unsafe" hash)
  | some _ => .ok (LevelSearch.search (dag.heldParents filter) (dag.dagSet.card + 1) [hash] ∅)

def maxFinalizationReconcileLoops : Nat := 128

inductive Phase where
  | snapshot (attempts : Nat)
  | effect (attempts : Nat) (pending : Finset Bytes)
  /-- The marks are written next; a failure is returned after that. -/
  | persist (failure : Option StoreError)

/-- A call of `record_directly_finalized` that has not returned. -/
structure FinalizationCall where
  directlyFinalizedHash : Bytes
  effectApplied : Finset Bytes
  phase : Phase

inductive CallResult where
  | running (call : FinalizationCall)
  | returned (result : Except StoreError Unit)

def FinalizationCall.takeSnapshot (call : FinalizationCall) (dag : BlockDagStorage) (attempts : Nat) : CallResult :=
  if maxFinalizationReconcileLoops ≤ attempts then
    .running { call with phase := .persist (some (.ioError "record_directly_finalized exceeded reconcile loops")) }
  else if dag.contains call.directlyFinalizedHash = false then
    .returned (.error (.invalidArgument "Attempting to finalize nonexistent hash" call.directlyFinalizedHash))
  else
    match heldAncestors dag call.directlyFinalizedHash fun hash => !dag.isFinalized hash with
    | .error e => .returned (.error e)
    | .ok indirectly =>
      let pending := insert call.directlyFinalizedHash indirectly \ call.effectApplied
      if pending = ∅ then .running { call with phase := .persist none }
      else .running { call with phase := .effect attempts pending }

def resultOf : Option StoreError → Except StoreError Unit
  | none => .ok ()
  | some e => .error e

/-- Marks what the effect was applied to; a failed call that applied none has nothing to mark. -/
def FinalizationCall.persistEffectApplied (call : FinalizationCall) (order : HashOrder) (failure : Option StoreError)
    (dag : BlockDagStorage) : BlockDagStorage × CallResult :=
  if failure.isSome ∧ call.effectApplied = ∅ then (dag, .returned (resultOf failure))
  else
    match (recordFinalized order .none call.directlyFinalizedHash
      (call.effectApplied.erase call.directlyFinalizedHash)).run dag with
    | .ok _ dag' => (dag', .returned (resultOf failure))
    | .error e dag' => (dag', .returned (.error e))

/-- The next step of a call; `outcome` is what the effect returned, if it is the effect that is waited for. -/
def FinalizationCall.step (order : HashOrder) (dag : BlockDagStorage) (call : FinalizationCall)
    (outcome : Option StoreError) : BlockDagStorage × CallResult :=
  match call.phase with
  | .snapshot attempts => (dag, call.takeSnapshot dag attempts)
  | .effect attempts pending =>
    match outcome with
    | none => (dag, .running { call with
        effectApplied := call.effectApplied ∪ pending, phase := .snapshot (attempts + 1) })
    | some e => (dag, .running { call with phase := .persist (some e) })
  | .persist failure => call.persistEffectApplied order failure dag

section runs

variable (parentsOf : Bytes → List Bytes)

def IsAncestor (ancestor descendant : Bytes) : Prop :=
  Relation.TransGen (fun x p => p ∈ parentsOf x) descendant ancestor

def BelowAnchor (anchors : List Bytes) (hash : Bytes) : Prop := ∃ a ∈ anchors, IsAncestor parentsOf hash a

structure FinalizationState where
  dag : BlockDagStorage
  anchors : List Bytes
  calls : List FinalizationCall

def withAnchor (anchors : List Bytes) (hash : Bytes) (mode : InsertMode) : List Bytes :=
  if mode = .approved then hash :: anchors else anchors

def CallResult.calls : CallResult → List FinalizationCall
  | .running call => [call]
  | .returned _ => []

/-- Blocks come after their parents, ancestors of an anchor excepted; calls start at any time and take their steps in
any order. -/
inductive FinalizationStep (S : Type) (order : HashOrder) (state : FinalizationState) : FinalizationState → Prop where
  | insert {block : BlockMessage ProcessedDeploy S} {mode : InsertMode} {dag : BlockDagStorage}
      (named : block.header.parentsHashList = parentsOf block.blockHash)
      (ordered : ∀ p ∈ parentsOf block.blockHash, p ∈ state.dag.dagSet ∨
        BelowAnchor parentsOf (withAnchor state.anchors block.blockHash mode) p)
      (insert : InsertsTo order block mode state.dag dag) :
      FinalizationStep S order state { state with dag, anchors := withAnchor state.anchors block.blockHash mode }
  | start (hash : Bytes) :
      FinalizationStep S order state { state with calls := ⟨hash, ∅, .snapshot 0⟩ :: state.calls }
  | call {before after : List FinalizationCall} {call : FinalizationCall} (outcome : Option StoreError)
      (calls : state.calls = before ++ call :: after) :
      FinalizationStep S order state { state with
        dag := (call.step order state.dag outcome).1
        calls := before ++ (call.step order state.dag outcome).2.calls ++ after }

inductive FinalizationReached (S : Type) (order : HashOrder) : FinalizationState → Prop where
  | initial (genesis : Option Bytes) : FinalizationReached S order ⟨{ BlockDagStorage.empty with genesisHashIndex := genesis }, [], []⟩
  | step {state state' : FinalizationState} (reached : FinalizationReached S order state)
      (step : FinalizationStep parentsOf S order state state') : FinalizationReached S order state'

end runs

section marks

variable {order : HashOrder} {s s' : BlockDagStorage} {hash : Bytes} {mode : InsertMode}
  {block : BlockMessage ProcessedDeploy S}

def BlockDagStorage.Marked (s : BlockDagStorage) (h : Bytes) : Prop := (s.metadataStore h).any (·.finalized) = true

theorem pruneFinalizedCacheIfNeeded_subset (order : HashOrder) (cache : Finset Bytes) :
    pruneFinalizedCacheIfNeeded order cache ⊆ cache := by
  rw [pruneFinalizedCacheIfNeeded]
  split
  · exact Finset.Subset.refl cache
  · exact Finset.sdiff_subset

theorem marked_finalizedMarks {number : Int} {indirectly : Finset Bytes} {h : Bytes} :
    (s.finalizedMarks order hash number indirectly).Marked h ↔
      s.Marked h ∨ (h = hash ∨ h ∈ indirectly) ∧ s.metadataStore h ≠ none := by
  rw [BlockDagStorage.Marked, BlockDagStorage.Marked]
  change ((s.metadataStore h).map _).any _ = true ↔ _
  cases s.metadataStore h with
  | none => simp
  | some row =>
    by_cases hEq : h = hash
    · simp [hEq]
    · by_cases hMem : h ∈ indirectly
      · simp [hEq, hMem]
      · simp [hEq, hMem]

theorem cache_finalizedMarks {number : Int} {indirectly : Finset Bytes} {h : Bytes}
    (hMem : h ∈ (s.finalizedMarks order hash number indirectly).finalizedBlockSet) :
    h ∈ s.finalizedBlockSet ∨ h = hash ∨ h ∈ indirectly := by
  have hInsert := pruneFinalizedCacheIfNeeded_subset order _ hMem
  rw [Finset.mem_insert, Finset.mem_union] at hInsert
  obtain hEq | hOld | hNew := hInsert
  · exact .inr (.inl hEq)
  · exact .inl hOld
  · exact .inr (.inr hNew)

theorem Finished.marks (h : Finished order hash mode s s') :
    (∀ x, s'.Marked x ↔ s.Marked x ∨ mode = .approved ∧ x = hash) ∧
      ∀ x ∈ s'.finalizedBlockSet, x ∈ s.finalizedBlockSet ∨ mode = .approved ∧ x = hash := by
  cases h with
  | kept hMode hEq =>
    subst hEq
    exact ⟨fun x => (or_iff_left fun h => hMode h.1).symm, fun x hx => .inl hx⟩
  | marked row hMode hRow hEq =>
    subst hEq
    refine ⟨fun x => ?_, fun x hx => ?_⟩
    · rw [marked_finalizedMarks]
      refine or_congr_right ⟨?_, ?_⟩
      · rintro ⟨hx | hx, -⟩
        · exact ⟨hMode, hx⟩
        · exact absurd hx (Finset.notMem_empty x)
      · rintro ⟨-, rfl⟩
        exact ⟨.inl rfl, by simp [hRow]⟩
    · obtain hOld | hx | hx := cache_finalizedMarks hx
      · exact .inl hOld
      · exact .inr ⟨hMode, hx⟩
      · exact absurd hx (Finset.notMem_empty x)

theorem InsertsTo.marks (h : InsertsTo order block mode s s') (hRow : s.RowsMatch) :
    (∀ x, s'.Marked x ↔ s.Marked x ∨ mode = .approved ∧ x = block.blockHash) ∧
      ∀ x ∈ s'.finalizedBlockSet, x ∈ s.finalizedBlockSet ∨ mode = .approved ∧ x = block.blockHash := by
  by_cases hMem : block.blockHash ∈ s.dagSet
  · exact (h.held hMem).marks
  · obtain ⟨rep, hRun⟩ := h
    obtain ⟨-, u, hVisible, -, hDone⟩ := finished_of_fresh hRun hMem
    have hNone : s.metadataStore block.blockHash = none := not_not.mp (mt (hRow _).mpr hMem)
    have hMarked : ∀ x, (u.advanced .none block mode).Marked x ↔ s.Marked x := by
      intro x
      rw [BlockDagStorage.Marked, BlockDagStorage.Marked, metadataStore_advanced, hVisible.metadataStore_eq]
      by_cases hEq : x = block.blockHash
      · subst hEq
        rw [Function.update_self, hNone]
        simp
      · rw [Function.update_of_ne hEq]
    have hCache : (u.advanced .none block mode).finalizedBlockSet = s.finalizedBlockSet := by
      rw [finalizedBlockSet_advanced, hVisible.finalizedBlockSet_eq]
    refine ⟨fun x => ?_, fun x hx => ?_⟩
    · rw [hDone.marks.1, hMarked]
    · exact hCache ▸ hDone.marks.2 x hx

end marks

end F1r3Node.DagStorage
