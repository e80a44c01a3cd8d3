import F1r3Node.DagStorage.Finalization

/-! # Finalized blocks have finalized ancestors

The marks are closed under parents, but for ancestors of approved anchors.
-/

namespace F1r3Node.DagStorage

open Shared Dag Lib.Stateful
open Casper (BlockMessage)

variable {S : Type} {parentsOf : Bytes → List Bytes} {order : HashOrder}

theorem BelowAnchor.mono {anchors anchors' : List Bytes} {h : Bytes} (hBelow : BelowAnchor parentsOf anchors h)
    (hSub : ∀ a ∈ anchors, a ∈ anchors') : BelowAnchor parentsOf anchors' h := by
  obtain ⟨a, ha, hAncestor⟩ := hBelow
  exact ⟨a, hSub a ha, hAncestor⟩

theorem BelowAnchor.parent {anchors : List Bytes} {h p : Bytes} (hBelow : BelowAnchor parentsOf anchors h)
    (hp : p ∈ parentsOf h) : BelowAnchor parentsOf anchors p := by
  obtain ⟨a, ha, hAncestor⟩ := hBelow
  exact ⟨a, ha, hAncestor.tail hp⟩

theorem mem_withAnchor {anchors : List Bytes} {hash a : Bytes} {mode : InsertMode} (ha : a ∈ anchors) :
    a ∈ withAnchor anchors hash mode := by
  rw [withAnchor]
  split
  · exact List.mem_cons_of_mem hash ha
  · exact ha

/-- Records and marks, the parents of held blocks, and the parents of marked ones. -/
structure Ancestral (parentsOf : Bytes → List Bytes) (anchors : List Bytes) (dag : BlockDagStorage) : Prop where
  row : dag.RowsMatch
  parents : ∀ h m, dag.lookup h = some m → m.parents = parentsOf h
  ordered : ∀ x ∈ dag.dagSet, ∀ p ∈ parentsOf x, p ∈ dag.dagSet ∨ BelowAnchor parentsOf anchors p
  cached : ∀ x ∈ dag.finalizedBlockSet, dag.Marked x
  marked : ∀ x, dag.Marked x → ∀ p ∈ parentsOf x, dag.Marked p ∨ BelowAnchor parentsOf anchors p

def ClosedUpTo (parentsOf : Bytes → List Bytes) (anchors : List Bytes) (dag : BlockDagStorage) (hashes : Finset Bytes) :
    Prop :=
  ∀ x ∈ hashes, x ∈ dag.dagSet ∧ ∀ p ∈ parentsOf x, p ∈ hashes ∨ dag.Marked p ∨ BelowAnchor parentsOf anchors p

structure CallSound (parentsOf : Bytes → List Bytes) (anchors : List Bytes) (dag : BlockDagStorage)
    (call : FinalizationCall) : Prop where
  applied : ClosedUpTo parentsOf anchors dag call.effectApplied
  pending : ∀ attempts pending, call.phase = .effect attempts pending →
    ClosedUpTo parentsOf anchors dag (call.effectApplied ∪ pending) ∧
      call.directlyFinalizedHash ∈ call.effectApplied ∪ pending
  direct : call.effectApplied ≠ ∅ ∨ call.phase = .persist none → call.directlyFinalizedHash ∈ call.effectApplied

/-- The node knows more: more blocks, more marks, more anchors. -/
structure Grows (anchors anchors' : List Bytes) (dag dag' : BlockDagStorage) : Prop where
  anchors : ∀ a ∈ anchors, a ∈ anchors'
  dagSet : dag.dagSet ⊆ dag'.dagSet
  marked : ∀ x, dag.Marked x → dag'.Marked x

section

variable {anchors anchors' : List Bytes} {dag dag' : BlockDagStorage} {call : FinalizationCall}

theorem ClosedUpTo.grows {hashes : Finset Bytes} (h : ClosedUpTo parentsOf anchors dag hashes)
    (hGrows : Grows anchors anchors' dag dag') : ClosedUpTo parentsOf anchors' dag' hashes := by
  intro x hx
  refine ⟨hGrows.dagSet (h x hx).1, fun p hp => ?_⟩
  obtain hIn | hMarked | hBelow := (h x hx).2 p hp
  · exact .inl hIn
  · exact .inr (.inl (hGrows.marked p hMarked))
  · exact .inr (.inr (hBelow.mono hGrows.anchors))

theorem CallSound.grows (h : CallSound parentsOf anchors dag call) (hGrows : Grows anchors anchors' dag dag') :
    CallSound parentsOf anchors' dag' call :=
  ⟨h.applied.grows hGrows, fun attempts pending hPhase => ⟨(h.pending attempts pending hPhase).1.grows hGrows,
    (h.pending attempts pending hPhase).2⟩, h.direct⟩

theorem Ancestral.isFinalized_iff (h : Ancestral parentsOf anchors dag) (x : Bytes) :
    dag.isFinalized x = true ↔ dag.Marked x := by
  rw [BlockDagStorage.isFinalized, Bool.or_eq_true, decide_eq_true_iff]
  exact or_iff_right_of_imp (h.cached x)

theorem Ancestral.exists_lookup (h : Ancestral parentsOf anchors dag) {x : Bytes} (hx : x ∈ dag.dagSet) :
    ∃ m, dag.lookup x = some m ∧ m.parents = parentsOf x := by
  obtain ⟨row, hRow⟩ := Option.ne_none_iff_exists'.mp ((h.row x).mp hx)
  have hLookup : dag.lookup x = some row.metadata := lookup_eq_some.mpr ⟨hx, by rw [hRow]; rfl⟩
  exact ⟨row.metadata, hLookup, h.parents x _ hLookup⟩

theorem Ancestral.insert {block : BlockMessage ProcessedDeploy S} {mode : InsertMode}
    (h : Ancestral parentsOf anchors dag) (hNamed : block.header.parentsHashList = parentsOf block.blockHash)
    (hOrdered : ∀ p ∈ parentsOf block.blockHash, p ∈ dag.dagSet ∨
      BelowAnchor parentsOf (withAnchor anchors block.blockHash mode) p)
    (hInsert : InsertsTo order block mode dag dag') :
    Ancestral parentsOf (withAnchor anchors block.blockHash mode) dag' ∧
      Grows anchors (withAnchor anchors block.blockHash mode) dag dag' := by
  obtain ⟨hMarked, hCache⟩ := hInsert.marks h.row
  have hBelow : ∀ p, BelowAnchor parentsOf anchors p → BelowAnchor parentsOf (withAnchor anchors block.blockHash mode) p :=
    fun p hp => hp.mono fun _ => mem_withAnchor
  have hMarks : ∀ x, dag'.Marked x → ∀ p ∈ parentsOf x,
      dag'.Marked p ∨ BelowAnchor parentsOf (withAnchor anchors block.blockHash mode) p := by
    intro x hx p hp
    obtain hOld | ⟨hMode, rfl⟩ := (hMarked x).mp hx
    · exact (h.marked x hOld p hp).imp (fun hm => (hMarked p).mpr (.inl hm)) (hBelow p)
    · refine .inr ⟨block.blockHash, ?_, .single hp⟩
      rw [withAnchor, if_pos hMode]
      exact List.mem_cons_self
  have hCached : ∀ x ∈ dag'.finalizedBlockSet, dag'.Marked x :=
    fun x hx => (hMarked x).mpr ((hCache x hx).imp_left (h.cached x))
  by_cases hMem : block.blockHash ∈ dag.dagSet
  · have hDone := hInsert.held hMem
    refine ⟨⟨h.row.of_records hDone.dagSet_eq hDone.record_eq, fun x m hLookup => ?_, fun x hx p hp => ?_, hCached,
      hMarks⟩, fun _ => mem_withAnchor, hDone.dagSet_eq ▸ Finset.Subset.refl _, fun x hx => (hMarked x).mpr (.inl hx)⟩
    · rw [hDone.lookup_eq] at hLookup
      exact h.parents x m hLookup
    · rw [hDone.dagSet_eq] at hx ⊢
      exact (h.ordered x hx p hp).imp_right (hBelow p)
  · have hAdded := hInsert.added hMem (not_not.mp (mt (h.row _).mpr hMem))
    refine ⟨⟨hAdded.rowsMatch h.row, fun x m hLookup => ?_, fun x hx p hp => ?_, hCached, hMarks⟩, fun _ => mem_withAnchor,
      hAdded.dagSet_eq ▸ Finset.subset_insert _ _, fun x hx => (hMarked x).mpr (.inl hx)⟩
    · by_cases hEq : x = block.blockHash
      · subst hEq
        rw [hAdded.lookup_self] at hLookup
        obtain rfl := Option.some.inj hLookup
        exact hNamed
      · rw [hAdded.lookup_of_ne hEq] at hLookup
        exact h.parents x m hLookup
    · rw [hAdded.dagSet_eq] at hx ⊢
      obtain rfl | hOld := Finset.mem_insert.mp hx
      · exact (hOrdered p hp).imp_left fun hp => Finset.mem_insert_of_mem hp
      · exact (h.ordered x hOld p hp).imp (fun hp => Finset.mem_insert_of_mem hp) (hBelow p)

theorem mem_heldParents {filter : Bytes → Bool} {x p : Bytes} :
    p ∈ dag.heldParents filter x ↔
      ∃ m, dag.lookup x = some m ∧ p ∈ m.parents ∧ filter p = true ∧ (dag.lookup p).isSome = true := by
  rw [BlockDagStorage.heldParents, List.mem_filter, Bool.and_eq_true]
  cases dag.lookup x with
  | none => simp
  | some m => simp

theorem closedUpTo_heldAncestors (h : Ancestral parentsOf anchors dag) {hash : Bytes} {indirectly : Finset Bytes}
    (hWalk : heldAncestors dag hash (fun x => !dag.isFinalized x) = .ok indirectly) :
    ClosedUpTo parentsOf anchors dag (insert hash indirectly) := by
  rw [heldAncestors] at hWalk
  cases hLookup : dag.lookup hash with
  | none =>
    rw [hLookup] at hWalk
    cases hWalk
  | some m =>
    rw [hLookup] at hWalk
    have hBound : ∀ x, ∀ p ∈ dag.heldParents (fun x => !dag.isFinalized x) x, p ∈ dag.dagSet := by
      intro x p hp
      obtain ⟨-, -, -, -, hSome⟩ := mem_heldParents.mp hp
      obtain ⟨m', hm'⟩ := Option.isSome_iff_exists.mp hSome
      exact (lookup_eq_some.mp hm').1
    obtain ⟨hHeld, hStart, hClosed⟩ := Lib.LevelSearch.search_from hBound hash
    rw [Except.ok.inj hWalk] at hHeld hStart hClosed
    have hNext : ∀ x ∈ insert hash indirectly, ∀ p ∈ dag.heldParents (fun x => !dag.isFinalized x) x, p ∈ indirectly := by
      intro x hx p hp
      obtain rfl | hx := Finset.mem_insert.mp hx
      · exact hStart p hp
      · exact hClosed x hx p hp
    intro x hx
    have hMem : x ∈ dag.dagSet := by
      obtain rfl | hx := Finset.mem_insert.mp hx
      · exact (lookup_eq_some.mp hLookup).1
      · exact hHeld hx
    refine ⟨hMem, fun p hp => ?_⟩
    by_cases hFinalized : dag.isFinalized p = true
    · exact .inr (.inl ((h.isFinalized_iff p).mp hFinalized))
    · obtain hHeldParent | hBelow := h.ordered x hMem p hp
      · obtain ⟨mx, hmx, hParents⟩ := h.exists_lookup hMem
        obtain ⟨mp, hmp, -⟩ := h.exists_lookup hHeldParent
        refine .inl (Finset.mem_insert_of_mem (hNext x hx p (mem_heldParents.mpr ⟨mx, hmx, hParents ▸ hp, ?_, ?_⟩)))
        · simp [hFinalized]
        · rw [hmp]
          rfl
      · exact .inr (.inr hBelow)

theorem ClosedUpTo.union {hashes hashes' : Finset Bytes} (h : ClosedUpTo parentsOf anchors dag hashes)
    (h' : ClosedUpTo parentsOf anchors dag hashes') : ClosedUpTo parentsOf anchors dag (hashes ∪ hashes') := by
  intro x hx
  obtain hx | hx := Finset.mem_union.mp hx
  · exact ⟨(h x hx).1, fun p hp => ((h x hx).2 p hp).imp_left (Finset.mem_union_left _)⟩
  · exact ⟨(h' x hx).1, fun p hp => ((h' x hx).2 p hp).imp_left (Finset.mem_union_right _)⟩

theorem CallSound.takeSnapshot (h : Ancestral parentsOf anchors dag) (hCall : CallSound parentsOf anchors dag call)
    (attempts : Nat) : ∀ call' ∈ (call.takeSnapshot dag attempts).calls, CallSound parentsOf anchors dag call' := by
  rw [FinalizationCall.takeSnapshot]
  split
  · intro call' hMem
    obtain rfl := List.mem_singleton.mp hMem
    exact ⟨hCall.applied, fun _ _ hPhase => (nomatch hPhase), fun hDirect => hCall.direct (.inl (hDirect.resolve_right (by rintro ⟨⟩)))⟩
  · split
    · intro call' hMem
      cases hMem
    · split
      · intro call' hMem
        cases hMem
      · next indirectly hWalk =>
        have hClosed := closedUpTo_heldAncestors h hWalk
        dsimp only
        split
        · next hEmpty =>
          intro call' hMem
          obtain rfl := List.mem_singleton.mp hMem
          have hSub := Finset.sdiff_eq_empty_iff_subset.mp hEmpty
          exact ⟨hCall.applied, fun _ _ hPhase => (nomatch hPhase), fun _ => hSub (Finset.mem_insert_self _ _)⟩
        · intro call' hMem
          obtain rfl := List.mem_singleton.mp hMem
          refine ⟨hCall.applied, fun _ pending hPhase => ?_, fun hDirect => hCall.direct (.inl ?_)⟩
          · obtain ⟨-, rfl⟩ := Phase.effect.inj hPhase
            rw [Finset.union_sdiff_self_eq_union]
            exact ⟨hCall.applied.union hClosed, Finset.mem_union_right _ (Finset.mem_insert_self _ _)⟩
          · exact hDirect.resolve_right (by rintro ⟨⟩)

theorem Ancestral.persistEffectApplied (order : HashOrder) (h : Ancestral parentsOf anchors dag)
    (hCall : CallSound parentsOf anchors dag call) {failure : Option StoreError} (hPhase : call.phase = .persist failure) :
    Ancestral parentsOf anchors (call.persistEffectApplied order failure dag).1 ∧
      Grows anchors anchors dag (call.persistEffectApplied order failure dag).1 ∧
      (call.persistEffectApplied order failure dag).2.calls = [] ∧
      (failure = none → (call.persistEffectApplied order failure dag).1.Marked call.directlyFinalizedHash) := by
  rw [FinalizationCall.persistEffectApplied]
  by_cases hNothing : failure.isSome ∧ call.effectApplied = ∅
  · rw [if_pos hNothing]
    refine ⟨h, ⟨fun _ ha => ha, Finset.Subset.refl _, fun _ hx => hx⟩, rfl, fun hNone => ?_⟩
    rw [hNone] at hNothing
    cases hNothing.1
  · rw [if_neg hNothing]
    have hDirect : call.directlyFinalizedHash ∈ call.effectApplied := by
      apply hCall.direct
      cases failure with
      | none => exact .inr hPhase
      | some e => exact .inl fun hEmpty => hNothing ⟨rfl, hEmpty⟩
    have hRow : ∀ x ∈ call.effectApplied, dag.metadataStore x ≠ none := fun x hx => (h.row x).mp (hCall.applied x hx).1
    obtain ⟨row, hDirectRow⟩ := Option.ne_none_iff_exists'.mp (hRow _ hDirect)
    rw [run_recordFinalized_eq_ok.mpr ⟨rfl, rfl, fun x hx => hRow x (Finset.mem_of_mem_erase hx), row, hDirectRow, rfl⟩]
    have hApplied : ∀ x, x = call.directlyFinalizedHash ∨ x ∈ call.effectApplied.erase call.directlyFinalizedHash ↔
        x ∈ call.effectApplied := by
      intro x
      rw [← Finset.mem_insert, Finset.insert_erase hDirect]
    have hMarked : ∀ x, (dag.finalizedMarks order call.directlyFinalizedHash row.metadata.blockNumber
        (call.effectApplied.erase call.directlyFinalizedHash)).Marked x ↔ dag.Marked x ∨ x ∈ call.effectApplied := by
      intro x
      rw [marked_finalizedMarks, hApplied, and_iff_left_of_imp (hRow x)]
    refine ⟨?_, ⟨fun _ ha => ha, Finset.Subset.refl _, fun x hx => (hMarked x).mpr (.inl hx)⟩, rfl,
      fun _ => (hMarked _).mpr (.inr hDirect)⟩
    refine ⟨h.row.of_records rfl record_finalizedMarks, fun x m hLookup => ?_, h.ordered, fun x hx => ?_,
      fun x hx p hp => ?_⟩
    · refine h.parents x m ?_
      rw [lookup_eq_some] at hLookup ⊢
      exact ⟨hLookup.1, record_finalizedMarks x ▸ hLookup.2⟩
    · rw [hMarked]
      obtain hOld | hNew := cache_finalizedMarks hx
      · exact .inl (h.cached x hOld)
      · exact .inr ((hApplied x).mp hNew)
    · rw [hMarked] at hx ⊢
      obtain hOld | hNew := hx
      · exact (h.marked x hOld p hp).imp_left .inl
      · obtain hIn | hMarkedParent | hBelow := (hCall.applied x hNew).2 p hp
        · exact .inl (.inr hIn)
        · exact .inl (.inl hMarkedParent)
        · exact .inr hBelow

theorem Ancestral.callStep (order : HashOrder) (h : Ancestral parentsOf anchors dag) (hCall : CallSound parentsOf anchors dag call)
    (outcome : Option StoreError) :
    Ancestral parentsOf anchors (call.step order dag outcome).1 ∧
      Grows anchors anchors dag (call.step order dag outcome).1 ∧
      ∀ call' ∈ (call.step order dag outcome).2.calls,
        CallSound parentsOf anchors (call.step order dag outcome).1 call' := by
  have hStay : Grows anchors anchors dag dag := ⟨fun _ ha => ha, Finset.Subset.refl _, fun _ hx => hx⟩
  cases hPhase : call.phase with
  | snapshot attempts =>
    rw [FinalizationCall.step, hPhase]
    exact ⟨h, hStay, hCall.takeSnapshot h attempts⟩
  | effect attempts pending =>
    obtain ⟨hClosed, hDirect⟩ := hCall.pending attempts pending hPhase
    rw [FinalizationCall.step, hPhase]
    cases outcome with
    | none =>
      refine ⟨h, hStay, fun call' hMem => ?_⟩
      obtain rfl := List.mem_singleton.mp hMem
      exact ⟨hClosed, fun _ _ hEq => (nomatch hEq), fun _ => hDirect⟩
    | some e =>
      refine ⟨h, hStay, fun call' hMem => ?_⟩
      obtain rfl := List.mem_singleton.mp hMem
      exact ⟨hCall.applied, fun _ _ hEq => (nomatch hEq),
        fun hDirect => hCall.direct (.inl (hDirect.resolve_right (by rintro ⟨⟩)))⟩
  | persist failure =>
    rw [FinalizationCall.step, hPhase]
    obtain ⟨hAncestral, hGrows, hCalls, -⟩ := h.persistEffectApplied order hCall hPhase
    refine ⟨hAncestral, hGrows, fun call' hMem => ?_⟩
    dsimp only at hMem
    rw [hCalls] at hMem
    cases hMem

end

structure FinalizationInv (parentsOf : Bytes → List Bytes) (state : FinalizationState) : Prop where
  ancestral : Ancestral parentsOf state.anchors state.dag
  calls : ∀ call ∈ state.calls, CallSound parentsOf state.anchors state.dag call

theorem finalizationInv_initial (genesis : Option Bytes) :
    FinalizationInv parentsOf ⟨{ BlockDagStorage.empty with genesisHashIndex := genesis }, [], []⟩ := by
  refine ⟨⟨fun h => ?_, fun h m hLookup => ?_, fun x hx => ?_, fun x hx => ?_, fun x hx => ?_⟩, fun call hCall => ?_⟩
  · exact iff_of_false (Finset.notMem_empty h) fun hNe => hNe rfl
  · cases (lookup_eq_some.mp hLookup).2
  · exact absurd hx (Finset.notMem_empty x)
  · exact absurd hx (Finset.notMem_empty x)
  · cases hx
  · cases hCall

variable {state state' : FinalizationState}

theorem FinalizationInv.step (h : FinalizationInv parentsOf state)
    (hStep : FinalizationStep parentsOf S order state state') : FinalizationInv parentsOf state' := by
  cases hStep with
  | insert hNamed hOrdered hInsert =>
    obtain ⟨hAncestral, hGrows⟩ := h.ancestral.insert hNamed hOrdered hInsert
    exact ⟨hAncestral, fun call hCall => (h.calls call hCall).grows hGrows⟩
  | start hash =>
    refine ⟨h.ancestral, fun call hCall => ?_⟩
    obtain rfl | hCall := List.mem_cons.mp hCall
    · refine ⟨fun x hx => absurd hx (Finset.notMem_empty x), fun _ _ hPhase => (nomatch hPhase), fun hDirect => ?_⟩
      rcases hDirect with hNe | hPhase
      · exact absurd rfl hNe
      · cases hPhase
    · exact h.calls call hCall
  | @call before after call outcome hCalls =>
    have hSound := h.calls call (hCalls ▸ List.mem_append_right before List.mem_cons_self)
    obtain ⟨hAncestral, hGrows, hNext⟩ := h.ancestral.callStep order hSound outcome
    refine ⟨hAncestral, fun call' hCall' => ?_⟩
    have hOther : call' ∈ before ++ after → CallSound parentsOf state.anchors (call.step order state.dag outcome).1 call' := by
      intro hMem
      refine (h.calls call' (hCalls ▸ ?_)).grows hGrows
      obtain hMem | hMem := List.mem_append.mp hMem
      · exact List.mem_append_left _ hMem
      · exact List.mem_append_right before (List.mem_cons_of_mem call hMem)
    obtain hCall' | hAfter := List.mem_append.mp hCall'
    · obtain hBefore | hNew := List.mem_append.mp hCall'
      · exact hOther (List.mem_append_left after hBefore)
      · exact hNext call' hNew
    · exact hOther (List.mem_append_right before hAfter)

theorem finalizationInv_of_reached (h : FinalizationReached parentsOf S order state) :
    FinalizationInv parentsOf state := by
  induction h with
  | initial genesis => exact finalizationInv_initial genesis
  | step _ hStep ih => exact ih.step hStep

theorem marked_of_returned {anchors : List Bytes} {dag : BlockDagStorage} {call : FinalizationCall}
    {outcome : Option StoreError} (h : Ancestral parentsOf anchors dag) (hCall : CallSound parentsOf anchors dag call)
    (hReturned : (call.step order dag outcome).2 = .returned (.ok ())) :
    (call.step order dag outcome).1.Marked call.directlyFinalizedHash := by
  cases hPhase : call.phase with
  | snapshot attempts =>
    rw [FinalizationCall.step, hPhase] at hReturned
    dsimp only at hReturned
    rw [FinalizationCall.takeSnapshot] at hReturned
    split at hReturned
    · cases hReturned
    · split at hReturned
      · cases hReturned
      · split at hReturned
        · cases hReturned
        · dsimp only at hReturned
          split at hReturned
          · cases hReturned
          · cases hReturned
  | effect attempts pending =>
    rw [FinalizationCall.step, hPhase] at hReturned
    cases outcome with
    | none => cases hReturned
    | some e => cases hReturned
  | persist failure =>
    obtain ⟨-, -, -, hMarked⟩ := h.persistEffectApplied order hCall hPhase
    rw [FinalizationCall.step, hPhase] at hReturned ⊢
    refine hMarked ?_
    cases failure with
    | none => rfl
    | some e =>
      dsimp only at hReturned
      rw [FinalizationCall.persistEffectApplied] at hReturned
      split at hReturned
      · cases hReturned
      · split at hReturned
        · cases hReturned
        · cases hReturned

theorem marked_or_belowAnchor {anchors : List Bytes} {dag : BlockDagStorage} (h : Ancestral parentsOf anchors dag)
    {hash : Bytes} (hMarked : dag.Marked hash) {q : Bytes} (hAncestor : IsAncestor parentsOf q hash) :
    dag.Marked q ∨ BelowAnchor parentsOf anchors q := by
  induction hAncestor with
  | single hParent => exact h.marked hash hMarked _ hParent
  | tail _ hParent ih =>
    obtain hMarked | hBelow := ih
    · exact h.marked _ hMarked _ hParent
    · exact .inr (hBelow.parent hParent)

/-- When a call for a block returns success, every held ancestor of the block is finalized, or it is an ancestor of an
approved anchor. -/
theorem isFinalized_ancestor_of_returned {state : FinalizationState} (h : FinalizationReached parentsOf S order state)
    {call : FinalizationCall} (hCall : call ∈ state.calls) {outcome : Option StoreError}
    (hReturned : (call.step order state.dag outcome).2 = .returned (.ok ())) {q : Bytes}
    (hAncestor : IsAncestor parentsOf q call.directlyFinalizedHash) :
    (call.step order state.dag outcome).1.isFinalized q = true ∨ BelowAnchor parentsOf state.anchors q := by
  have hInv := finalizationInv_of_reached h
  have hSound := hInv.calls call hCall
  obtain ⟨hAncestral, -, -⟩ := hInv.ancestral.callStep order hSound outcome
  rw [hAncestral.isFinalized_iff]
  exact marked_or_belowAnchor hAncestral (marked_of_returned hInv.ancestral hSound hReturned) hAncestor

section onward

variable {block : BlockMessage ProcessedDeploy S} {mode : InsertMode} {dag dag' : BlockDagStorage} {hash : Bytes}
  {indirectly : Finset Bytes}

theorem run_recordFinalized_error {e : StoreError} (h : (recordFinalized order .none hash indirectly).run dag = .error e dag') :
    dag' = dag := by
  have hRead : (failIf StoreFaults.none.finalizedRead "block-metadata").run dag = .ok () dag := rfl
  rw [recordFinalized, run_bind_of_ok hRead, run_bind_of_ok (EStateM.run_get dag)] at h
  split at h
  · exact (EStateM.Result.error.inj h).2.symm
  · exact (EStateM.Result.error.inj h).2.symm
  · cases h

theorem callStep_dag (call : FinalizationCall) (outcome : Option StoreError) :
    (call.step order dag outcome).1 = dag ∨ ∃ number indirectly, (call.step order dag outcome).1 =
      dag.finalizedMarks order call.directlyFinalizedHash number indirectly := by
  rw [FinalizationCall.step]
  split
  · exact .inl rfl
  · cases outcome with
    | none => exact .inl rfl
    | some e => exact .inl rfl
  · rw [FinalizationCall.persistEffectApplied]
    split
    · exact .inl rfl
    · split
      · next hRun =>
        obtain ⟨-, -, -, row, -, rfl⟩ := run_recordFinalized_eq_ok.mp hRun
        exact .inr ⟨_, _, rfl⟩
      · next hRun => exact .inl (run_recordFinalized_error hRun)

/-- Nothing that the node has told is taken back. -/
structure Onward (dag dag' : BlockDagStorage) : Prop where
  lookup : ∀ x m, dag.lookup x = some m → dag'.lookup x = some m
  finalized : ∀ x, dag.isFinalized x = true → dag'.isFinalized x = true
  height : dag.lastFinalizedBlock.2 ≤ dag'.lastFinalizedBlock.2
  latest : ∀ v x m, dag.latestMessageHash v = some x → dag.lookup x = some m → ∃ x' m',
    dag'.latestMessageHash v = some x' ∧ dag'.lookup x' = some m' ∧ m.sequenceNumber ≤ m'.sequenceNumber

theorem Onward.refl (dag : BlockDagStorage) : Onward dag dag :=
  ⟨fun _ _ hx => hx, fun _ hx => hx, le_refl _, fun _ x m hSlot hx => ⟨x, m, hSlot, hx, le_refl _⟩⟩

theorem Onward.trans {a b c : BlockDagStorage} (h : Onward a b) (h' : Onward b c) : Onward a c := by
  refine ⟨fun x m hx => h'.lookup x m (h.lookup x m hx), fun x hx => h'.finalized x (h.finalized x hx),
    h.height.trans h'.height, fun v x m hSlot hx => ?_⟩
  obtain ⟨x₁, m₁, hSlot₁, hx₁, hLe⟩ := h.latest v x m hSlot hx
  obtain ⟨x₂, m₂, hSlot₂, hx₂, hLe'⟩ := h'.latest v x₁ m₁ hSlot₁ hx₁
  exact ⟨x₂, m₂, hSlot₂, hx₂, hLe.trans hLe'⟩

theorem height_finalizedMarks {number : Int} :
    dag.lastFinalizedBlock.2 ≤ (dag.finalizedMarks order hash number indirectly).lastFinalizedBlock.2 := by
  change _ ≤ (if dag.lastFinalizedBlock.2 ≤ number then (hash, number) else dag.lastFinalizedBlock).2
  split
  · assumption
  · exact le_refl _

theorem InsertsTo.height_le (h : InsertsTo order block mode dag dag') :
    dag.lastFinalizedBlock.2 ≤ dag'.lastFinalizedBlock.2 := by
  have hFinished {s : BlockDagStorage} (hDone : Finished order block.blockHash mode s dag') :
      s.lastFinalizedBlock.2 ≤ dag'.lastFinalizedBlock.2 := by
    cases hDone with
    | kept _ hEq => rw [hEq]
    | marked _ _ _ hEq =>
      rw [hEq]
      exact height_finalizedMarks
  by_cases hMem : block.blockHash ∈ dag.dagSet
  · exact hFinished (h.held hMem)
  · obtain ⟨rep, hRun⟩ := h
    obtain ⟨-, u, ⟨r, hTables, rfl⟩, -, hDone⟩ := finished_of_fresh hRun hMem
    obtain ⟨carrierIndex, lifecycle, rfl⟩ := hTables.exists_eq
    refine le_of_eq_of_le ?_ (hFinished hDone)
    rw [BlockDagStorage.advanced, BlockDagStorage.visible]
    split
    · split <;> rfl
    · split <;> rfl

theorem Added.latest (h : Added block mode dag dag') (hFresh : block.blockHash ∉ dag.dagSet) {v x : Bytes} {m : BlockMetadata}
    (hSlot : dag.latestMessageHash v = some x) (hx : dag.lookup x = some m) : ∃ x' m',
      dag'.latestMessageHash v = some x' ∧ dag'.lookup x' = some m' ∧ m.sequenceNumber ≤ m'.sequenceNumber := by
  obtain ⟨hHeld, hRecord⟩ := lookup_eq_some.mp hx
  have hKept : dag'.lookup x = some m := by
    rw [h.lookup_of_ne (ne_of_mem_of_not_mem hHeld hFresh), hx]
  by_cases hMode : mode = .settledHistory
  · exact ⟨x, m, h.latest_settled hMode v ▸ hSlot, hKept, le_refl _⟩
  · rw [h.latest_eq hMode, slotAfter_of_some hSlot]
    split
    · next hNew =>
      obtain ⟨row, hRow, rfl⟩ := Option.map_eq_some_iff.mp hRecord
      obtain ⟨hAdvances, rfl⟩ := hNew
      exact ⟨_, _, rfl, h.lookup_self, le_of_senderAdvances (newLatestFromSender_ne_nil.mp hAdvances).2 hSlot hRow⟩
    · exact ⟨x, m, rfl, hKept, le_refl _⟩

end onward

theorem FinalizationInv.onward (h : FinalizationInv parentsOf state)
    (hStep : FinalizationStep parentsOf S order state state') : Onward state.dag state'.dag := by
  have hFinalized {dag' : BlockDagStorage} (hMarks : ∀ x, state.dag.Marked x → dag'.Marked x) (x : Bytes)
      (hx : state.dag.isFinalized x = true) : dag'.isFinalized x = true :=
    Bool.or_eq_true_iff.mpr (.inr (hMarks x ((h.ancestral.isFinalized_iff x).mp hx)))
  cases hStep with
  | @insert block mode dag' _ _ hInsert =>
    have hMarks := hFinalized fun x hx => ((hInsert.marks h.ancestral.row).1 x).mpr (.inl hx)
    by_cases hMem : block.blockHash ∈ state.dag.dagSet
    · have hDone := hInsert.held hMem
      exact ⟨fun x m hx => hDone.lookup_eq x ▸ hx, hMarks, hInsert.height_le, fun v x m hSlot hx =>
        ⟨x, m, hDone.latestMessageHash_eq v ▸ hSlot, hDone.lookup_eq x ▸ hx, le_refl _⟩⟩
    · have hAdded := hInsert.added hMem (not_not.mp (mt (h.ancestral.row _).mpr hMem))
      refine ⟨fun x m hx => ?_, hMarks, hInsert.height_le, fun v x m => hAdded.latest hMem⟩
      rw [hAdded.lookup_of_ne (ne_of_mem_of_not_mem (lookup_eq_some.mp hx).1 hMem), hx]
  | start hash => exact .refl state.dag
  | @call before after call outcome _ =>
    dsimp only
    obtain hEq | ⟨number, indirectly, hEq⟩ := @callStep_dag order state.dag call outcome
    · rw [hEq]
      exact .refl state.dag
    · have hLookup (x : Bytes) : (state.dag.finalizedMarks order call.directlyFinalizedHash number indirectly).lookup x =
          state.dag.lookup x := by
        rw [BlockDagStorage.lookup, BlockDagStorage.lookup, record_finalizedMarks]
        rfl
      rw [hEq]
      exact ⟨fun x m hx => hLookup x ▸ hx, hFinalized fun x hx => marked_finalizedMarks.mpr (.inl hx),
        height_finalizedMarks, fun v x m hSlot hx => ⟨x, m, hSlot, hLookup x ▸ hx, le_refl _⟩⟩

def chainBlock (tag : UInt8) (parents : List Bytes) (number : Int64) : BlockMessage ProcessedDeploy Unit where
  blockHash := List.replicate 32 tag
  header := ⟨parents, 0, 1, []⟩
  body :=
    { state := ⟨[], [], [], number⟩
      deploys := []
      rejectedDeploys := []
      systemDeploys := []
      extraBytes := []
      appliedFromScope := []
      mergeBase := [] }
  justifications := []
  sender := []
  seqNum := 0
  sig := []
  sigAlgorithm := ""
  shardId := ""
  extraBytes := []

def settledBlock : BlockMessage ProcessedDeploy Unit := chainBlock 1 [] 0
def anchorBlock : BlockMessage ProcessedDeploy Unit := chainBlock 2 [settledBlock.blockHash] 1
def tipBlock : BlockMessage ProcessedDeploy Unit := chainBlock 3 [anchorBlock.blockHash] 2

def chainParents (hash : Bytes) : List Bytes :=
  if hash = tipBlock.blockHash then [anchorBlock.blockHash]
  else if hash = anchorBlock.blockHash then [settledBlock.blockHash]
  else []

def tipCall : FinalizationCall := ⟨tipBlock.blockHash, {tipBlock.blockHash}, .persist none⟩

theorem FinalizationReached.insertStep {block : BlockMessage ProcessedDeploy S}
    {mode : InsertMode} {dag : BlockDagStorage} (h : FinalizationReached parentsOf S order state)
    (hInsert : InsertsTo order block mode state.dag dag) (hNamed : block.header.parentsHashList = parentsOf block.blockHash)
    (hOrdered : ∀ p ∈ parentsOf block.blockHash, p ∈ state.dag.dagSet ∨
      BelowAnchor parentsOf (withAnchor state.anchors block.blockHash mode) p) :
    FinalizationReached parentsOf S order { state with dag, anchors := withAnchor state.anchors block.blockHash mode } :=
  h.step (.insert hNamed hOrdered hInsert)

theorem FinalizationReached.callStep {dag dag' : BlockDagStorage} {anchors : List Bytes} {call : FinalizationCall}
    {result : CallResult} (h : FinalizationReached parentsOf S order ⟨dag, anchors, [call]⟩) (outcome : Option StoreError)
    (hStep : call.step order dag outcome = (dag', result)) :
    FinalizationReached parentsOf S order ⟨dag', anchors, result.calls⟩ := by
  have hNext := h.step (@FinalizationStep.call parentsOf S order _ [] [] call outcome rfl)
  rw [hStep] at hNext
  simpa using hNext

theorem exists_tipCall :
    ∃ dag, FinalizationReached chainParents Unit .ofToList ⟨dag, [anchorBlock.blockHash], [tipCall]⟩ ∧
      (tipCall.step .ofToList dag none).2 = .returned (.ok ()) ∧
      settledBlock.blockHash ∈ (tipCall.step .ofToList dag none).1.dagSet ∧
      (tipCall.step .ofToList dag none).1.isFinalized settledBlock.blockHash = false := by
  have hRuns : ∃ d₁ d₂ d₃, InsertsTo .ofToList anchorBlock .approved { BlockDagStorage.empty with genesisHashIndex := none } d₁ ∧
      InsertsTo .ofToList settledBlock .settledHistory d₁ d₂ ∧ InsertsTo .ofToList tipBlock .normal d₂ d₃ ∧
      anchorBlock.blockHash ∈ d₂.dagSet ∧
      (FinalizationCall.mk tipBlock.blockHash ∅ (.snapshot 0)).step .ofToList d₃ none =
        (d₃, .running ⟨tipBlock.blockHash, ∅, .effect 0 {tipBlock.blockHash}⟩) ∧
      (FinalizationCall.mk tipBlock.blockHash {tipBlock.blockHash} (.snapshot 1)).step .ofToList d₃ none =
        (d₃, .running tipCall) ∧
      (tipCall.step .ofToList d₃ none).2 = .returned (.ok ()) ∧
      settledBlock.blockHash ∈ (tipCall.step .ofToList d₃ none).1.dagSet ∧
      (tipCall.step .ofToList d₃ none).1.isFinalized settledBlock.blockHash = false :=
    ⟨_, _, _, ⟨_, rfl⟩, ⟨_, rfl⟩, ⟨_, rfl⟩, by decide, rfl, rfl, rfl, by decide, rfl⟩
  obtain ⟨d₁, d₂, d₃, hAnchor, hSettled, hTip, hHeld, hWalk, hWalk', hReturned, hMem, hUnmarked⟩ := hRuns
  have hBelow : BelowAnchor chainParents [anchorBlock.blockHash] settledBlock.blockHash :=
    ⟨_, List.mem_singleton_self _, .single (by decide)⟩
  have h₁ : FinalizationReached chainParents Unit .ofToList ⟨d₁, [anchorBlock.blockHash], []⟩ := by
    refine (FinalizationReached.initial none).insertStep hAnchor rfl fun p hp => .inr ?_
    obtain rfl : p = settledBlock.blockHash := List.mem_singleton.mp hp
    exact hBelow
  have h₂ : FinalizationReached chainParents Unit .ofToList ⟨d₂, [anchorBlock.blockHash], []⟩ :=
    h₁.insertStep hSettled rfl fun p hp => absurd hp List.not_mem_nil
  have h₃ : FinalizationReached chainParents Unit .ofToList ⟨d₃, [anchorBlock.blockHash], []⟩ := by
    refine h₂.insertStep hTip rfl fun p hp => .inl ?_
    obtain rfl : p = anchorBlock.blockHash := List.mem_singleton.mp hp
    exact hHeld
  -- the call walks, its effect succeeds, and the second walk finds nothing new
  have hEffect := (h₃.step (.start tipBlock.blockHash)).callStep none hWalk
  have hWalked := hEffect.callStep none rfl
  rw [Finset.empty_union] at hWalked
  exact ⟨d₃, hWalked.callStep none hWalk', hReturned, hMem, hUnmarked⟩

/-- Settled history arrives below a finalized anchor and stays unmarked: a call whose walk stops at the anchor succeeds
without it. -/
theorem settledBlock_held_unfinalized :
    ∃ state call outcome, FinalizationReached chainParents Unit .ofToList state ∧ call ∈ state.calls ∧
      (call.step .ofToList state.dag outcome).2 = .returned (.ok ()) ∧
      IsAncestor chainParents settledBlock.blockHash call.directlyFinalizedHash ∧
      settledBlock.blockHash ∈ (call.step .ofToList state.dag outcome).1.dagSet ∧
      (call.step .ofToList state.dag outcome).1.isFinalized settledBlock.blockHash = false := by
  obtain ⟨dag, hReached, hReturned, hMem, hUnmarked⟩ := exists_tipCall
  have hParent : IsAncestor chainParents anchorBlock.blockHash tipCall.directlyFinalizedHash := .single (by decide)
  exact ⟨_, tipCall, none, hReached, List.mem_singleton_self _, hReturned, hParent.tail (by decide), hMem, hUnmarked⟩

theorem anchorBlock_finalized_of_tipCall :
    ∃ dag, (tipCall.step .ofToList dag none).2 = .returned (.ok ()) ∧
      ((tipCall.step .ofToList dag none).1.isFinalized anchorBlock.blockHash = true ∨
        BelowAnchor chainParents [anchorBlock.blockHash] anchorBlock.blockHash) := by
  obtain ⟨dag, hReached, hReturned, -⟩ := exists_tipCall
  exact ⟨dag, hReturned, isFinalized_ancestor_of_returned hReached (List.mem_singleton_self _) hReturned
    (.single (by decide))⟩

end F1r3Node.DagStorage
