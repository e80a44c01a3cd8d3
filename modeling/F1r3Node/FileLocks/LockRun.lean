import Mathlib.Data.List.Induction
import F1r3Node.FileLocks.LockRegistry

/-! # Runs of the registry

A run is a sequence of calls; between them receivers of parked acquires may be dropped and the hash map may change its
iteration order.
-/

namespace F1r3Node.FileLocks

/-- The registry with the channels its parked acquires have opened and the channels whose receiver is gone. -/
structure LockSystem where
  registry : LockRegistry
  channels : Nat
  dropped : List Channel

def LockSystem.init : LockSystem := ⟨.new, 0, []⟩

def LockSystem.alive (s : LockSystem) (channel : Channel) : Bool := !s.dropped.contains channel

inductive Event
  | tryAcquireRange (file : DevInode) (offset length : Nat) (mode : LockMode) (holder : HolderId) (deploy : DeployScope)
  | tryAcquireRangeWait (file : DevInode) (offset length : Nat) (mode : LockMode) (holder : HolderId)
      (deploy : DeployScope)
  | tryAcquireSequential (file : DevInode) (holder : HolderId) (deploy : DeployScope)
  | tryAcquireSequentialWait (file : DevInode) (holder : HolderId) (deploy : DeployScope)
  | release (lockId : LockId) (holder : HolderId)
  | releaseAllForHolder (holder : HolderId)
  | releaseAllForDeploy (deploy : DeployScope)
  | cancelWait (lockId : LockId) (holder : HolderId)
  | cancelAllWaitersForHolder (holder : HolderId)
  | cancelAllWaitersForDeploy (deploy : DeployScope)
  | dropReceiver (channel : Channel)
  | rehash (inner : AList fun _ : DevInode => FileLockState)

def LockSystem.afterWait (s : LockSystem) : Except LockError AcquireOutcome × LockRegistry → LockSystem
  | (.ok (.parked ..), reg) => { s with registry := reg, channels := s.channels + 1 }
  | (_, reg) => { s with registry := reg }

def LockSystem.afterSweep (s : LockSystem) : Option (Nat × LockRegistry) → LockSystem
  | some (_, reg) => { s with registry := reg }
  | none => s

def LockSystem.step (s : LockSystem) : Event → LockSystem
  | .tryAcquireRange file offset length mode holder deploy =>
    { s with registry := (s.registry.tryAcquireRange file offset length mode holder deploy).2 }
  | .tryAcquireRangeWait file offset length mode holder deploy =>
    s.afterWait (s.registry.tryAcquireRangeWait s.channels file offset length mode holder deploy)
  | .tryAcquireSequential file holder deploy =>
    { s with registry := (s.registry.tryAcquireSequential file holder deploy).2 }
  | .tryAcquireSequentialWait file holder deploy =>
    s.afterWait (s.registry.tryAcquireSequentialWait s.channels file holder deploy)
  | .release lockId holder => { s with registry := (s.registry.release s.alive lockId holder).2 }
  | .releaseAllForHolder holder => { s with registry := (s.registry.releaseAllForHolder s.alive holder).2 }
  | .releaseAllForDeploy deploy => s.afterSweep (s.registry.releaseAllForDeploy s.alive deploy)
  | .cancelWait lockId holder => { s with registry := (s.registry.cancelWait lockId holder).2 }
  | .cancelAllWaitersForHolder holder => { s with registry := (s.registry.cancelAllWaitersForHolder holder).2 }
  | .cancelAllWaitersForDeploy deploy => s.afterSweep (s.registry.cancelAllWaitersForDeploy deploy)
  | .dropReceiver channel => { s with dropped := channel :: s.dropped }
  | .rehash inner =>
    if inner.entries.Perm s.registry.inner.entries then { s with registry := { s.registry with inner := inner } } else s

def run (events : List Event) : LockSystem := events.foldl LockSystem.step .init

theorem run_append (events : List Event) (event : Event) : run (events ++ [event]) = (run events).step event := by
  rw [run, List.foldl_append, List.foldl_cons, List.foldl_nil, run]

theorem run_induction {P : LockSystem → Prop} (hInit : P .init) (hStep : ∀ s e, P s → P (s.step e))
    (events : List Event) : P (run events) := by
  induction events using List.reverseRecOn with
  | nil => exact hInit
  | append_singleton events event ih => rw [run_append]; exact hStep _ _ ih

def Along (P : LockSystem → Event → Prop) : LockSystem → List Event → Prop
  | _, [] => True
  | s, e :: events => P s e ∧ Along P (s.step e) events

theorem forall_prefix_of_along {P : LockSystem → Event → Prop} {events : List Event} (h : Along P .init events)
    (past : List Event) (e : Event) (hPrefix : past ++ [e] <+: events) : P (run past) e := by
  suffices hGeneral : ∀ s, Along P s events → P (past.foldl LockSystem.step s) e from hGeneral .init h
  clear h
  induction past generalizing events with
  | nil =>
    intro s hAlong
    obtain ⟨rest, rfl⟩ := hPrefix
    exact hAlong.1
  | cons first past ih =>
    intro s hAlong
    obtain ⟨rest, rfl⟩ := hPrefix
    exact ih (List.prefix_append _ rest) (s.step first) hAlong.2

def LockSystem.table (s : LockSystem) : DevInode → FileLockState := s.registry.stateOf

variable {state : FileLockState}

theorem eq_of_stateIsEmpty (h : stateIsEmpty state = true) : state = {} := by
  obtain ⟨ranges, sequentialHolder, waiters⟩ := state
  simp only [stateIsEmpty, Bool.and_eq_true, List.isEmpty_iff, Option.isNone_iff_eq_none] at h
  obtain ⟨⟨rfl, rfl⟩, rfl⟩ := h
  rfl

theorem stateOf_of_mem {reg : LockRegistry} {file : DevInode}
    (h : ⟨file, state⟩ ∈ reg.inner.entries) : reg.stateOf file = state := by
  rw [LockRegistry.stateOf, AList.mem_lookup_iff.mpr h, Option.getD_some]

theorem stateOf_put (reg : LockRegistry) (file : DevInode) (state : FileLockState) :
    (reg.put file state).stateOf = Function.update reg.stateOf file state := by
  funext other
  rcases eq_or_ne other file with rfl | hNe
  · rw [Function.update_self, LockRegistry.stateOf, LockRegistry.put, AList.lookup_insert, Option.getD_some]
  · rw [Function.update_of_ne hNe, LockRegistry.stateOf, LockRegistry.put, AList.lookup_insert_ne hNe,
      LockRegistry.stateOf]

theorem stateOf_keep (reg : LockRegistry) (file : DevInode) (state : FileLockState) :
    (reg.keep file state).stateOf = Function.update reg.stateOf file state := by
  rw [LockRegistry.keep]
  split_ifs with hEmpty
  · funext other
    rcases eq_or_ne other file with rfl | hNe
    · rw [Function.update_self, LockRegistry.stateOf, AList.lookup_erase, Option.getD_none, eq_of_stateIsEmpty hEmpty]
    · rw [Function.update_of_ne hNe, LockRegistry.stateOf, AList.lookup_erase_ne hNe, LockRegistry.stateOf]
  · exact stateOf_put reg file state

variable {f : FileLockState → FileLockState}

theorem mem_sweep {reg : LockRegistry} {file : DevInode} :
    ⟨file, state⟩ ∈ (reg.sweep f).inner.entries ↔
      ∃ old, ⟨file, old⟩ ∈ reg.inner.entries ∧ state = f old ∧ stateIsEmpty state = false := by
  simp only [LockRegistry.sweep, List.mem_filter, List.mem_map, Bool.not_eq_true']
  constructor
  · rintro ⟨⟨⟨file', old⟩, hMem, hEq⟩, hEmpty⟩
    cases hEq
    exact ⟨old, hMem, rfl, hEmpty⟩
  · rintro ⟨old, hMem, rfl, hEmpty⟩
    exact ⟨⟨⟨file, old⟩, hMem, rfl⟩, hEmpty⟩

theorem stateOf_sweep (reg : LockRegistry) (hEmpty : f {} = {}) (file : DevInode) :
    (reg.sweep f).stateOf file = f (reg.stateOf file) := by
  cases hLookup : reg.inner.lookup file with
  | none =>
    have hOld : reg.stateOf file = {} := by rw [LockRegistry.stateOf, hLookup, Option.getD_none]
    cases hNew : (reg.sweep f).inner.lookup file with
    | none => rw [LockRegistry.stateOf, hNew, Option.getD_none, hOld, hEmpty]
    | some state =>
      obtain ⟨old, hMem, -⟩ := mem_sweep.mp (AList.mem_lookup_iff.mp hNew)
      rw [AList.mem_lookup_iff.mpr hMem] at hLookup
      cases hLookup
  | some old =>
    have hMem := AList.mem_lookup_iff.mp hLookup
    rw [stateOf_of_mem hMem]
    cases hIs : stateIsEmpty (f old) with
    | false => exact stateOf_of_mem (mem_sweep.mpr ⟨old, hMem, rfl, hIs⟩)
    | true =>
      rw [eq_of_stateIsEmpty hIs]
      cases hNew : (reg.sweep f).inner.lookup file with
      | none => rw [LockRegistry.stateOf, hNew, Option.getD_none]
      | some state =>
        obtain ⟨old', hMem', rfl, hNot⟩ := mem_sweep.mp (AList.mem_lookup_iff.mp hNew)
        have hOld : old' = old := by rw [← stateOf_of_mem hMem, ← stateOf_of_mem hMem']
        rw [hOld, hIs] at hNot
        cases hNot

theorem rollBack_promote {waiter : Waiter} (h : admissible state waiter = true) :
    rollBack (promote state waiter) waiter = state := by
  obtain ⟨ranges, sequentialHolder, waiters⟩ := state
  obtain ⟨lockId, kind, holder, deploy, admission⟩ := waiter
  cases kind with
  | range offset length mode => simp [promote, rollBack]
  | sequential =>
    simp only [admissible, sequentialConflicts, Bool.not_or, Bool.and_eq_true, Bool.not_eq_true',
      Option.isSome_eq_false_iff, Option.isNone_iff_eq_none] at h
    rw [h.1]
    rfl

def HeadWaits (state : FileLockState) : Prop := ∀ w rest, state.waiters = w :: rest → admissible state w = false

/-- A wake pass takes admissible waiters from the head of the queue, admits those that are still there, and stops at a
head that has to wait. -/
inductive Woken (alive : Channel → Bool) : FileLockState → List Waiter → FileLockState → Prop
  | stop {state : FileLockState} : HeadWaits state → Woken alive state [] state
  | admitted {state state' : FileLockState} {w : Waiter} {rest ws : List Waiter} : state.waiters = w :: rest →
      admissible state w = true → alive w.admission = true → Woken alive (promote { state with waiters := rest } w) ws state' →
      Woken alive state (w :: ws) state'
  | discard {state state' : FileLockState} {w : Waiter} {rest ws : List Waiter} : state.waiters = w :: rest →
      admissible state w = true → alive w.admission = false → Woken alive { state with waiters := rest } ws state' →
      Woken alive state ws state'

@[simp] theorem waiters_promote (state : FileLockState) (w : Waiter) : (promote state w).waiters = state.waiters := by
  rw [promote]
  split <;> rfl

theorem wakeFrom_woken (alive : Channel → Bool) {queue : List Waiter}
    (h : state.waiters = queue) :
    Woken alive state (wakeFrom alive queue state).1 (wakeFrom alive queue state).2 := by
  induction queue generalizing state with
  | nil =>
    obtain ⟨ranges, sequentialHolder, waiters⟩ := state
    cases h
    exact .stop fun w rest hCons => (List.cons_ne_nil w rest hCons.symm).elim
  | cons head rest ih =>
    obtain ⟨ranges, sequentialHolder, waiters⟩ := state
    cases h
    rw [wakeFrom]
    dsimp only
    split_ifs with hAdmissible hAlive
    · exact .admitted rfl hAdmissible hAlive (ih (waiters_promote _ _))
    · have hBack : rollBack (promote ⟨ranges, sequentialHolder, rest⟩ head) head = ⟨ranges, sequentialHolder, rest⟩ :=
        rollBack_promote hAdmissible
      rw [hBack]
      exact .discard rfl hAdmissible (Bool.eq_false_iff.mpr hAlive) (ih rfl)
    · refine .stop ?_
      intro w rest' hCons
      cases hCons
      exact Bool.eq_false_iff.mpr hAdmissible

theorem wakeWaiters_woken (alive : Channel → Bool) (state : FileLockState) :
    Woken alive state (wakeWaiters alive state).1 (wakeWaiters alive state).2 := wakeFrom_woken alive rfl

theorem Woken.headWaits {alive : Channel → Bool} {state' : FileLockState} {ws : List Waiter}
    (h : Woken alive state ws state') : HeadWaits state' := by
  induction h with
  | stop h => exact h
  | admitted _ _ _ _ ih => exact ih
  | discard _ _ _ _ ih => exact ih

structure Dropped (state state' : FileLockState) : Prop where
  ranges : state'.ranges.Sublist state.ranges
  sequentialHolder : ∀ s, state'.sequentialHolder = some s → state.sequentialHolder = some s
  waiters : state'.waiters = state.waiters

theorem releaseIn_dropped {lockId : LockId} {holder : HolderId} {state' : FileLockState}
    (h : releaseIn lockId holder state = some state') : Dropped state state' := by
  rw [releaseIn] at h
  split_ifs at h
  · cases h
    exact ⟨List.eraseP_sublist, fun _ h => h, rfl⟩
  · cases h
    exact ⟨.refl _, fun s h => (Option.some_ne_none s h.symm).elim, rfl⟩

theorem removeHeld_dropped (ofRange : RangeEntry → Bool) (ofSequential : SequentialEntry → Bool)
    (state : FileLockState) : Dropped state (removeHeld ofRange ofSequential state) :=
  ⟨List.filter_sublist, fun _ h => (Option.filter_eq_some_iff.mp h).1, rfl⟩

def Released (alive : Channel → Bool) (state state' : FileLockState) : Prop :=
  ∃ left ws, Dropped state left ∧ Woken alive left ws state'

theorem wakeWaiters_released {alive : Channel → Bool} {left : FileLockState} (h : Dropped state left) :
    Released alive state (wakeWaiters alive left).2 := ⟨left, _, h, wakeWaiters_woken alive left⟩

def Tidy (reg reg' : LockRegistry) : Prop :=
  ∀ entry ∈ reg'.inner.entries, entry ∈ reg.inner.entries ∨ stateIsEmpty entry.2 = false

theorem Tidy.refl (reg : LockRegistry) : Tidy reg reg := fun _ h => .inl h

theorem tidy_put (reg : LockRegistry) (file : DevInode) (h : stateIsEmpty state = false) :
    Tidy reg (reg.put file state) := by
  intro entry hEntry
  rw [LockRegistry.put, AList.entries_insert] at hEntry
  rcases List.mem_cons.mp hEntry with rfl | hEntry
  · exact .inr h
  · exact .inl ((List.kerase_sublist _ _).mem hEntry)

theorem tidy_keep (reg : LockRegistry) (file : DevInode) (state : FileLockState) :
    Tidy reg (reg.keep file state) := by
  rw [LockRegistry.keep]
  split_ifs with hEmpty
  · exact fun entry hEntry => .inl ((List.kerase_sublist _ _).mem hEntry)
  · exact tidy_put reg file (Bool.eq_false_iff.mpr hEmpty)

theorem tidy_sweep (reg : LockRegistry) (f : FileLockState → FileLockState) : Tidy reg (reg.sweep f) := by
  intro entry hEntry
  obtain ⟨old, -, -, hNot⟩ := mem_sweep.mp hEntry
  exact .inr hNot

theorem stateIsEmpty_promote (state : FileLockState) (w : Waiter) : stateIsEmpty (promote state w) = false := by
  rw [promote]
  split <;> simp [stateIsEmpty]

end F1r3Node.FileLocks
