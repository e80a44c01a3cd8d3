import F1r3Node.FileLocks.Grants

/-! # Lost wake-ups

Between calls the head of every queue has to wait, as long as no cancel uncovers a waiter that could go ahead: the
cancels take waiters out of a queue and start no wake pass.
-/

namespace F1r3Node.FileLocks

def NoLostWakeUp (s : LockSystem) : Prop := ∀ file, HeadWaits (s.table file)

/-- The call cancels the head of a file's queue, and the first waiter that stays is admissible under the locks held on
the file. -/
def UncoversAdmissible (s : LockSystem) (e : Event) : Prop :=
  ∃ file w rest, s.uncancelled file e = w :: rest ∧ (s.table file).waiters.head? ≠ some w ∧
    admissible (s.table file) w = true

variable {state : FileLockState} {w w' : Waiter}

theorem rangeConflicts_promote {offset length : Nat} {mode : LockMode} {holder : HolderId}
    (h : rangeConflicts state offset length mode holder = true) :
    rangeConflicts (promote state w) offset length mode holder = true := by
  rw [promote]
  split
  · rw [rangeConflicts, List.any_append, ← Bool.or_assoc]
    rw [rangeConflicts] at h
    rw [h, Bool.true_or]
  · rfl

theorem sequentialConflicts_promote (state : FileLockState) (w : Waiter) :
    sequentialConflicts (promote state w) = true := by
  rw [promote]
  split <;> simp [sequentialConflicts]

theorem length_ranges_promote (state : FileLockState) (w : Waiter) :
    state.ranges.length ≤ (promote state w).ranges.length := by
  rw [promote]
  split <;> simp

theorem not_admissible_promote (h : admissible state w' = false) : admissible (promote state w) w' = false := by
  obtain ⟨lockId, kind, holder, deploy, admission⟩ := w'
  cases kind with
  | range offset length mode =>
    rw [admissible, Bool.and_eq_false_iff, decide_eq_false_iff_not, Bool.not_eq_false'] at h ⊢
    rcases h with hFull | hConflict
    · have hLength := length_ranges_promote state w
      left
      omega
    · exact .inr (rangeConflicts_promote hConflict)
  | sequential => rw [admissible_sequential, sequentialConflicts_promote, Bool.not_true]

theorem HeadWaits.promote (h : HeadWaits state) : HeadWaits (promote state w) := by
  intro head rest hCons
  rw [waiters_promote] at hCons
  exact not_admissible_promote (h head rest hCons)

theorem HeadWaits.park (h : HeadWaits state) (hWaits : admissible state w = false) :
    HeadWaits { state with waiters := state.waiters ++ [w] } := by
  intro head rest hCons
  cases hQueue : state.waiters with
  | nil =>
    rw [hQueue] at hCons
    cases hCons
    exact hWaits
  | cons first others =>
    rw [hQueue] at hCons
    cases hCons
    exact h head others hQueue

theorem noLostWakeUp_of_not_isCancel {s : LockSystem} {e : Event} (hCancel : e.isCancel = false) (h : NoLostWakeUp s) :
    NoLostWakeUp (s.step e) := by
  intro file
  cases step_change s e with
  | quiet hTable => rw [hTable]; exact h file
  | @granted target w _ _ hTable =>
    rw [hTable]
    rcases eq_or_ne file target with rfl | hNe
    · rw [Function.update_self]
      exact (h file).promote
    · rw [Function.update_of_ne hNe]
      exact h file
  | @parked target w _ hAdmissible _ hTable =>
    rw [hTable]
    rcases eq_or_ne file target with rfl | hNe
    · rw [Function.update_self]
      exact (h file).park hAdmissible
    · rw [Function.update_of_ne hNe]
      exact h file
  | released _ hFiles hDropped hTable =>
    rw [hTable]
    rcases released_of_sweepTable hFiles hDropped file with hSame | ⟨left, ws, -, hWoken⟩
    · rw [hSame]
      exact h file
    · exact hWoken.headWaits
  | cancelled hTable =>
    rw [hTable, uncancelled_of_not_isCancel s hCancel]
    exact h file

theorem noLostWakeUp_step_iff {s : LockSystem} (h : NoLostWakeUp s) (e : Event) :
    NoLostWakeUp (s.step e) ↔ ¬ UncoversAdmissible s e := by
  cases hCancel : e.isCancel with
  | false =>
    refine iff_of_true (noLostWakeUp_of_not_isCancel hCancel h) ?_
    rintro ⟨file, w, rest, hQueue, hHead, -⟩
    rw [uncancelled_of_not_isCancel s hCancel] at hQueue
    exact hHead (by rw [hQueue, List.head?_cons])
  | true =>
    have hTable := table_of_isCancel s hCancel
    constructor
    · rintro hNew ⟨file, w, rest, hQueue, -, hAdmissible⟩
      have hWaits := hNew file w rest (by rw [hTable]; exact hQueue)
      rw [hTable] at hWaits
      exact Bool.false_ne_true (hWaits.symm.trans hAdmissible)
    · intro hCovers file w rest hCons
      rw [hTable] at hCons ⊢
      refine Bool.eq_false_iff.mpr fun hAdmissible => hCovers ⟨file, w, rest, hCons, ?_, hAdmissible⟩
      intro hHead
      obtain ⟨others, hQueue⟩ := List.head?_eq_some_iff.mp hHead
      exact Bool.false_ne_true ((h file w others hQueue).symm.trans hAdmissible)

theorem noLostWakeUp_init : NoLostWakeUp .init := fun _ w rest h => (List.cons_ne_nil w rest h.symm).elim

/-- No wake-up is lost in any state of a run exactly when no cancel of the run uncovers an admissible waiter. -/
theorem noLostWakeUp_run_iff (events : List Event) :
    (∀ past, past <+: events → NoLostWakeUp (run past)) ↔
      ∀ past e, past ++ [e] <+: events → ¬ UncoversAdmissible (run past) e := by
  constructor
  · intro h past e hPrefix
    have hPast := h past ((List.prefix_append past [e]).trans hPrefix)
    refine (noLostWakeUp_step_iff hPast e).mp ?_
    rw [← run_append]
    exact h _ hPrefix
  · intro h past
    induction past using List.reverseRecOn with
    | nil => exact fun _ => noLostWakeUp_init
    | append_singleton past e ih =>
      intro hPrefix
      rw [run_append]
      exact (noLostWakeUp_step_iff (ih ((List.prefix_append past [e]).trans hPrefix)) e).mpr (h past e hPrefix)

/-- The second holder waits for a hundred bytes and the third, behind it, for ten. The first keeps only bytes that the
third does not want; then the head is cancelled. -/
def uncoveringRun : List Event :=
  [.tryAcquireRange (1, 1) 0 10 .write [1] [1], .tryAcquireRangeWait (1, 1) 0 100 .write [2] [2],
    .tryAcquireRangeWait (1, 1) 5 10 .read [3] [3], .tryAcquireRange (1, 1) 50 10 .write [1] [1], .release 1 [1],
    .cancelWait 2 [2]]

theorem not_noLostWakeUp_uncoveringRun : ¬ NoLostWakeUp (run uncoveringRun) := by
  intro h
  have hWaits := h (1, 1) ⟨3, .range 5 10 .read, [3], [3], 1⟩ [] (by decide)
  exact absurd hWaits (by decide)

end F1r3Node.FileLocks
