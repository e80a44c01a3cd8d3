import F1r3Node.FileLocks.Grants

/-! # Overtaking

The wake pass admits waiters in the order in which they parked. The direct acquires of a range do not look at the queue,
so a waiter is overtaken exactly by those that conflict with it.
-/

namespace F1r3Node.FileLocks

def requestsConflict : WaitKind → WaitKind → Bool
  | .range offset length mode, .range offset' length' mode' =>
    rangesOverlap (offset, length) (offset', length') && !(mode == .read && mode' == .read)
  | _, _ => true

/-- Nothing is granted while a waiter is parked on the file that parked before the request was issued, belongs to
another holder and conflicts with it. Channels are numbered in the order in which acquires park, and a request that
is granted at once has the number of the next channel. -/
def NoOvertaking (s : LockSystem) (e : Event) : Prop :=
  ∀ g ∈ s.grants e, ∀ w ∈ (g.table g.file).waiters, w.admission < g.request.admission → w.holder ≠ g.request.holder →
    requestsConflict w.kind g.request.kind = false

/-- An acquire is granted at once although a waiter of another holder is parked on the file that conflicts with it. -/
def JumpsQueue (s : LockSystem) (e : Event) : Prop :=
  ∃ file request, e.request s = some (file, request) ∧ s.grants e ≠ [] ∧
    ∃ w ∈ (s.table file).waiters, w.holder ≠ request.holder ∧ requestsConflict w.kind request.kind = true

def Waiter.lock (w : Waiter) : LockId × WaitKind × HolderId × DeployScope := (w.lockId, w.kind, w.holder, w.deploy)

variable {state state' : FileLockState} {lock : LockId × WaitKind × HolderId × DeployScope}

structure QueueOrdered (state : FileLockState) (channels : Nat) : Prop where
  sorted : state.waiters.Pairwise fun w w' => w.admission < w'.admission
  opened : ∀ w ∈ state.waiters, w.admission < channels

theorem QueueOrdered.sublist {channels channels' : Nat} (h : QueueOrdered state channels)
    (hQueue : state'.waiters.Sublist state.waiters) (hChannels : channels ≤ channels') :
    QueueOrdered state' channels' :=
  ⟨h.sorted.sublist hQueue, fun w hw => (h.opened w (hQueue.mem hw)).trans_le hChannels⟩

variable {alive : Channel → Bool}

theorem Woken.sublist {ws : List Waiter} (h : Woken alive state ws state') :
    state'.waiters.Sublist state.waiters := by
  induction h with
  | stop _ => exact .refl _
  | @admitted state _ w rest _ hQueue _ _ _ ih =>
    rw [waiters_promote] at ih
    exact hQueue ▸ ih.cons w
  | @discard state _ w rest _ hQueue _ _ _ ih => exact hQueue ▸ ih.cons w

theorem Released.sublist (h : Released alive state state') :
    state'.waiters.Sublist state.waiters := by
  obtain ⟨left, ws, hDropped, hWoken⟩ := h
  exact hDropped.waiters ▸ hWoken.sublist

variable {s : LockSystem}

theorem admit_of_request {e : Event} {file : DevInode} {w : Waiter}
    (h : e.request s = some (file, w)) : w.admission = s.channels := by
  cases e <;> cases h <;> rfl

theorem queueOrdered_step (e : Event) (h : ∀ file, QueueOrdered (s.table file) s.channels)
    (file : DevInode) : QueueOrdered ((s.step e).table file) (s.step e).channels := by
  cases step_change s e with
  | quiet hTable _ _ hChannels => rw [hTable, hChannels]; exact h file
  | @granted target w _ _ hTable _ _ hChannels =>
    rw [hTable, hChannels]
    rcases eq_or_ne file target with rfl | hNe
    · rw [Function.update_self]
      exact (h file).sublist (by rw [waiters_promote]) le_rfl
    · rw [Function.update_of_ne hNe]
      exact h file
  | @parked target w hRequest _ _ hTable _ _ hChannels =>
    have hAdmit := admit_of_request hRequest
    rw [hTable, hChannels]
    rcases eq_or_ne file target with rfl | hNe
    · rw [Function.update_self]
      refine ⟨?_, ?_⟩
      · refine List.pairwise_append.mpr ⟨(h file).sorted, List.pairwise_singleton _ _, ?_⟩
        intro w' hw' last hLast
        rw [List.mem_singleton.mp hLast, hAdmit]
        exact (h file).opened w' hw'
      · intro w' hw'
        rcases List.mem_append.mp hw' with hw' | hw'
        · exact Nat.lt_succ_of_lt ((h file).opened w' hw')
        · rw [List.mem_singleton.mp hw', hAdmit]
          exact Nat.lt_succ_self _
    · rw [Function.update_of_ne hNe]
      exact (h file).sublist (.refl _) (Nat.le_succ _)
  | released _ hFiles hDropped hTable _ _ hChannels =>
    rw [hTable, hChannels]
    rcases released_of_sweepTable hFiles hDropped file with hSame | hReleased
    · rw [hSame]
      exact h file
    · exact (h file).sublist hReleased.sublist le_rfl
  | cancelled hTable _ _ hChannels =>
    rw [hTable, hChannels]
    exact (h file).sublist (uncancelled_sublist s file e) le_rfl

theorem queueOrdered_run (events : List Event) (file : DevInode) :
    QueueOrdered ((run events).table file) (run events).channels := by
  revert file
  refine run_induction (P := fun s => ∀ file, QueueOrdered (s.table file) s.channels) ?_ ?_ events
  · exact fun _ => ⟨List.Pairwise.nil, fun _ h => absurd h List.not_mem_nil⟩
  · exact fun s e h => queueOrdered_step e h

variable {table : DevInode → FileLockState}

theorem exists_of_mem_wakeGrants {file : DevInode}
    {queue : List Waiter} {g : Grant} (hg : g ∈ wakeGrants alive table file queue state) :
    ∃ ahead, queue = ahead ++ g.request :: (g.table g.file).waiters := by
  induction queue generalizing state with
  | nil => cases hg
  | cons head rest ih =>
    rw [wakeGrants] at hg
    dsimp only at hg
    split_ifs at hg with hAdmissible hAlive
    · rcases List.mem_cons.mp hg with rfl | hg
      · exact ⟨[], by simp only [Function.update_self, List.nil_append]⟩
      · obtain ⟨ahead, hQueue⟩ := ih hg
        exact ⟨head :: ahead, by rw [hQueue, List.cons_append]⟩
    · obtain ⟨ahead, hQueue⟩ := ih hg
      exact ⟨head :: ahead, by rw [hQueue, List.cons_append]⟩
    · cases hg

variable {drop : FileLockState → FileLockState}

theorem exists_of_mem_sweepGrants {files : List DevInode} {g : Grant} (hFiles : files.Nodup)
    (hg : g ∈ sweepGrants alive drop files table) :
    ∃ file ∈ files, ∃ table', g ∈ wakeGrants alive table' file (drop (table file)).waiters (drop (table file)) := by
  induction files generalizing table with
  | nil => cases hg
  | cons first files ih =>
    obtain ⟨hFirst, hRest⟩ := List.nodup_cons.mp hFiles
    rcases List.mem_append.mp hg with hg | hg
    · exact ⟨first, List.mem_cons_self, table, hg⟩
    · obtain ⟨file, hFile, table', hg⟩ := ih hRest hg
      rw [Function.update_of_ne (ne_of_mem_of_not_mem hFile hFirst)] at hg
      exact ⟨file, List.mem_cons_of_mem _ hFile, table', hg⟩

theorem noOvertaking_of_released {e : Event} (hOrdered : ∀ file, QueueOrdered (s.table file) s.channels)
    {files : List DevInode} (hFiles : files.Nodup)
    (hDropped : ∀ file ∈ files, Dropped (s.table file) (drop (s.table file)))
    (hGrants : s.grants e = sweepGrants s.alive drop files s.table) : NoOvertaking s e := by
  intro g hg w hw hBefore
  rw [hGrants] at hg
  obtain ⟨file, hFile, table', hg⟩ := exists_of_mem_sweepGrants hFiles hg
  obtain ⟨ahead, hQueue⟩ := exists_of_mem_wakeGrants hg
  have hSorted := (hOrdered file).sorted
  rw [← (hDropped file hFile).waiters, hQueue] at hSorted
  have hBehind := (List.pairwise_cons.mp (List.pairwise_append.mp hSorted).2.1).1 w hw
  exact absurd hBehind (Nat.lt_asymm hBefore)

theorem noOvertaking_iff (hOrdered : ∀ file, QueueOrdered (s.table file) s.channels) (e : Event) :
    NoOvertaking s e ↔ ¬ JumpsQueue s e := by
  have hNone : s.grants e = [] → (NoOvertaking s e ↔ ¬ JumpsQueue s e) := by
    intro hGrants
    refine iff_of_true ?_ ?_
    · intro g hg
      rw [hGrants] at hg
      cases hg
    · rintro ⟨_, _, _, hSome, -⟩
      exact hSome hGrants
  cases step_change s e with
  | quiet _ hGrants => exact hNone hGrants
  | parked _ _ _ _ hGrants => exact hNone hGrants
  | cancelled _ hGrants => exact hNone hGrants
  | released hRequest hFiles hDropped _ hGrants =>
    refine iff_of_true (noOvertaking_of_released hOrdered hFiles hDropped hGrants) ?_
    rintro ⟨_, _, hSome, -⟩
    rw [hRequest] at hSome
    cases hSome
  | @granted file request hRequest _ _ hGrants =>
    have hAdmit := admit_of_request hRequest
    constructor
    · rintro hNo ⟨_, _, hSome, -, w, hw, hHolder, hConflict⟩
      rw [hRequest] at hSome
      cases hSome
      have hLater : w.admission < request.admission := by
        rw [hAdmit]
        exact (hOrdered file).opened w hw
      have hFree := hNo ⟨file, s.table, request⟩ (by rw [hGrants]; exact List.mem_singleton_self _) w hw hLater hHolder
      exact Bool.false_ne_true (hFree.symm.trans hConflict)
    · intro hJumps g hg w hw _ hHolder
      rw [hGrants] at hg
      cases List.mem_singleton.mp hg
      refine Bool.eq_false_iff.mpr fun hConflict => hJumps ⟨file, request, hRequest, ?_, w, hw, hHolder, hConflict⟩
      rw [hGrants]
      exact List.cons_ne_nil _ _

/-- No waiter is overtaken in a run exactly when no acquire of the run jumps the queue. -/
theorem noOvertaking_run_iff (events : List Event) :
    (∀ past e, past ++ [e] <+: events → NoOvertaking (run past) e) ↔
      ∀ past e, past ++ [e] <+: events → ¬ JumpsQueue (run past) e := by
  constructor
  · intro h past e hPrefix
    exact (noOvertaking_iff (queueOrdered_run past) e).mp (h past e hPrefix)
  · intro h past e hPrefix
    exact (noOvertaking_iff (queueOrdered_run past) e).mpr (h past e hPrefix)

def writerWaits : List Event :=
  [.tryAcquireRange (1, 1) 0 10 .read [1] [1], .tryAcquireRangeWait (1, 1) 0 10 .write [2] [2]]

theorem not_noOvertaking_writerWaits : ¬ NoOvertaking (run writerWaits) (.tryAcquireRange (1, 1) 0 10 .read [3] [3]) := by
  intro h
  have hFree := h ⟨(1, 1), (run writerWaits).table, ⟨3, .range 0 10 .read, [3], [3], 1⟩⟩ List.mem_cons_self
    ⟨2, .range 0 10 .write, [2], [2], 0⟩ List.mem_cons_self (by decide) (by decide)
  exact absurd hFree (by decide)

end F1r3Node.FileLocks
