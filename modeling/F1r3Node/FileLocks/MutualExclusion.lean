import F1r3Node.FileLocks.Grants

/-! # Mutual exclusion

The ids are distinct as long as their counter does not wrap: it goes on when an id above the ceiling is refused, and
after `2 ^ 64` draws it gives the first ids again.
-/

namespace F1r3Node.FileLocks

def SharesByte (e e' : RangeEntry) : Prop :=
  ∃ byte, (e.offset ≤ byte ∧ byte < e.offset + e.length) ∧ e'.offset ≤ byte ∧ byte < e'.offset + e'.length

def lockIds (state : FileLockState) : List Nat :=
  state.ranges.map (·.id) ++ state.sequentialHolder.toList.map (·.id) ++ state.waiters.map (·.lockId)

def LockRegistry.lockIds (reg : LockRegistry) : List Nat :=
  reg.inner.entries.flatMap fun entry => FileLocks.lockIds entry.2

structure LocksExclude (reg : LockRegistry) : Prop where
  shared : ∀ entry ∈ reg.inner.entries, ∀ e ∈ entry.2.ranges, ∀ e' ∈ entry.2.ranges, e.holder ≠ e'.holder →
    SharesByte e e' → e.mode = .read ∧ e'.mode = .read
  sequential : ∀ entry ∈ reg.inner.entries, entry.2.sequentialHolder.isSome → entry.2.ranges = []
  count : ∀ entry ∈ reg.inner.entries, entry.2.ranges.length ≤ maxRangesPerFile
  used : ∀ entry ∈ reg.inner.entries,
    entry.2.ranges ≠ [] ∨ entry.2.sequentialHolder.isSome ∨ entry.2.waiters ≠ []

def InBounds (offset length : Nat) : Prop := offset < 2 ^ 63 ∧ 0 < length ∧ length < 2 ^ 63

def WaitKind.InBounds : WaitKind → Prop
  | .range offset length _ => FileLocks.InBounds offset length
  | .sequential => True

def Event.InBounds : Event → Prop
  | .tryAcquireRange _ offset length _ _ _ => FileLocks.InBounds offset length
  | .tryAcquireRangeWait _ offset length _ _ _ => FileLocks.InBounds offset length
  | _ => True

theorem rangesOverlap_of_sharesByte {e e' : RangeEntry} (he : InBounds e.offset e.length)
    (he' : InBounds e'.offset e'.length) (h : SharesByte e e') :
    rangesOverlap (e.offset, e.length) (e'.offset, e'.length) = true := by
  obtain ⟨hOffset, hPos, hLength⟩ := he
  obtain ⟨hOffset', hPos', hLength'⟩ := he'
  obtain ⟨byte, ⟨hLow, hHigh⟩, hLow', hHigh'⟩ := h
  rw [rangesOverlap, if_neg (by omega)]
  refine Bool.and_eq_true_iff.mpr ⟨decide_eq_true ?_, decide_eq_true ?_⟩
  · exact lt_min (by omega) (by rw [u64Max]; omega)
  · exact lt_min (by omega) (by rw [u64Max]; omega)

theorem SharesByte.symm {e e' : RangeEntry} (h : SharesByte e e') : SharesByte e' e := by
  obtain ⟨byte, hByte, hByte'⟩ := h
  exact ⟨byte, hByte', hByte⟩

/-- The locks held on one file do not get in each other's way. -/
structure FileInvariant (state : FileLockState) : Prop where
  shared : ∀ e ∈ state.ranges, ∀ e' ∈ state.ranges, e.holder ≠ e'.holder → SharesByte e e' →
    e.mode = .read ∧ e'.mode = .read
  sequential : state.sequentialHolder.isSome → state.ranges = []
  count : state.ranges.length ≤ maxRangesPerFile
  bounds : ∀ e ∈ state.ranges, InBounds e.offset e.length
  parked : ∀ w ∈ state.waiters, w.kind.InBounds

theorem FileInvariant.empty : FileInvariant {} where
  shared _ h := absurd h List.not_mem_nil
  sequential _ := rfl
  count := Nat.zero_le _
  bounds _ h := absurd h List.not_mem_nil
  parked _ h := absurd h List.not_mem_nil

variable {state state' : FileLockState} {w : Waiter}

theorem FileInvariant.of_waiters (h : FileInvariant state) (hRanges : state'.ranges = state.ranges)
    (hSequential : state'.sequentialHolder = state.sequentialHolder)
    (hParked : ∀ w ∈ state'.waiters, w.kind.InBounds) : FileInvariant state' where
  shared := by rw [hRanges]; exact h.shared
  sequential := by rw [hRanges, hSequential]; exact h.sequential
  count := by rw [hRanges]; exact h.count
  bounds := by rw [hRanges]; exact h.bounds
  parked := hParked

theorem not_rangeConflicts {offset length : Nat} {mode : LockMode} {holder : HolderId}
    (h : rangeConflicts state offset length mode holder = false) :
    state.sequentialHolder = none ∧ ∀ entry ∈ state.ranges, entryConflicts entry offset length mode holder = false := by
  rw [rangeConflicts, Bool.or_eq_false_iff, List.any_eq_false] at h
  refine ⟨Option.isNone_iff_eq_none.mp (by simpa using h.1), ?_⟩
  intro entry hEntry
  exact Bool.eq_false_iff.mpr (h.2 entry hEntry)

theorem read_of_not_entryConflicts {entry entry' : RangeEntry} (hIn : InBounds entry.offset entry.length)
    (hIn' : InBounds entry'.offset entry'.length)
    (h : entryConflicts entry entry'.offset entry'.length entry'.mode entry'.holder = false)
    (hHolder : entry.holder ≠ entry'.holder) (hShares : SharesByte entry entry') :
    entry.mode = .read ∧ entry'.mode = .read := by
  rw [entryConflicts, rangesOverlap_of_sharesByte hIn hIn' hShares, Bool.true_and, beq_eq_false_iff_ne.mpr hHolder,
    Bool.not_false, Bool.and_true, Bool.not_eq_false', Bool.and_eq_true] at h
  exact ⟨eq_of_beq h.2, eq_of_beq h.1⟩

theorem FileInvariant.promote_range (h : FileInvariant state) {id offset length : Nat} {mode : LockMode}
    {holder : HolderId} {deploy : DeployScope} (hIn : InBounds offset length)
    (hCount : state.ranges.length < maxRangesPerFile)
    (hFree : rangeConflicts state offset length mode holder = false) :
    FileInvariant { state with ranges := state.ranges ++ [⟨id, offset, length, mode, holder, deploy⟩] } := by
  obtain ⟨hNone, hEntries⟩ := not_rangeConflicts hFree
  refine ⟨?_, ?_, ?_, ?_, h.parked⟩
  · intro e he e' he' hHolder hShares
    rcases List.mem_append.mp he with he | he <;> rcases List.mem_append.mp he' with he' | he'
    · exact h.shared e he e' he' hHolder hShares
    · cases List.mem_singleton.mp he'
      exact read_of_not_entryConflicts (h.bounds e he) hIn (hEntries e he) hHolder hShares
    · cases List.mem_singleton.mp he
      exact (read_of_not_entryConflicts (h.bounds e' he') hIn (hEntries e' he') hHolder.symm hShares.symm).symm
    · cases List.mem_singleton.mp he
      cases List.mem_singleton.mp he'
      exact absurd rfl hHolder
  · intro hSome
    rw [hNone] at hSome
    cases hSome
  · rw [List.length_append, List.length_singleton]
    exact hCount
  · intro e he
    rcases List.mem_append.mp he with he | he
    · exact h.bounds e he
    · cases List.mem_singleton.mp he
      exact hIn

theorem FileInvariant.promote (h : FileInvariant state) (hAdmissible : admissible state w = true)
    (hIn : w.kind.InBounds) : FileInvariant (promote state w) := by
  obtain ⟨lockId, kind, holder, deploy, admission⟩ := w
  cases kind with
  | range offset length mode =>
    rw [admissible, Bool.and_eq_true, decide_eq_true_eq, Bool.not_eq_true'] at hAdmissible
    exact h.promote_range hIn hAdmissible.1 hAdmissible.2
  | sequential =>
    rw [admissible_sequential, sequentialConflicts, Bool.not_or, Bool.and_eq_true, Bool.not_not,
      List.isEmpty_iff] at hAdmissible
    exact ⟨h.shared, fun _ => hAdmissible.2, h.count, h.bounds, h.parked⟩

theorem FileInvariant.dropped (h : FileInvariant state) (hDropped : Dropped state state') : FileInvariant state' where
  shared e he e' he' := h.shared e (hDropped.ranges.mem he) e' (hDropped.ranges.mem he')
  sequential hSome := by
    obtain ⟨s, hs⟩ := Option.isSome_iff_exists.mp hSome
    have hRanges := h.sequential (Option.isSome_iff_exists.mpr ⟨s, hDropped.sequentialHolder s hs⟩)
    exact List.sublist_nil.mp (hRanges ▸ hDropped.ranges)
  count := hDropped.ranges.length_le.trans h.count
  bounds e he := h.bounds e (hDropped.ranges.mem he)
  parked := by rw [hDropped.waiters]; exact h.parked

variable {alive : Channel → Bool}

theorem FileInvariant.woken {ws : List Waiter} (hWoken : Woken alive state ws state')
    (h : FileInvariant state) : FileInvariant state' := by
  induction hWoken with
  | stop _ => exact h
  | @admitted state _ w rest _ hQueue hAdmissible _ _ ih =>
    have hParked := List.forall_mem_cons.mp (hQueue ▸ h.parked)
    have hRest : FileInvariant { state with waiters := rest } := h.of_waiters rfl rfl hParked.2
    exact ih (hRest.promote hAdmissible hParked.1)
  | discard hQueue _ _ _ ih => exact ih (h.of_waiters rfl rfl (List.forall_mem_cons.mp (hQueue ▸ h.parked)).2)

theorem FileInvariant.released (h : FileInvariant state)
    (hReleased : Released alive state state') : FileInvariant state' := by
  obtain ⟨left, ws, hDropped, hWoken⟩ := hReleased
  exact (h.dropped hDropped).woken hWoken

variable {e : Event} {s : LockSystem}

theorem Event.InBounds.request {file : DevInode} (h : e.InBounds)
    (hRequest : e.request s = some (file, w)) : w.kind.InBounds := by
  cases e with
  | tryAcquireRange _ _ _ _ _ _ => cases hRequest; exact h
  | tryAcquireRangeWait _ _ _ _ _ _ => cases hRequest; exact h
  | tryAcquireSequential _ _ _ => cases hRequest; exact trivial
  | tryAcquireSequentialWait _ _ _ => cases hRequest; exact trivial
  | _ => cases hRequest

theorem fileInvariant_step (hIn : e.InBounds) (h : ∀ file, FileInvariant (s.table file))
    (file : DevInode) : FileInvariant ((s.step e).table file) := by
  cases step_change s e with
  | quiet hTable => rw [hTable]; exact h file
  | @granted target w hRequest hAdmissible hTable =>
    rw [hTable]
    rcases eq_or_ne file target with rfl | hNe
    · rw [Function.update_self]
      exact (h file).promote hAdmissible (hIn.request hRequest)
    · rw [Function.update_of_ne hNe]
      exact h file
  | @parked target w hRequest _ _ hTable =>
    rw [hTable]
    rcases eq_or_ne file target with rfl | hNe
    · rw [Function.update_self]
      refine (h file).of_waiters rfl rfl ?_
      intro w' hw'
      rcases List.mem_append.mp hw' with hw' | hw'
      · exact (h file).parked w' hw'
      · cases List.mem_singleton.mp hw'
        exact hIn.request hRequest
    · rw [Function.update_of_ne hNe]
      exact h file
  | released _ hFiles hDropped hTable =>
    rw [hTable]
    rcases released_of_sweepTable hFiles hDropped file with hSame | hReleased
    · rw [hSame]
      exact h file
    · exact (h file).released hReleased
  | cancelled hTable =>
    rw [hTable]
    exact (h file).of_waiters rfl rfl fun w' hw' => (h file).parked w' ((uncancelled_sublist s file e).mem hw')

theorem stateIsEmpty_of_mem_run (events : List Event) :
    ∀ entry ∈ (run events).registry.inner.entries, stateIsEmpty entry.2 = false := by
  refine run_induction (P := fun s => ∀ entry ∈ s.registry.inner.entries, stateIsEmpty entry.2 = false) ?_ ?_ events
  · intro entry h
    cases h
  · intro s e h entry hEntry
    rcases tidy_step s e entry hEntry with hOld | hNew
    · exact h entry hOld
    · exact hNew

variable {events : List Event}

theorem fileInvariant_run (hIn : ∀ e ∈ events, e.InBounds) (file : DevInode) :
    FileInvariant ((run events).table file) := by
  induction events using List.reverseRecOn generalizing file with
  | nil => exact .empty
  | append_singleton events e ih =>
    rw [run_append]
    refine fileInvariant_step (hIn e (by simp)) (fun other => ih ?_ other) file
    intro e' he'
    exact hIn e' (List.mem_append_left _ he')

theorem locksExclude_run (hIn : ∀ e ∈ events, e.InBounds) :
    LocksExclude (run events).registry := by
  have hFile : ∀ entry ∈ (run events).registry.inner.entries, FileInvariant entry.2 := by
    rintro ⟨file, state⟩ hEntry
    have hState : (run events).table file = state := stateOf_of_mem hEntry
    exact hState ▸ fileInvariant_run hIn file
  refine ⟨fun entry h => (hFile entry h).shared, fun entry h => (hFile entry h).sequential,
    fun entry h => (hFile entry h).count, ?_⟩
  intro entry hEntry
  have hUsed := stateIsEmpty_of_mem_run events entry hEntry
  by_contra hNone
  simp only [not_or, not_not, Bool.not_eq_true] at hNone
  rw [stateIsEmpty, hNone.1, hNone.2.2] at hUsed
  simp [hNone.2.1] at hUsed

theorem lockIds_promote (h : admissible state w = true) :
    (lockIds (promote state w)).Perm (w.lockId :: lockIds state) := by
  obtain ⟨lockId, kind, holder, deploy, admission⟩ := w
  cases kind with
  | range offset length mode =>
    simp only [promote, lockIds, List.map_append, List.map_cons, List.map_nil, List.append_assoc]
    exact List.perm_middle
  | sequential =>
    rw [admissible_sequential, sequentialConflicts, Bool.not_or, Bool.and_eq_true, Bool.not_eq_true',
      Option.isSome_eq_false_iff, Option.isNone_iff_eq_none] at h
    simp only [promote, lockIds, h.1, Option.toList_some, Option.toList_none, List.map_cons, List.map_nil,
      List.append_assoc]
    exact List.perm_middle

theorem lockIds_park (state : FileLockState) (w : Waiter) :
    (lockIds { state with waiters := state.waiters ++ [w] }).Perm (w.lockId :: lockIds state) := by
  simp only [lockIds, List.map_append, List.map_cons, List.map_nil, ← List.append_assoc]
  exact List.perm_append_singleton _ _

theorem lockIds_of_waiters {queue : List Waiter} (h : queue.Sublist state.waiters) :
    (lockIds { state with waiters := queue }).Sublist (lockIds state) := List.Sublist.append (.refl _) (h.map _)

theorem lockIds_dropped (h : Dropped state state') : (lockIds state').Sublist (lockIds state) := by
  have hSequential : state'.sequentialHolder.toList.Sublist state.sequentialHolder.toList := by
    cases hs : state'.sequentialHolder with
    | none => exact List.nil_sublist _
    | some s => rw [h.sequentialHolder s hs]
  rw [lockIds, lockIds, h.waiters]
  exact .append (.append (h.ranges.map _) (hSequential.map _)) (.refl _)

theorem lockIds_woken {ws : List Waiter} (h : Woken alive state ws state') :
    (lockIds state').Subperm (lockIds state) := by
  induction h with
  | stop _ => exact .refl _
  | @admitted state _ w rest _ hQueue hAdmissible _ _ ih =>
    have hPromote : (lockIds (promote { state with waiters := rest } w)).Perm (w.lockId :: lockIds { state with waiters := rest }) :=
      lockIds_promote hAdmissible
    have hMoved : (lockIds state).Perm (w.lockId :: lockIds { state with waiters := rest }) := by
      rw [lockIds, hQueue]
      exact List.perm_middle
    exact ih.trans (hPromote.trans hMoved.symm).subperm
  | @discard state _ w rest _ hQueue _ _ _ ih =>
    have hRest : rest.Sublist state.waiters := hQueue ▸ List.sublist_cons_self w rest
    exact ih.trans (lockIds_of_waiters hRest).subperm

theorem lockIds_released (h : Released alive state state') :
    (lockIds state').Subperm (lockIds state) := by
  obtain ⟨left, ws, hDropped, hWoken⟩ := h
  exact (lockIds_woken hWoken).trans (lockIds_dropped hDropped).subperm

/-- No id is given twice, and none has reached the counter. -/
structure DistinctIds (table : DevInode → FileLockState) (next : Nat) : Prop where
  nodup : ∀ file, (lockIds (table file)).Nodup
  disjoint : ∀ file other, file ≠ other → ∀ id ∈ lockIds (table file), id ∉ lockIds (table other)
  below : ∀ file, ∀ id ∈ lockIds (table file), id < next

namespace DistinctIds

variable {table table' : DevInode → FileLockState} {next next' : Nat}

theorem mono (h : DistinctIds table next) (hLe : next ≤ next') : DistinctIds table next' :=
  ⟨h.nodup, h.disjoint, fun file id hid => (h.below file id hid).trans_le hLe⟩

theorem shrink (h : DistinctIds table next) (hSub : ∀ file, (lockIds (table' file)).Subperm (lockIds (table file))) :
    DistinctIds table' next where
  nodup file := by
    obtain ⟨ids, hPerm, hSublist⟩ := hSub file
    exact hPerm.nodup_iff.mp (hSublist.nodup (h.nodup file))
  disjoint file other hNe id hid hOther :=
    h.disjoint file other hNe id ((hSub file).subset hid) ((hSub other).subset hOther)
  below file id hid := h.below file id ((hSub file).subset hid)

theorem grow (h : DistinctIds table next) {file : DevInode} {id : Nat} (hFresh : next ≤ id) (hNext : id < next')
    (hPerm : (lockIds state').Perm (id :: lockIds (table file))) :
    DistinctIds (Function.update table file state') next' := by
  have hNotMem : ∀ other, id ∉ lockIds (table other) := fun other hMem => absurd (h.below other id hMem) (by omega)
  have hMem : ∀ {id'}, id' ∈ lockIds state' → id' = id ∨ id' ∈ lockIds (table file) :=
    fun hid => List.mem_cons.mp (hPerm.mem_iff.mp hid)
  refine ⟨?_, ?_, ?_⟩
  · intro other
    rcases eq_or_ne other file with rfl | hNe
    · rw [Function.update_self]
      exact hPerm.nodup_iff.mpr (List.nodup_cons.mpr ⟨hNotMem other, h.nodup other⟩)
    · rw [Function.update_of_ne hNe]
      exact h.nodup other
  · intro f g hNe id' hf hg
    rcases eq_or_ne f file with rfl | hf'
    · rw [Function.update_self] at hf
      rw [Function.update_of_ne hNe.symm] at hg
      rcases hMem hf with rfl | hOld
      · exact hNotMem g hg
      · exact h.disjoint f g hNe id' hOld hg
    · rw [Function.update_of_ne hf'] at hf
      rcases eq_or_ne g file with rfl | hg'
      · rw [Function.update_self] at hg
        rcases hMem hg with rfl | hOld
        · exact hNotMem f hf
        · exact h.disjoint f g hNe id' hf hOld
      · rw [Function.update_of_ne hg'] at hg
        exact h.disjoint f g hNe id' hf hg
  · intro other id' hid
    rcases eq_or_ne other file with rfl | hNe
    · rw [Function.update_self] at hid
      rcases hMem hid with rfl | hOld
      · exact hNext
      · have := h.below other id' hOld
        omega
    · rw [Function.update_of_ne hNe] at hid
      have := h.below other id' hid
      omega

end DistinctIds

def DrawsId (s : LockSystem) (e : Event) : Prop := (s.step e).registry.nextLockId ≠ s.registry.nextLockId

theorem drawn_bounds {reg : LockRegistry} (hNext : reg.nextLockId < u64Max) :
    reg.nextLockId ≤ reg.drawn ∧ reg.afterDraw.nextLockId = reg.drawn + 1 ∧ reg.drawn < u64Max := by
  have hDrawn : reg.drawn < u64Max := by
    rw [LockRegistry.drawn]
    split_ifs
    · decide
    · exact hNext
  refine ⟨?_, Nat.mod_eq_of_lt (by rw [u64Max] at hDrawn; omega), hDrawn⟩
  rw [LockRegistry.drawn]
  split_ifs <;> omega

theorem lockId_of_request {file : DevInode} (h : e.request s = some (file, w)) :
    w.lockId = s.registry.drawn := by
  cases e <;> cases h <;> rfl

theorem distinctIds_step (hBelow : s.registry.nextLockId ≤ u64Max)
    (hDraws : DrawsId s e → s.registry.nextLockId < u64Max) (h : DistinctIds s.table s.registry.nextLockId) :
    (s.step e).registry.nextLockId ≤ u64Max ∧ DistinctIds (s.step e).table (s.step e).registry.nextLockId := by
  -- A counter at its last value would wrap to zero, which is a draw.
  have hLast : (s.step e).registry.nextLockId = s.registry.afterDraw.nextLockId → s.registry.nextLockId < u64Max := by
    intro hNext
    refine hBelow.lt_or_eq.elim id fun hEq => hDraws fun hSame => ?_
    have hWraps : ((if u64Max = 0 then 1 else u64Max) + 1) % 2 ^ 64 ≠ u64Max := by decide
    rw [hNext, LockRegistry.afterDraw, LockRegistry.drawn, hEq] at hSame
    exact hWraps hSame
  have hAfter : (s.step e).registry.nextLockId = s.registry.afterDraw.nextLockId →
      s.registry.nextLockId ≤ (s.step e).registry.nextLockId ∧ (s.step e).registry.nextLockId ≤ u64Max := by
    intro hNext
    have hBounds := drawn_bounds (hLast hNext)
    omega
  cases step_change s e with
  | quiet hTable _ hNext =>
    rw [hTable]
    rcases hNext with hNext | hNext
    · rw [hNext]
      exact ⟨hBelow, h⟩
    · exact ⟨(hAfter hNext).2, h.mono (hAfter hNext).1⟩
  | @granted file w hRequest hAdmissible hTable _ hNext =>
    have hBounds := drawn_bounds (hLast hNext)
    have hId : w.lockId = s.registry.drawn := lockId_of_request hRequest
    rw [hTable]
    exact ⟨(hAfter hNext).2, h.grow (by omega) (by omega) (hId ▸ lockIds_promote hAdmissible)⟩
  | @parked file w hRequest _ _ hTable _ hNext =>
    have hBounds := drawn_bounds (hLast hNext)
    have hId : w.lockId = s.registry.drawn := lockId_of_request hRequest
    rw [hTable]
    exact ⟨(hAfter hNext).2, h.grow (by omega) (by omega) (hId ▸ lockIds_park (s.table file) w)⟩
  | released _ hFiles hDropped hTable _ hNext =>
    rw [hNext, hTable]
    refine ⟨hBelow, h.shrink ?_⟩
    intro file
    rcases released_of_sweepTable hFiles hDropped file with hSame | hReleased
    · rw [hSame]
    · exact lockIds_released hReleased
  | cancelled hTable _ hNext =>
    rw [hNext]
    refine ⟨hBelow, h.shrink ?_⟩
    intro file
    rw [hTable]
    exact (lockIds_of_waiters (uncancelled_sublist s file e)).subperm

def CounterLasts (events : List Event) : Prop :=
  ∀ past e, past ++ [e] <+: events → DrawsId (run past) e → (run past).registry.nextLockId < u64Max

theorem distinctIds_run (hLasts : CounterLasts events) :
    (run events).registry.nextLockId ≤ u64Max ∧
      DistinctIds (run events).table (run events).registry.nextLockId := by
  induction events using List.reverseRecOn with
  | nil => exact ⟨Nat.zero_le _, fun _ => List.nodup_nil, fun _ _ _ id h => absurd h List.not_mem_nil,
      fun _ id h => absurd h List.not_mem_nil⟩
  | append_singleton events e ih =>
    have hPast := ih fun past e' hPrefix => hLasts past e' (hPrefix.trans (List.prefix_append _ _))
    rw [run_append]
    exact distinctIds_step hPast.1 (hLasts events e (List.prefix_refl _)) hPast.2

theorem DistinctIds.nodup_lockIds {next : Nat} (h : DistinctIds s.table next) :
    s.registry.lockIds.Nodup := by
  have hState : ∀ entry ∈ s.registry.inner.entries, s.table entry.1 = entry.2 := fun entry => stateOf_of_mem
  refine List.nodup_flatMap.mpr ⟨fun entry hEntry => hState entry hEntry ▸ h.nodup entry.1, ?_⟩
  have hKeys : s.registry.inner.entries.Pairwise fun entry other => entry.1 ≠ other.1 :=
    List.pairwise_map.mp s.registry.inner.keys_nodup
  refine hKeys.imp_of_mem ?_
  intro entry other hEntry hOther hNe id hid hid'
  dsimp only at hid hid'
  rw [← hState entry hEntry] at hid
  rw [← hState other hOther] at hid'
  exact h.disjoint entry.1 other.1 hNe id hid hid'

theorem nextLockId_step (s : LockSystem) (e : Event) :
    (s.step e).registry.nextLockId ≤ max 2 (s.registry.nextLockId + 1) := by
  have hAfter : s.registry.afterDraw.nextLockId ≤ max 2 (s.registry.nextLockId + 1) := by
    refine (Nat.mod_le _ _).trans ?_
    rw [LockRegistry.drawn]
    split_ifs <;> omega
  cases step_change s e with
  | quiet _ _ hNext => omega
  | granted _ _ _ _ hNext => omega
  | parked _ _ _ _ _ hNext => omega
  | released _ _ _ _ _ hNext => omega
  | cancelled _ _ hNext => omega

theorem nextLockId_run (events : List Event) : (run events).registry.nextLockId ≤ events.length + 1 := by
  induction events using List.reverseRecOn with
  | nil => exact Nat.zero_le _
  | append_singleton events e ih =>
    have hStep := nextLockId_step (run events) e
    rw [run_append, List.length_append, List.length_singleton]
    omega

theorem counterLasts_of_length (h : events.length < u64Max) : CounterLasts events := by
  intro past e hPrefix _
  have hNext := nextLockId_run past
  have hLength := hPrefix.length_le
  rw [List.length_append, List.length_singleton] at hLength
  omega

/-- Locks exclude each other in every state of every run, and their ids are distinct while the counter lasts. -/
theorem locksExclude_and_nodup_lockIds (events : List Event) (hIn : ∀ e ∈ events, e.InBounds) :
    LocksExclude (run events).registry ∧ (CounterLasts events → (run events).registry.lockIds.Nodup) :=
  ⟨locksExclude_run hIn, fun hLasts => (distinctIds_run hLasts).2.nodup_lockIds⟩

def twoReaders : List Event :=
  [.tryAcquireRange (1, 1) 0 10 .read [1] [1], .tryAcquireRangeWait (1, 1) 5 10 .read [2] [2]]

theorem locksExclude_and_nodup_lockIds_twoReaders :
    LocksExclude (run twoReaders).registry ∧ (run twoReaders).registry.lockIds.Nodup := by
  have hIn : ∀ e ∈ twoReaders, e.InBounds := by
    intro e he
    rcases List.mem_pair.mp he with rfl | rfl
    · exact ⟨by decide, by decide, by decide⟩
    · exact ⟨by decide, by decide, by decide⟩
  obtain ⟨hExclude, hDistinct⟩ := locksExclude_and_nodup_lockIds twoReaders hIn
  exact ⟨hExclude, hDistinct (counterLasts_of_length (by decide))⟩

def comeAndGo : List Event := [.tryAcquireSequential (2, 2) [2] [2], .releaseAllForHolder [2]]

def wrappingRun : List Event :=
  .tryAcquireSequential (1, 1) [1] [1] :: (List.replicate (2 ^ 64 - 2) comeAndGo).flatten ++
    [.tryAcquireSequential (3, 3) [3] [3]]

def firstHeld : AList fun _ : DevInode => FileLockState := AList.singleton (1, 1) { sequentialHolder := some ⟨1, [1], [1]⟩ }

theorem tryAcquireSequential_firstHeld {next : Nat} (hNext : next ≠ 0) :
    ((LockRegistry.mk firstHeld next).tryAcquireSequential (2, 2) [2] [2]).2 =
      if lockIdCeiling < next then ⟨firstHeld, (next + 1) % 2 ^ 64⟩
      else (LockRegistry.mk firstHeld ((next + 1) % 2 ^ 64)).put (2, 2) { sequentialHolder := some ⟨next, [2], [2]⟩ } := by
  have hFree : sequentialConflicts ((LockRegistry.mk firstHeld next).stateOf (2, 2)) = false := rfl
  have hDrawn : (LockRegistry.mk firstHeld next).drawn = next := if_neg hNext
  rw [LockRegistry.tryAcquireSequential, hFree, if_neg Bool.false_ne_true, mintNextLockId_eq, LockRegistry.afterDraw,
    hDrawn]
  split_ifs <;> rfl

theorem comeAndGo_registry {next : Nat} (hRegistry : s.registry = ⟨firstHeld, next⟩)
    (hNext : next ≠ 0) :
    (comeAndGo.foldl LockSystem.step s).registry = ⟨firstHeld, (next + 1) % 2 ^ 64⟩ := by
  change ((s.registry.tryAcquireSequential (2, 2) [2] [2]).2.releaseAllForHolder _ [2]).2 = _
  rw [hRegistry, tryAcquireSequential_firstHeld hNext]
  split_ifs <;> rfl

theorem registry_comeAndGo_rounds (hRegistry : s.registry = ⟨firstHeld, 2⟩) {n : Nat}
    (hn : n ≤ 2 ^ 64 - 2) :
    ((List.replicate n comeAndGo).flatten.foldl LockSystem.step s).registry = ⟨firstHeld, (n + 2) % 2 ^ 64⟩ := by
  induction n with
  | zero => exact hRegistry
  | succ n ih =>
    rw [List.replicate_succ', List.flatten_append, List.flatten_singleton, List.foldl_append,
      comeAndGo_registry (ih (by omega)) (by omega)]
    congr 1
    omega

theorem lockIds_wrappingRun : (run wrappingRun).registry.lockIds = [1, 1] := by
  have hFirst : (LockSystem.init.step (.tryAcquireSequential (1, 1) [1] [1])).registry = ⟨firstHeld, 2⟩ := rfl
  have hRounds := registry_comeAndGo_rounds hFirst (Nat.le_refl (2 ^ 64 - 2))
  have hZero : (2 ^ 64 - 2 + 2) % 2 ^ 64 = 0 := by decide
  rw [hZero] at hRounds
  rw [wrappingRun, run_append, LockSystem.step, run, List.foldl_cons, hRounds]
  rfl

theorem not_nodup_lockIds_wrappingRun :
    ¬ ∀ events : List Event, (∀ e ∈ events, e.InBounds) →
      LocksExclude (run events).registry ∧ (run events).registry.lockIds.Nodup := by
  intro h
  have hNodup := (h wrappingRun ?_).2
  · rw [lockIds_wrappingRun] at hNodup
    exact absurd hNodup (by decide)
  · have hRound : ∀ e ∈ (List.replicate (2 ^ 64 - 2) comeAndGo).flatten, e.InBounds := by
      intro e he
      obtain ⟨round, hMem, he⟩ := List.mem_flatten.mp he
      rw [List.eq_of_mem_replicate hMem] at he
      rcases List.mem_pair.mp he with rfl | rfl <;> trivial
    intro e he
    rcases List.mem_append.mp he with he | he
    · rcases List.mem_cons.mp he with rfl | he
      · trivial
      · exact hRound e he
    · cases List.mem_singleton.mp he
      trivial

end F1r3Node.FileLocks
