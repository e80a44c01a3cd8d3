import F1r3Node.FileLocks.Grants

/-! # The wait-for graph of the deploys

The check for cycles is made when a request parks. A grant adds edges as well, to the deploy that gets the lock from
those that stay parked on the file, and nothing is checked there.
-/

namespace F1r3Node.FileLocks

open F1r3Node.Lib

def WaitsFor (table : DevInode → FileLockState) (d h : DeployScope) : Prop :=
  d ≠ h ∧ ∃ file, d ∈ parkedDeploys (table file) ∧ h ∈ holderDeploys (table file)

def NoDeadlock (table : DevInode → FileLockState) : Prop := DepthFirst.Acyclic (WaitsFor table)

/-- The deploy that gets the lock does not wait, directly or through others, for another deploy that is parked on the
file. -/
def GrantSafe (g : Grant) : Prop :=
  ∀ d ∈ parkedDeploys (g.table g.file), d ≠ g.request.deploy →
    ¬ Relation.ReflTransGen (WaitsFor g.table) g.request.deploy d

theorem mem_waitsOn {reg : LockRegistry} {d h : DeployScope} :
    h ∈ waitsOn reg.inner d ↔ WaitsFor reg.stateOf d h := by
  rw [waitsOn, List.mem_flatMap]
  constructor
  · rintro ⟨⟨file, state⟩, hEntry, hMem⟩
    dsimp only at hMem
    split_ifs at hMem with hParked
    · obtain ⟨hHolds, hNe⟩ := List.mem_filter.mp hMem
      refine ⟨Ne.symm (of_decide_eq_true hNe), file, ?_, ?_⟩
      · rwa [stateOf_of_mem hEntry]
      · rwa [stateOf_of_mem hEntry]
    · cases hMem
  · rintro ⟨hNe, file, hParked, hHolds⟩
    cases hLookup : reg.inner.lookup file with
    | none =>
      rw [LockRegistry.stateOf, hLookup] at hParked
      cases hParked
    | some state =>
      have hEntry := AList.mem_lookup_iff.mp hLookup
      rw [stateOf_of_mem hEntry] at hParked hHolds
      refine ⟨⟨file, state⟩, hEntry, ?_⟩
      rw [if_pos hParked]
      exact List.mem_filter.mpr ⟨hHolds, decide_eq_true hNe.symm⟩

def allHolders (inner : AList fun _ : DevInode => FileLockState) : List DeployScope :=
  inner.entries.flatMap fun entry => holderDeploys entry.2

theorem waitsOn_sublist (inner : AList fun _ : DevInode => FileLockState) (node : DeployScope) :
    (waitsOn inner node).Sublist (allHolders inner) := by
  rw [waitsOn, allHolders]
  induction inner.entries with
  | nil => exact .refl _
  | cons entry entries ih =>
    rw [List.flatMap_cons, List.flatMap_cons]
    refine .append ?_ ih
    split_ifs
    · exact List.filter_sublist
    · exact List.nil_sublist _

theorem holderDeploys_sublist (reg : LockRegistry) (file : DevInode) :
    (holderDeploys (reg.stateOf file)).Sublist (allHolders reg.inner) := by
  cases hLookup : reg.inner.lookup file with
  | none =>
    rw [LockRegistry.stateOf, hLookup]
    exact List.nil_sublist _
  | some state =>
    have hEntry := AList.mem_lookup_iff.mp hLookup
    rw [stateOf_of_mem hEntry]
    exact List.sublist_flatten_of_mem (List.mem_map_of_mem hEntry)

theorem not_reflTransGen_of_wouldCloseCycle {reg : LockRegistry} {deploy : DeployScope} {file : DevInode}
    (h : wouldCloseCycle reg.inner deploy file = false) {holder : DeployScope}
    (hHolder : holder ∈ holderDeploys (reg.stateOf file)) (hNe : holder ≠ deploy) :
    ¬ Relation.ReflTransGen (WaitsFor reg.stateOf) holder deploy := by
  intro hReach
  have hEdges : DepthFirst.Reaches (waitsOn reg.inner) holder deploy :=
    Relation.ReflTransGen.mono (fun _ _ hEdge => mem_waitsOn.mpr hEdge) _ _ hReach
  have hSub : ((holderDeploys (reg.stateOf file)).filter (· ≠ deploy)).Sublist (allHolders reg.inner) :=
    List.filter_sublist.trans (holderDeploys_sublist reg file)
  have hNodes : ∀ n, ∀ m ∈ waitsOn reg.inner n, m ∈ allHolders reg.inner := fun n m hm => (waitsOn_sublist reg.inner n).mem hm
  have hWidth : ∀ n, (waitsOn reg.inner n).length ≤ holderCount reg.inner := fun n => (waitsOn_sublist reg.inner n).length_le
  have hRounds : (allHolders reg.inner).length * holderCount reg.inner +
      ((holderDeploys (reg.stateOf file)).filter (· ≠ deploy)).reverse.length <
        holderCount reg.inner * holderCount reg.inner + holderCount reg.inner + 1 := by
    have hLength : _ ≤ holderCount reg.inner := hSub.length_le
    change holderCount reg.inner * holderCount reg.inner + _ < _
    rw [List.length_reverse]
    omega
  have hFound := (DepthFirst.search_eq_true_iff hNodes hWidth
    (fun n hn => hSub.mem (List.mem_reverse.mp hn)) hRounds).mpr
      ⟨holder, List.mem_reverse.mpr (List.mem_filter.mpr ⟨hHolder, decide_eq_true hNe⟩), hEdges⟩
  exact Bool.false_ne_true (h.symm.trans hFound)

section changes

variable {table : DevInode → FileLockState} {file : DevInode} {state : FileLockState} {w : Waiter}

theorem WaitsFor.of_update {d h : DeployScope} (hEdge : WaitsFor (Function.update table file state) d h) :
    WaitsFor table d h ∨ d ≠ h ∧ d ∈ parkedDeploys state ∧ h ∈ holderDeploys state := by
  obtain ⟨hNe, other, hParked, hHolds⟩ := hEdge
  rcases eq_or_ne other file with rfl | hOther
  · rw [Function.update_self] at hParked hHolds
    exact .inr ⟨hNe, hParked, hHolds⟩
  · rw [Function.update_of_ne hOther] at hParked hHolds
    exact .inl ⟨hNe, other, hParked, hHolds⟩

theorem NoDeadlock.shrink (h : NoDeadlock table) (hParked : parkedDeploys state ⊆ parkedDeploys (table file))
    (hHolds : holderDeploys state ⊆ holderDeploys (table file)) : NoDeadlock (Function.update table file state) := by
  refine h.mono fun d holder hEdge => ?_
  rcases hEdge.of_update with hOld | ⟨hNe, hd, hh⟩
  · exact hOld
  · exact ⟨hNe, file, hParked hd, hHolds hh⟩

theorem mem_holderDeploys_promote {h : DeployScope} (hAdmissible : admissible state w = true) :
    h ∈ holderDeploys (promote state w) ↔ h ∈ holderDeploys state ∨ h = w.deploy := by
  obtain ⟨lockId, kind, holder, deploy, admission⟩ := w
  cases kind with
  | range offset length mode =>
    simp only [promote, holderDeploys, List.map_append, List.map_cons, List.map_nil, List.mem_append,
      List.mem_singleton]
    tauto
  | sequential =>
    rw [admissible_sequential, sequentialConflicts, Bool.not_or, Bool.and_eq_true, Bool.not_eq_true',
      Option.isSome_eq_false_iff, Option.isNone_iff_eq_none] at hAdmissible
    simp only [promote, holderDeploys, hAdmissible.1, Option.toList_some, Option.toList_none, List.map_cons,
      List.map_nil, List.append_nil, List.mem_append, List.mem_singleton]

theorem NoDeadlock.grant (h : NoDeadlock table) (hAdmissible : admissible (table file) w = true)
    (hSafe : GrantSafe ⟨file, table, w⟩) :
    NoDeadlock (Function.update table file (promote (table file) w)) := by
  refine DepthFirst.Acyclic.add h (fun d => d ∈ parkedDeploys (table file) ∧ d ≠ w.deploy) (fun d => d = w.deploy) ?_ ?_
  · intro d holder hEdge
    rcases hEdge.of_update with hOld | ⟨hNe, hParked, hHolds⟩
    · exact .inl hOld
    · rw [parkedDeploys, waiters_promote] at hParked
      rcases (mem_holderDeploys_promote hAdmissible).mp hHolds with hHolds | rfl
      · exact .inl ⟨hNe, file, hParked, hHolds⟩
      · exact .inr ⟨⟨hParked, hNe⟩, rfl⟩
  · rintro _ d rfl ⟨hParked, hNe⟩
    exact hSafe d hParked hNe

theorem NoDeadlock.park (h : NoDeadlock table)
    (hFree : ∀ holder ∈ holderDeploys (table file), holder ≠ w.deploy →
      ¬ Relation.ReflTransGen (WaitsFor table) holder w.deploy) :
    NoDeadlock (Function.update table file { table file with waiters := (table file).waiters ++ [w] }) := by
  refine DepthFirst.Acyclic.add h (fun d => d = w.deploy) (fun d => d ∈ holderDeploys (table file) ∧ d ≠ w.deploy) ?_ ?_
  · intro d holder hEdge
    rcases hEdge.of_update with hOld | ⟨hNe, hParked, hHolds⟩
    · exact .inl hOld
    · rw [parkedDeploys, List.map_append] at hParked
      rcases List.mem_append.mp hParked with hParked | hParked
      · exact .inl ⟨hNe, file, hParked, hHolds⟩
      · cases List.mem_singleton.mp hParked
        exact .inr ⟨rfl, hHolds, hNe.symm⟩
  · rintro holder _ ⟨hHolds, hNe⟩ rfl
    exact hFree holder hHolds hNe

end changes

theorem noDeadlock_wakeFrom {alive : Channel → Bool} {table : DevInode → FileLockState} {file : DevInode}
    {queue : List Waiter} {state : FileLockState} (hQueue : state.waiters = queue)
    (h : NoDeadlock (Function.update table file state))
    (hSafe : ∀ g ∈ wakeGrants alive table file queue state, GrantSafe g) :
    NoDeadlock (Function.update table file (wakeFrom alive queue state).2) := by
  induction queue generalizing state with
  | nil =>
    obtain ⟨ranges, sequentialHolder, waiters⟩ := state
    cases hQueue
    exact h
  | cons head rest ih =>
    have hLeft : NoDeadlock (Function.update table file { state with waiters := rest }) := by
      have hShrink : NoDeadlock (Function.update (Function.update table file state) file { state with waiters := rest }) := by
        refine h.shrink ?_ ?_
        · rw [Function.update_self, parkedDeploys, parkedDeploys, hQueue]
          exact List.subset_cons_self _ _
        · rw [Function.update_self]
          exact List.Subset.refl _
      rwa [Function.update_idem] at hShrink
    rw [wakeFrom]
    rw [wakeGrants] at hSafe
    dsimp only at hSafe ⊢
    split_ifs at hSafe ⊢ with hAdmissible hAlive
    · obtain ⟨hHead, hRest⟩ := List.forall_mem_cons.mp hSafe
      refine ih (waiters_promote _ _) ?_ hRest
      have hStill : admissible (Function.update table file { state with waiters := rest } file) head = true := by
        rw [Function.update_self]
        exact hAdmissible
      have hGrant := hLeft.grant hStill hHead
      rwa [Function.update_idem, Function.update_self] at hGrant
    · have hBack : rollBack (promote { state with waiters := rest } head) head = { state with waiters := rest } :=
        rollBack_promote hAdmissible
      rw [hBack] at hSafe ⊢
      exact ih rfl hLeft hSafe
    · rwa [← hQueue]

theorem Dropped.holderDeploys_subset {state state' : FileLockState} (h : Dropped state state') :
    holderDeploys state' ⊆ holderDeploys state := by
  intro d hd
  rcases List.mem_append.mp hd with hd | hd
  · exact List.mem_append_left _ ((h.ranges.map _).mem hd)
  · obtain ⟨s, hs, rfl⟩ := List.mem_map.mp hd
    refine List.mem_append_right _ (List.mem_map_of_mem ?_)
    exact Option.mem_toList.mpr (h.sequentialHolder s (Option.mem_toList.mp hs))

theorem noDeadlock_sweepTable {alive : Channel → Bool} {drop : FileLockState → FileLockState} {files : List DevInode}
    {table : DevInode → FileLockState} (hFiles : files.Nodup)
    (hDropped : ∀ file ∈ files, Dropped (table file) (drop (table file))) (h : NoDeadlock table)
    (hSafe : ∀ g ∈ sweepGrants alive drop files table, GrantSafe g) :
    NoDeadlock (sweepTable alive drop files table) := by
  induction files generalizing table with
  | nil => exact h
  | cons first files ih =>
    obtain ⟨hFirst, hRest⟩ := List.nodup_cons.mp hFiles
    obtain ⟨hDrop, hDrops⟩ := List.forall_mem_cons.mp hDropped
    obtain ⟨hSafeFirst, hSafeRest⟩ := List.forall_mem_append.mp hSafe
    have hLeft : NoDeadlock (Function.update table first (drop (table first))) := by
      refine h.shrink ?_ hDrop.holderDeploys_subset
      rw [parkedDeploys, parkedDeploys, hDrop.waiters]
      exact List.Subset.refl _
    refine ih hRest ?_ (noDeadlock_wakeFrom rfl hLeft hSafeFirst) hSafeRest
    intro file hFile
    dsimp only
    rw [Function.update_of_ne (ne_of_mem_of_not_mem hFile hFirst)]
    exact hDrops file hFile

theorem noDeadlock_step {s : LockSystem} {e : Event} (h : NoDeadlock s.table) (hSafe : ∀ g ∈ s.grants e, GrantSafe g) :
    NoDeadlock (s.step e).table := by
  cases step_change s e with
  | quiet hTable => rw [hTable]; exact h
  | granted _ hAdmissible hTable hGrants =>
    rw [hTable]
    exact h.grant hAdmissible (hSafe _ (by rw [hGrants]; exact List.mem_singleton_self _))
  | parked _ _ hCycle hTable =>
    rw [hTable]
    exact h.park fun holder hHolds hNe => not_reflTransGen_of_wouldCloseCycle hCycle hHolds hNe
  | released _ hFiles hDropped hTable hGrants =>
    rw [hTable]
    exact noDeadlock_sweepTable hFiles hDropped h (hGrants ▸ hSafe)
  | cancelled hTable =>
    refine h.mono fun d holder hEdge => ?_
    obtain ⟨hNe, file, hParked, hHolds⟩ := hEdge
    rw [hTable] at hParked hHolds
    exact ⟨hNe, file, ((uncancelled_sublist s file e).map _).mem hParked, hHolds⟩

/-- There is no deadlock in any state of a run in which every lock is granted to a deploy that does not wait for one
parked on the file. -/
theorem noDeadlock_run (events : List Event)
    (hSafe : ∀ past e, past ++ [e] <+: events → ∀ g ∈ (run past).grants e, GrantSafe g) :
    NoDeadlock (run events).table := by
  induction events using List.reverseRecOn with
  | nil =>
    rintro d hCycle
    obtain ⟨_, ⟨-, _, hParked, -⟩, -⟩ := Relation.TransGen.head'_iff.mp hCycle
    cases hParked
  | append_singleton events e ih =>
    rw [run_append]
    refine noDeadlock_step (ih fun past e' hPrefix => ?_) (hSafe events e (List.prefix_refl _))
    exact hSafe past e' (hPrefix.trans (List.prefix_append _ _))

def handOver : List Event :=
  [.tryAcquireRange (1, 1) 0 10 .write [1] [1], .tryAcquireRangeWait (1, 1) 0 10 .write [2] [2], .release 1 [1]]

theorem noDeadlock_run_handOver : NoDeadlock (run handOver).table := by
  have hAlone : ∀ {g : Grant}, parkedDeploys (g.table g.file) = [] → GrantSafe g := by
    intro g hNone d hd
    rw [hNone] at hd
    cases hd
  have hGrants : Along (fun s e => ∀ g ∈ s.grants e, parkedDeploys (g.table g.file) = []) .init handOver :=
    ⟨by decide, by decide, by decide, trivial⟩
  exact noDeadlock_run handOver fun past e hPrefix g hg =>
    hAlone (forall_prefix_of_along hGrants past e hPrefix g hg)

/-- The second deploy waits on the first file, the third one waits for the second and then joins the readers of the first
file. -/
def deadlockRun : List Event :=
  [.tryAcquireRange (1, 1) 0 10 .read [1] [1], .tryAcquireRange (2, 2) 0 10 .write [2] [2],
    .tryAcquireRangeWait (1, 1) 0 10 .write [2] [2], .tryAcquireRangeWait (2, 2) 0 10 .write [3] [3],
    .tryAcquireRange (1, 1) 0 10 .read [3] [3]]

theorem not_noDeadlock_deadlockRun : ¬ NoDeadlock (run deadlockRun).table := by
  intro h
  have hThird : WaitsFor (run deadlockRun).table [3] [2] := ⟨by decide, (2, 2), by decide, by decide⟩
  have hSecond : WaitsFor (run deadlockRun).table [2] [3] := ⟨by decide, (1, 1), by decide, by decide⟩
  exact h [3] (.tail (.single hThird) hSecond)

end F1r3Node.FileLocks
