import F1r3Node.Dag.CommonAncestor
import F1r3Node.Lib.Dominators

/-! # The common ancestor of all paths

As long as the search holds two blocks, the first of them is above the highest block on all paths, so it is never that
block that gives way.
-/

namespace F1r3Node.Dag

open Shared Lib

theorem exists_mem_insertDescending (m : BlockMetadata) (current : List BlockMetadata) :
    ∃ x ∈ insertDescending m current, x.blockHash = m.blockHash := by
  induction current with
  | nil => exact ⟨m, List.mem_singleton.mpr rfl, rfl⟩
  | cons a rest ih =>
    rw [insertDescending]
    split
    · next hSame => exact ⟨a, List.mem_cons_self, hSame.2⟩
    · split
      · exact ⟨m, List.mem_cons_self, rfl⟩
      · obtain ⟨x, hx, hHash⟩ := ih
        exact ⟨x, List.mem_cons_of_mem _ hx, hHash⟩

theorem exists_mem_insertAllDescending {ms : List BlockMetadata} {m : BlockMetadata} (hm : m ∈ ms)
    (current : List BlockMetadata) : ∃ x ∈ insertAllDescending ms current, x.blockHash = m.blockHash := by
  induction ms generalizing current with
  | nil => cases hm
  | cons a ms ih =>
    rcases List.mem_cons.mp hm with rfl | hm
    · obtain ⟨x, hx, hHash⟩ := exists_mem_insertDescending m current
      exact ⟨x, mem_insertAllDescending_of_mem ms hx, hHash⟩
    · exact ih hm _

namespace KeyValueDagRepresentation

variable {dag : KeyValueDagRepresentation}

def HasParent (dag : KeyValueDagRepresentation) (m parent : BlockMetadata) : Prop :=
  m ∈ dag.records ∧ parent ∈ dag.records ∧ parent.blockHash ∈ m.parents

theorem HasParent.number_lt {m parent : BlockMetadata} (h : dag.HasParent m parent) :
    parent.blockNumber < m.blockNumber :=
  dag.parents_lower m.blockHash m (mem_records.mp h.1) parent.blockHash h.2.2 parent (mem_records.mp h.2.1)

theorem HasParent.number_nonneg {m parent : BlockMetadata} (h : dag.HasParent m parent) : 0 ≤ parent.blockNumber :=
  dag.number_nonneg parent.blockHash parent (mem_records.mp h.2.1)

theorem eq_of_blockHash {a b : BlockMetadata} (ha : a ∈ dag.records) (hb : b ∈ dag.records)
    (h : a.blockHash = b.blockHash) : a = b := by
  have hSame := mem_records.mp ha
  rw [h, mem_records.mp hb] at hSame
  exact (Option.some.inj hSame).symm

theorem mem_insertAllDescending_of_records {ms current : List BlockMetadata} {m : BlockMetadata} (hm : m ∈ ms)
    (hRecords : ∀ x ∈ insertAllDescending ms current, x ∈ dag.records) (hHeld : m ∈ dag.records) :
    m ∈ insertAllDescending ms current := by
  obtain ⟨x, hx, hHash⟩ := exists_mem_insertAllDescending hm current
  rwa [← eq_of_blockHash (hRecords x hx) hHeld hHash]

/-- What the search knows of its blocks: the block `d` is on all paths from each, and they meet all paths from the
blocks it started with. -/
structure SearchInvariant (dag : KeyValueDagRepresentation) (blocks : List BlockMetadata) (d : BlockMetadata)
    (current : List BlockMetadata) : Prop where
  held : ∀ m ∈ current, m ∈ dag.records
  sorted : current.Pairwise fun a b => precedes a b = true
  dominated : ∀ m ∈ current, Dominates dag.HasParent d m
  cuts : ∀ m ∈ blocks, Cuts dag.HasParent current m

namespace SearchInvariant

variable {blocks current : List BlockMetadata} {d : BlockMetadata}

theorem number_lt {head next : BlockMetadata} {rest : List BlockMetadata}
    (h : dag.SearchInvariant blocks d (head :: next :: rest)) : d ≠ head ∧ d.blockNumber < head.blockNumber := by
  have hLower (m : BlockMetadata) (hm : m ∈ head :: next :: rest) (hne : d ≠ m) : d.blockNumber < m.blockNumber :=
    (h.dominated m hm).rank_lt (fun _ _ hb => hb.number_lt) (fun _ _ hb => hb.number_nonneg) hne
  have hBefore := (List.pairwise_cons.mp h.sorted).1 next List.mem_cons_self
  have hne : d ≠ head := by
    rintro rfl
    -- Another block of the search would be above the first one.
    have hOther : d ≠ next := by
      rintro rfl
      rw [precedes_irrefl] at hBefore
      cases hBefore
    have hLt := hLower next (List.mem_cons_of_mem _ List.mem_cons_self) hOther
    rw [precedes_iff] at hBefore
    omega
  exact ⟨hne, hLower head List.mem_cons_self hne⟩

theorem expand {head next : BlockMetadata} {rest parents : List BlockMetadata}
    (h : dag.SearchInvariant blocks d (head :: next :: rest))
    (hParents : ∀ p, p ∈ parents ↔ dag.HasParent head p) :
    dag.SearchInvariant blocks d (insertAllDescending parents (next :: rest)) := by
  obtain ⟨hne, -⟩ := h.number_lt
  have hHead := h.dominated head List.mem_cons_self
  have hHeld : ∀ m ∈ insertAllDescending parents (next :: rest), m ∈ dag.records := by
    intro m hm
    rcases mem_of_mem_insertAllDescending hm with hm | hm
    · exact ((hParents m).mp hm).2.1
    · exact h.held m (List.mem_cons_of_mem _ hm)
  refine ⟨hHeld, pairwise_insertAllDescending parents (List.pairwise_cons.mp h.sorted).2, ?_, ?_⟩
  · intro m hm
    rcases mem_of_mem_insertAllDescending hm with hm | hm
    · exact hHead.of_below hne ((hParents m).mp hm)
    · exact h.dominated m (List.mem_cons_of_mem _ hm)
  · intro m hm
    apply (h.cuts m hm).expand (hHead.exists_below hne)
    · intro p hp
      exact mem_insertAllDescending_of_records ((hParents p).mpr hp) hHeld hp.2.1
    · intro p hp
      exact mem_insertAllDescending_of_mem parents hp

end SearchInvariant

theorem FullyHeld.mapM_lookupUnsafe_eq (hHeld : dag.FullyHeld) {m : BlockMetadata} (hm : m ∈ dag.records) :
    ∃ parents, m.parents.mapM dag.lookupUnsafe = .ok parents ∧ ∀ p, p ∈ parents ↔ dag.HasParent m p := by
  obtain ⟨parents, hParents, -⟩ := hHeld.mapM_lookupUnsafe hm
  refine ⟨parents, hParents, fun p => ?_⟩
  rw [mem_of_mapM_ok hParents]
  constructor
  · rintro ⟨hash, hHash, hLookup⟩
    rw [lookupUnsafe_eq_ok] at hLookup
    refine ⟨hm, mem_records_of_lookup hLookup, ?_⟩
    rwa [blockHash_of_lookup hLookup]
  · rintro ⟨-, hp, hHash⟩
    exact ⟨p.blockHash, hHash, lookupUnsafe_eq_ok.mpr (mem_records.mp hp)⟩

/-- The highest of the blocks that are on all paths from all the given blocks. -/
structure HighestDominator (dag : KeyValueDagRepresentation) (blocks : List BlockMetadata) (d : BlockMetadata) :
    Prop where
  dominates : ∀ m ∈ blocks, Dominates dag.HasParent d m
  highest : ∀ d', (∀ m ∈ blocks, Dominates dag.HasParent d' m) → d'.blockNumber ≤ d.blockNumber

theorem SearchInvariant.eq_of_single {blocks : List BlockMetadata} {d last : BlockMetadata}
    (h : dag.SearchInvariant blocks d [last]) (hd : dag.HighestDominator blocks d) : last = d := by
  have hHighest := hd.highest last fun m hm => dominates_of_cuts (h.cuts m hm)
  by_contra hne
  have hLower := (h.dominated last List.mem_cons_self).rank_lt (fun _ _ hb => hb.number_lt)
    (fun _ _ hb => hb.number_nonneg) (Ne.symm hne)
  omega

theorem FullyHeld.lucaLoop_eq (hHeld : dag.FullyHeld) {blocks : List BlockMetadata} {d floor : BlockMetadata}
    (hd : dag.HighestDominator blocks d) (hFloor : floor.blockNumber < d.blockNumber) {fuel : Nat}
    {head : BlockMetadata} {tail : List BlockMetadata} (h : dag.SearchInvariant blocks d (head :: tail))
    (hFuel : dag.countAfter head ≤ fuel) : dag.lucaLoop floor fuel (head :: tail) = .ok d := by
  induction fuel generalizing head tail with
  | zero =>
    cases tail with
    | nil => exact congrArg Except.ok (h.eq_of_single hd)
    | cons next rest =>
      have hNext := countAfter_lt (h.held next (List.mem_cons_of_mem _ List.mem_cons_self))
        ((List.pairwise_cons.mp h.sorted).1 next List.mem_cons_self)
      omega
  | succ fuel ih =>
    cases tail with
    | nil => exact congrArg Except.ok (h.eq_of_single hd)
    | cons next rest =>
      obtain ⟨-, hAbove⟩ := h.number_lt
      have hHeadHeld := h.held head List.mem_cons_self
      obtain ⟨parents, hLookups, hParents⟩ := hHeld.mapM_lookupUnsafe_eq hHeadHeld
      have hInv := h.expand hParents
      have hNext := mem_insertAllDescending_of_mem parents (List.mem_cons_self : next ∈ next :: rest)
      rw [lucaLoop_succ, if_neg (by omega), hLookups]
      change dag.lucaLoop floor fuel (insertAllDescending parents (next :: rest)) = .ok d
      cases hSet : insertAllDescending parents (next :: rest) with
      | nil =>
        rw [hSet] at hNext
        cases hNext
      | cons head' tail' =>
        rw [hSet] at hInv
        have hBefore : precedes head head' = true := by
          have hMem : head' ∈ insertAllDescending parents (next :: rest) := hSet ▸ List.mem_cons_self
          rcases mem_of_mem_insertAllDescending hMem with hMem | hMem
          · exact precedes_iff.mpr (.inl ((hParents head').mp hMem).number_lt)
          · exact (List.pairwise_cons.mp h.sorted).1 head' hMem
        have hLt := countAfter_lt (hInv.held head' List.mem_cons_self) hBefore
        exact ih hInv (by omega)

/-- On a fully held DAG the search returns the highest block on all paths, if that is above the floor. -/
theorem FullyHeld.luca_eq_highestDominator (hHeld : dag.FullyHeld) {blocks : List BlockMetadata}
    (hTwo : 2 ≤ blocks.length) (hMem : ∀ m ∈ blocks, m ∈ dag.records) {d floor : BlockMetadata}
    (hd : dag.HighestDominator blocks d) (hFloor : floor.blockNumber < d.blockNumber) :
    dag.lowestUniversalCommonAncestorMany blocks floor = .ok d := by
  have hRecords : ∀ m ∈ insertAllDescending blocks [], m ∈ dag.records := by
    intro m hm
    rcases mem_of_mem_insertAllDescending hm with hm | hm
    · exact hMem m hm
    · cases hm
  have hStart : dag.SearchInvariant blocks d (insertAllDescending blocks []) := by
    refine ⟨hRecords, pairwise_insertAllDescending _ .nil, fun m hm => ?_, fun m hm => ?_⟩
    · rcases mem_of_mem_insertAllDescending hm with hm | hm
      · exact hd.dominates m hm
      · cases hm
    · exact .of_mem (mem_insertAllDescending_of_records hm hRecords (hMem m hm))
  match blocks with
  | [] | [_] => simp at hTwo
  | a :: b :: rest =>
    have hFirst := mem_insertAllDescending_of_records List.mem_cons_self hRecords (hMem a List.mem_cons_self)
    rw [lowestUniversalCommonAncestorMany]
    · cases hSet : insertAllDescending (a :: b :: rest) [] with
      | nil =>
        rw [hSet] at hFirst
        cases hFirst
      | cons head tail =>
        rw [hSet] at hStart
        exact hHeld.lucaLoop_eq hd hFloor hStart List.countP_le_length
    · rintro ⟨⟩
    · rintro block ⟨⟩

end KeyValueDagRepresentation

open KeyValueDagRepresentation

def plainBlock (hash : Bytes) (parents : List Bytes) (number : Int) : BlockMetadata where
  blockHash := hash
  parents := parents
  sender := []
  justifications := []
  weightMap := .empty
  blockNumber := number
  sequenceNumber := 0
  invalid := false
  mergeBase := []

def lateForkRecords : List BlockMetadata :=
  [plainBlock [0] [] 0, plainBlock [1] [[0]] 1, plainBlock [2] [[1]] 2, plainBlock [3] [[1], [1]] 2]

def lateFork : KeyValueDagRepresentation := .ofRecords lateForkRecords (by decide) (by decide) (by decide)

theorem hasParent_lateFork {m parent : BlockMetadata} :
    lateFork.HasParent m parent ↔ m ∈ lateForkRecords ∧ parent ∈ lateForkRecords ∧ parent.blockHash ∈ m.parents := by
  rw [HasParent, lateFork, records_ofRecords]

theorem highestDominator_lateFork :
    lateFork.HighestDominator [plainBlock [2] [[1]] 2, plainBlock [3] [[1], [1]] 2] (plainBlock [1] [[0]] 1) where
  dominates m hm path hPath := by
    have hParents : ∀ m ∈ [plainBlock [2] [[1]] 2, plainBlock [3] [[1], [1]] 2],
        (m ∈ lateForkRecords ∧ plainBlock [1] [[0]] 1 ∈ lateForkRecords ∧ [1] ∈ m.parents) ∧
          ∀ parent ∈ lateForkRecords, parent.blockHash ∈ m.parents → parent = plainBlock [1] [[0]] 1 := by
      decide
    obtain ⟨hParent, hOnly⟩ := hParents m hm
    cases hPath with
    | stop hStop => exact absurd (hasParent_lateFork.mpr hParent) (hStop _)
    | down hDown hRest =>
      obtain ⟨-, hHeld, hHash⟩ := hasParent_lateFork.mp hDown
      rw [← hOnly _ hHeld hHash]
      exact List.mem_cons_of_mem _ hRest.mem
  highest d' hd' := by
    have hFirst : Descent lateFork.HasParent (plainBlock [2] [[1]] 2)
        [plainBlock [2] [[1]] 2, plainBlock [1] [[0]] 1, plainBlock [0] [] 0] := by
      refine .down (hasParent_lateFork.mpr (by decide)) (.down (hasParent_lateFork.mpr (by decide)) (.stop ?_))
      intro b hb
      exact List.not_mem_nil (hasParent_lateFork.mp hb).2.2
    have hSecond : Descent lateFork.HasParent (plainBlock [3] [[1], [1]] 2)
        [plainBlock [3] [[1], [1]] 2, plainBlock [1] [[0]] 1, plainBlock [0] [] 0] := by
      refine .down (hasParent_lateFork.mpr (by decide)) (.down (hasParent_lateFork.mpr (by decide)) (.stop ?_))
      intro b hb
      exact List.not_mem_nil (hasParent_lateFork.mp hb).2.2
    have hOnFirst := hd' _ List.mem_cons_self _ hFirst
    have hOnSecond := hd' _ (List.mem_cons_of_mem _ List.mem_cons_self) _ hSecond
    have hBoth : ∀ x ∈ [plainBlock [2] [[1]] 2, plainBlock [1] [[0]] 1, plainBlock [0] [] 0],
        x ∈ [plainBlock [3] [[1], [1]] 2, plainBlock [1] [[0]] 1, plainBlock [0] [] 0] → x.blockNumber ≤ 1 := by
      decide
    exact hBoth d' hOnFirst hOnSecond

/-- Both branches lead through the second block, which is above the floor. -/
theorem luca_lateFork :
    lateFork.lowestUniversalCommonAncestorMany [plainBlock [2] [[1]] 2, plainBlock [3] [[1], [1]] 2]
      (plainBlock [0] [] 0) = .ok (plainBlock [1] [[0]] 1) := by
  have hHeld : lateFork.FullyHeld := by
    rw [fullyHeld_iff, lateFork, records_ofRecords]
    decide
  have hMem : ∀ m ∈ [plainBlock [2] [[1]] 2, plainBlock [3] [[1], [1]] 2], m ∈ lateFork.records := by
    rw [lateFork, records_ofRecords]
    decide
  exact hHeld.luca_eq_highestDominator (by decide) hMem highestDominator_lateFork (by decide)

end F1r3Node.Dag
